import Mathlib.Algebra.Order.Group.Nat
import Mathlib.Tactic.Common

/-!
# Rows of slots

A row has a place for each number, some of them free. A search for several free places in a row
counts the free ones it has just passed and starts again at a place in use: `FreeRun` is what it
knows at each place, and it finds the first window.

Things in a row that are looked up by name are found in their order; one with a new name hides no
other.
-/

namespace RHKernel.Rows

open List

section Windows

variable {P : ℕ → Prop} {need i run start k : ℕ}

/-- `need` free places from `k` on. -/
def Window (P : ℕ → Prop) (need k : ℕ) : Prop := ∀ m < need, P (k + m)

/-- What the search knows at the place `i`: the last `run` places, and no others before them, are
free, and there is no window so far. -/
structure FreeRun (P : ℕ → Prop) (need i run start : ℕ) : Prop where
  le : run ≤ i
  start_eq : run ≠ 0 → start = i - run
  free : ∀ m, i - run ≤ m → m < i → P m
  before : i - run = 0 ∨ ¬P (i - run - 1)
  short : run < need
  none : ∀ k, k + need ≤ i → ¬Window P need k

theorem FreeRun.zero (P : ℕ → Prop) (h : 0 < need) : FreeRun P need 0 0 0 :=
  ⟨le_refl 0, fun h0 => absurd rfl h0, fun _ _ hm => absurd hm (Nat.not_lt_zero _), .inl rfl, h,
    fun k hk => by omega⟩

variable (h : FreeRun P need i run start)

include h

/-- Where the run starts that the place `i` belongs to. -/
theorem FreeRun.start_succ : (if run = 0 then i else start) = i - run := by
  split_ifs with h0
  · omega
  · exact h.start_eq h0

/-- A window that begins before the run would have been found. -/
theorem FreeRun.no_window (hk : k < i - run) : ¬Window P need k := by
  intro hw
  obtain hgt | hle := lt_or_ge i (k + need)
  · rcases h.before with h0 | h0
    · omega
    · refine h0 ?_
      have hfree := hw (i - run - 1 - k) (by omega)
      rwa [show k + (i - run - 1 - k) = i - run - 1 by omega] at hfree
  · exact h.none k hle hw

theorem FreeRun.free_succ (hi : P i) : ∀ m, i - run ≤ m → m < i + 1 → P m := by
  intro m h1 h2
  obtain hlt | rfl := Nat.lt_succ_iff_lt_or_eq.mp h2
  · exact h.free m h1 hlt
  · exact hi

/-- A free place makes the run longer. -/
theorem FreeRun.next_free (hi : P i) (hshort : run + 1 < need) :
    FreeRun P need (i + 1) (run + 1) (i - run) := by
  have hle := h.le
  refine ⟨by omega, fun _ => by omega, fun m h1 => h.free_succ hi m (by omega), ?_, hshort,
    fun k hk => h.no_window (by omega)⟩
  rw [show i + 1 - (run + 1) = i - run by omega]
  exact h.before

/-- A place in use ends the run. -/
theorem FreeRun.next_used (hi : ¬P i) : FreeRun P need (i + 1) 0 start := by
  have hpos := h.short
  refine ⟨by omega, fun h0 => absurd rfl h0, fun m h1 h2 => by omega, .inr hi, by omega,
    fun k hk hw => ?_⟩
  obtain hlt | heq := lt_or_ge (k + need) (i + 1)
  · exact h.none k (by omega) hw
  · have hlast := hw (need - 1) (by omega)
    rw [show k + (need - 1) = i by omega] at hlast
    exact hi hlast

/-- A free place completes the first window. -/
theorem FreeRun.found (hi : P i) (hneed : run + 1 = need) :
    i - run + need ≤ i + 1 ∧ Window P need (i - run) ∧ ∀ k < i - run, ¬Window P need k := by
  have hle := h.le
  exact ⟨by omega, fun m hm => h.free_succ hi _ (by omega) (by omega), fun k hk => h.no_window hk⟩

end Windows

/-! ### Names -/

/-- Something with a new name is found, and it hides nothing that was found before; what stood
behind it may not have been in sight. -/
theorem find?_insert {α κ : Type*} {named : κ → α → Bool} {l1 l2 l3 : List α} {x : α} {k : κ}
    (hx : named k x = true) (hnew : (l1 ++ l2).find? (named k) = none) (hl : l2 = [] ∨ l2 = l3)
    (hclash : ∀ w y, named w x = true → named w y = true → named k y = true) :
    (l1 ++ x :: l3).find? (named k) = some x ∧
      ∀ w y, (l1 ++ l2).find? (named w) = some y → (l1 ++ x :: l3).find? (named w) = some y := by
  have hall := find?_eq_none.mp hnew
  constructor
  · rw [find?_append] at hnew ⊢
    rw [(Option.or_eq_none_iff.mp hnew).1, find?_cons_of_pos hx, Option.none_or]
  intro w y hy
  have hxw : ¬named w x = true := fun hw =>
    hall y (mem_of_find?_eq_some hy) (hclash w y hw (find?_some hy))
  rw [find?_append, find?_cons_of_neg hxw]
  rw [find?_append] at hy
  rcases hl with rfl | rfl
  · rw [find?_nil, Option.or_none] at hy
    rw [hy, Option.some_or]
  · exact hy

end RHKernel.Rows
