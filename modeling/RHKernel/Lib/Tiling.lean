import Mathlib.Algebra.Order.Group.Nat
import Mathlib.Data.List.Chain

/-!
# Tilings of a range

A list of tiles, each with a start and a length, covers the range from `a` up to `b` if every tile
starts where the one before it ends. If some tiles are free and no two free ones are adjacent, a
gap between the other tiles lies inside a single free tile.
-/

namespace RHKernel.Tiling

open List

variable {α : Type*} {start len : α → ℕ} {free : α → Prop} {a b x n m : ℕ} {l l' : List α}
  {s t u : α}

/-- The tiles cover `[a, b)` one after the other. -/
def Tiles (start len : α → ℕ) : ℕ → ℕ → List α → Prop
  | a, b, [] => a = b
  | a, b, s :: l => start s = a ∧ Tiles start len (a + len s) b l

theorem tiles_append : Tiles start len a b (l ++ l') ↔
    ∃ m, Tiles start len a m l ∧ Tiles start len m b l' := by
  induction l generalizing a with
  | nil => simp only [nil_append, Tiles, exists_eq_left']
  | cons s l ih => simp only [cons_append, Tiles, ih, and_assoc, exists_and_left]

variable (h : Tiles start len a b l)

include h

theorem Tiles.le : a ≤ b := by
  induction l generalizing a with
  | nil => exact le_of_eq h
  | cons s l ih => exact (Nat.le_add_right _ _).trans (ih h.2)

theorem Tiles.bounds (hs : s ∈ l) : a ≤ start s ∧ start s + len s ≤ b := by
  induction l generalizing a with
  | nil => exact absurd hs not_mem_nil
  | cons t l ih =>
    obtain ⟨rfl, h⟩ := h
    rcases mem_cons.mp hs with rfl | hs
    · exact ⟨le_rfl, h.le⟩
    · exact ⟨(Nat.le_add_right _ _).trans (ih h hs).1, (ih h hs).2⟩

theorem Tiles.pairwise : l.Pairwise fun s t => start s + len s ≤ start t := by
  induction l generalizing a with
  | nil => exact List.Pairwise.nil
  | cons s l ih =>
    obtain ⟨rfl, h⟩ := h
    exact pairwise_cons.mpr ⟨fun t ht => (h.bounds ht).1, ih h⟩

/-- Tiles of at least a length fit a number of times. -/
theorem Tiles.length_mul_le (hm : ∀ s ∈ l, m ≤ len s) : a + l.length * m ≤ b := by
  induction l generalizing a with
  | nil =>
    rw [length_nil, Nat.zero_mul]
    exact h.le
  | cons s l ih =>
    obtain ⟨rfl, h⟩ := h
    have := ih h fun t ht => hm t (mem_cons_of_mem s ht)
    have := hm s mem_cons_self
    rw [length_cons, Nat.succ_mul]
    omega

omit h

theorem Tiles.split (h : Tiles start len a b (l ++ u :: l')) (hs : start s = start u)
    (ht : start t = start u + len s) (hlen : len s + len t = len u) :
    Tiles start len a b (l ++ s :: t :: l') := by
  obtain ⟨m, hl, rfl, hl'⟩ := tiles_append.mp h
  refine tiles_append.mpr ⟨_, hl, hs, ht, ?_⟩
  rwa [add_assoc, hlen]

theorem Tiles.join (h : Tiles start len a b (l ++ s :: t :: l')) (hs : start u = start s)
    (hlen : len u = len s + len t) : Tiles start len a b (l ++ u :: l') := by
  obtain ⟨m, hl, rfl, -, hl'⟩ := tiles_append.mp h
  refine tiles_append.mpr ⟨_, hl, hs, ?_⟩
  rwa [hlen, ← add_assoc]

theorem Tiles.replace (h : Tiles start len a b (l ++ s :: l')) (hstart : start t = start s)
    (hlen : len t = len s) : Tiles start len a b (l ++ t :: l') := by
  obtain ⟨m, hl, rfl, hl'⟩ := tiles_append.mp h
  refine tiles_append.mpr ⟨_, hl, hstart, ?_⟩
  rwa [hlen]

/-- **A gap lies inside a free tile** if no two free tiles are adjacent. -/
theorem Tiles.exists_of_gap (h : Tiles start len a b l)
    (hfree : l.IsChain fun s t => ¬(free s ∧ free t)) (hpos : ∀ s ∈ l, 0 < len s)
    (hax : a ≤ x) (hn : 0 < n) (hxb : x + n ≤ b)
    (hgap : ∀ s ∈ l, ¬free s → x + n ≤ start s ∨ start s + len s ≤ x) :
    ∃ s ∈ l, free s ∧ start s ≤ x ∧ x + n ≤ start s + len s := by
  induction l generalizing a with
  | nil =>
    obtain rfl : a = b := h
    omega
  | cons s l ih =>
    obtain ⟨rfl, h⟩ := h
    rw [isChain_cons] at hfree
    rcases lt_or_ge x (start s + len s) with hx | hx
    · -- the gap starts in the first tile
      have hs : free s := by
        by_contra hs
        have := hgap s mem_cons_self hs
        omega
      refine ⟨s, mem_cons_self, hs, hax, ?_⟩
      by_contra hend
      cases l with
      | nil =>
        obtain rfl : start s + len s = b := h
        exact hend hxb
      | cons t l =>
        have ht : ¬free t := fun ht => hfree.1 t rfl ⟨hs, ht⟩
        have hstart : start t = start s + len s := h.1
        have := hgap t (mem_cons_of_mem s mem_cons_self) ht
        omega
    · obtain ⟨t, ht, htfree⟩ := ih h hfree.2 (fun t ht => hpos t (mem_cons_of_mem s ht)) hx
        fun t ht => hgap t (mem_cons_of_mem s ht)
      exact ⟨t, mem_cons_of_mem s ht, htfree⟩

end RHKernel.Tiling
