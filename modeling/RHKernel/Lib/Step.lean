import Mathlib.Data.Nat.Notation
import Mathlib.Logic.Relation

/-!
# Fallible steps and their runs

The models are written in `Except String`: an operation either returns a value together with the
next state or stops with the text of a panic. `ok_bind` takes a successful sequence of such
operations apart. A run is the reflexive transitive closure of a step relation, and
`run_invariant` is the induction rule every safety result below uses.
-/

namespace RHKernel.Step

universe u

theorem bind_of_ok {ε : Type*} {α β : Type u} (a : α) (f : α → Except ε β) :
    (Except.ok a >>= f) = f a := rfl

/-- A sequence that succeeds is made of parts that succeed. -/
theorem ok_bind {ε : Type*} {α β : Type u} {x : Except ε α} {f : α → Except ε β} {b : β}
    (h : x >>= f = .ok b) : ∃ a, x = .ok a ∧ f a = .ok b := by
  cases x with
  | error e => cases h
  | ok a => exact ⟨a, rfl, h⟩

theorem guard_eq_ok {ε α : Type*} {c : Prop} [Decidable c] {e : ε} {x : Except ε α} {a : α} :
    (if c then .error e else x) = .ok a ↔ ¬c ∧ x = .ok a := by
  by_cases h : c <;> simp [h]

/-- A computation whose value can be evaluated succeeds with that value. -/
theorem ok_of_toOption {ε α : Type*} {x : Except ε α} {a : α} (h : x.toOption = some a) :
    x = .ok a := by
  cases x with
  | error e => cases h
  | ok b => exact congrArg Except.ok (Option.some.inj h)

/-- What every round of a loop keeps, the loop keeps. -/
theorem foldlM_invariant {ε : Type*} {α σ : Type u} {f : σ → α → Except ε σ} {I : σ → Prop}
    (hf : ∀ {s a s'}, I s → f s a = .ok s' → I s') {l : List α} {s s' : σ} (hs : I s)
    (h : l.foldlM f s = .ok s') : I s' := by
  induction l generalizing s with
  | nil =>
    cases h
    exact hs
  | cons a l ih =>
    obtain ⟨t, ht, h⟩ := ok_bind h
    exact ih (hf hs ht) h

/-- A loop over `0, …, m - 1` that cannot stop, and what its rounds establish one after the
other. -/
theorem foldl_range {σ : Type*} {f : σ → ℕ → σ} {P : ℕ → σ → Prop} {m : ℕ}
    (hf : ∀ {i s}, i < m → P i s → P (i + 1) (f s i)) {s : σ} (hs : P 0 s) :
    P m ((List.range m).foldl f s) := by
  induction m with
  | zero => exact hs
  | succ m ih =>
    rw [List.range_succ, List.foldl_append]
    exact hf (Nat.lt_succ_self m) (ih fun hi => hf (Nat.lt_succ_of_lt hi))

/-- **Invariant rule**: what holds at the start and is kept by every step holds along every
run. -/
theorem run_invariant {σ : Type*} {r : σ → σ → Prop} {I : σ → Prop} {s t : σ}
    (hrun : Relation.ReflTransGen r s t) (hinit : I s) (hstep : ∀ {a b}, I a → r a b → I b) :
    I t := by
  induction hrun with
  | refl => exact hinit
  | tail _ hr ih => exact hstep ih hr

/-- Operations that are evaluated one after the other make a run, if each of them is a step. -/
theorem exists_run {σ ω : Type*} {f : σ → ω → Option σ} {r : σ → σ → Prop} {Q : σ → Prop}
    [DecidablePred Q] {l : List ω} {s : σ} (hf : ∀ op ∈ l, ∀ {a b}, f a op = some b → r a b)
    (h : (l.foldlM f s).any (fun t => decide (Q t)) = true) :
    ∃ t, Relation.ReflTransGen r s t ∧ Q t := by
  induction l generalizing s with
  | nil => exact ⟨s, .refl, of_decide_eq_true h⟩
  | cons op l ih =>
    rw [List.foldlM_cons, Option.any_eq_true] at h
    obtain ⟨t, ht, hQ⟩ := h
    obtain ⟨u, hu, ht⟩ := Option.bind_eq_some_iff.mp ht
    obtain ⟨t, hrun, hQ⟩ := ih (fun x hx => hf x (List.mem_cons_of_mem _ hx))
      ((Option.any_eq_true _ _).mpr ⟨t, ht, hQ⟩)
    exact ⟨t, .head (hf op List.mem_cons_self hu) hrun, hQ⟩

end RHKernel.Step
