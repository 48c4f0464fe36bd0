import Mathlib.Data.Nat.Notation

/-!
# Refinement of fallible code

The same operation is modelled twice: once over pointers, where a loop follows links and is given
fuel, and once over lists, where the loop is a recursion. `Refines E R enough x y` says that `x`,
the code over pointers, does what `y` does: it panics with the same text or returns a value that
`R` relates to the value of `y`; it runs out of fuel only if `enough` does not hold. The texts it
may panic with are those in `E`.
-/

namespace RHKernel.Refine

universe u

/-- How a computation with loops can stop without a value. -/
inductive Stop where
  | panic (text : String)
  | outOfFuel
  deriving DecidableEq

/-- `x` does what `y` does. -/
inductive Refines {α β : Type u} (E : String → Prop) (R : α → β → Prop) (enough : Prop) :
    Except Stop α → Except String β → Prop
  | ok {a b} (h : R a b) : Refines E R enough (.ok a) (.ok b)
  | panic {text} (h : E text) : Refines E R enough (.error (.panic text)) (.error text)
  | fuel (h : ¬enough) (y) : Refines E R enough (.error .outOfFuel) y

section Rules

variable {E : String → Prop} {α β α' β' γ : Type u} {R R' : α → β → Prop} {S : α' → β' → Prop}
  {enough enough' : Prop} {x : Except Stop α} {y : Except String β}

variable (h : Refines E R enough x y)

include h

theorem Refines.bind {f : α → Except Stop α'} {g : β → Except String β'}
    (hfg : ∀ {a b}, R a b → Refines E S enough (f a) (g b)) :
    Refines E S enough (x >>= f) (y >>= g) := by
  cases h with
  | ok h => exact hfg h
  | panic h => exact .panic h
  | fuel h => exact .fuel h _

/-- What is known about the value of `y`. -/
theorem Refines.and_ok {Q : β → Prop} (hQ : ∀ {b}, y = .ok b → Q b) :
    Refines E (fun a b => R a b ∧ Q b) enough x y := by
  cases h with
  | ok h => exact .ok ⟨h, hQ rfl⟩
  | panic h => exact .panic h
  | fuel h => exact .fuel h _

theorem Refines.weaken (he : enough' → enough) : Refines E R enough' x y := by
  cases h with
  | ok h => exact .ok h
  | panic h => exact .panic h
  | fuel h => exact .fuel (mt he h) _

theorem Refines.mono (hR : ∀ {a b}, R a b → R' a b) : Refines E R' enough x y := by
  cases h with
  | ok h => exact .ok (hR h)
  | panic h => exact .panic h
  | fuel h => exact .fuel h _

omit h

/-- A success is the success of what is refined. -/
theorem Refines.of_ok {a : α} (h : Refines E R enough (.ok a) y) : ∃ b, y = .ok b ∧ R a b := by
  cases h with
  | ok h => exact ⟨_, rfl, h⟩

/-- What refines a success succeeds, or lacks fuel. -/
theorem Refines.ok_right {b : β} (h : Refines E R enough x (.ok b)) :
    (∃ a, x = .ok a ∧ R a b) ∨ (x = .error .outOfFuel ∧ ¬enough) := by
  cases h with
  | ok h => exact .inl ⟨_, rfl, h⟩
  | fuel h => exact .inr ⟨rfl, h⟩

theorem Refines.of_panic {text : String} (h : Refines E R enough (.error (.panic text)) y) :
    E text := by
  cases h with
  | panic h => exact h

theorem Refines.ne_outOfFuel (h : Refines E R enough x y) (henough : enough) :
    x ≠ .error .outOfFuel := by
  rintro rfl
  cases h with
  | fuel h => exact h henough

/-- The same loop over the same list. -/
theorem Refines.foldlM {f : α → γ → Except Stop α} {g : β → γ → Except String β}
    {l : List γ} (hfg : ∀ {a b c}, c ∈ l → R a b → Refines E R enough (f a c) (g b c)) {a : α}
    {b : β} (h : R a b) : Refines E R enough (l.foldlM f a) (l.foldlM g b) := by
  induction l generalizing a b with
  | nil => exact .ok h
  | cons c l ih =>
    exact (hfg List.mem_cons_self h).bind fun h' =>
      ih (fun hc => hfg (List.mem_cons_of_mem _ hc)) h'

end Rules

end RHKernel.Refine
