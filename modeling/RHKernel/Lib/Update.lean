import Mathlib.Logic.Function.Basic

/-!
# Writes to one place of a function

A table is a function and a write to it is `Function.update`. The rules split on whether the place
that is read is the one that was written.
-/

namespace RHKernel

open Function

variable {α β γ : Type*} [DecidableEq α] {f : α → β} {a x : α} {v y : β}

theorem update_eq_cases (h : update f a v x = y) : x = a ∧ v = y ∨ x ≠ a ∧ f x = y := by
  by_cases hx : x = a
  · subst hx
    exact .inl ⟨rfl, (update_self _ _ _).symm.trans h⟩
  · exact .inr ⟨hx, (update_of_ne hx _ _).symm.trans h⟩

/-- What holds at the place that was written, and held at the others, holds everywhere. -/
@[elab_as_elim]
theorem update_elim {p : α → β → Prop} (h : p a v) (hne : ∀ x, x ≠ a → p x (f x)) (x : α) :
    p x (update f a v x) :=
  (forall_update_iff f p).mpr ⟨h, hne⟩ x

/-- A write that keeps `g` at its place keeps it everywhere. -/
theorem apply_update_of_eq (g : β → γ) (h : g v = g (f a)) (x : α) :
    g (update f a v x) = g (f x) :=
  update_elim h (fun _ _ => rfl) x

end RHKernel
