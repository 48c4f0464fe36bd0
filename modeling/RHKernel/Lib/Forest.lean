import Mathlib.Logic.Function.Basic
import Mathlib.Logic.Relation

/-!
# Forests of parent pointers

Every object has at most one parent. `Reaches parent x y` says that following the parents from `x`
leads to `y`. The lemmas say what remains reachable when the parent of one object changes: whatever
did not go through that object, and everything if the object moves to a place that does not lie
below it.
-/

namespace RHKernel.Forest

open Relation

variable {α : Type*} {parent : α → Option α} {x y z root p : α}

/-- Following the parents from `x` leads to `y`. -/
def Reaches (parent : α → Option α) : α → α → Prop :=
  ReflTransGen fun a b => parent a = some b

theorem Reaches.refl (parent : α → Option α) (x : α) : Reaches parent x x := ReflTransGen.refl

theorem Reaches.head (h : parent x = some y) (hy : Reaches parent y z) : Reaches parent x z :=
  ReflTransGen.head h hy

theorem Reaches.eq_of_none (h : Reaches parent x y) (hx : parent x = none) : x = y := by
  rcases ReflTransGen.cases_head h with rfl | ⟨z, hz, -⟩
  · rfl
  · rw [hx] at hz
    cases hz

/-- What an object with a parent reaches is itself or reached from its parent. -/
theorem Reaches.of_parent (h : Reaches parent x z) (hx : parent x = some y) (hne : x ≠ z) :
    Reaches parent y z := by
  rcases ReflTransGen.cases_head h with rfl | ⟨w, hw, hrest⟩
  · exact absurd rfl hne
  · obtain rfl := Option.some.inj (hx.symm.trans hw)
    exact hrest

/-- Nothing but itself reaches an object that is no one's parent. -/
theorem Reaches.eq_of_leaf (h : Reaches parent x y) (hy : ∀ z, parent z ≠ some y) : x = y := by
  rcases ReflTransGen.cases_tail h with rfl | ⟨z, -, hz⟩
  · rfl
  · exact absurd hz (hy z)

/-- What leads to an object without a parent does not come back to itself. -/
theorem Reaches.acyclic (h : Reaches parent x root) (htop : parent root = none)
    (hx : parent x = some y) : ¬Reaches parent y x := by
  induction h using ReflTransGen.head_induction_on generalizing y with
  | refl =>
    rw [htop] at hx
    cases hx
  | @head a b hab _ ih =>
    obtain rfl := Option.some.inj (hab.symm.trans hx)
    intro hba
    rcases ReflTransGen.cases_head hba with rfl | ⟨c, hc, hca⟩
    · exact ih hab (.refl _ _)
    · exact ih hc (ReflTransGen.tail hca hab)

variable [DecidableEq α] {n : α} {q : Option α}

/-- A way that does not lead through `n` stays when `n` gets another parent. -/
theorem Reaches.update (h : Reaches parent x y) (hn : ¬Reaches parent x n) :
    Reaches (Function.update parent n q) x y := by
  induction h using ReflTransGen.head_induction_on with
  | refl => exact .refl _ _
  | @head a b hab _ ih =>
    have hne : a ≠ n := fun heq => hn (heq ▸ .refl _ _)
    refine .head ?_ (ih fun hb => hn (.head hab hb))
    rw [Function.update_of_ne hne]
    exact hab

/-- Moving `n` to a place that is not below it keeps every way to the root. -/
theorem Reaches.move (h : Reaches parent x root) (hp : Reaches parent p root)
    (hbelow : ¬Reaches parent p n) : Reaches (Function.update parent n (some p)) x root := by
  have hp' : Reaches (Function.update parent n (some p)) p root := hp.update hbelow
  induction h using ReflTransGen.head_induction_on with
  | refl => exact .refl _ _
  | @head a b hab _ ih =>
    by_cases hne : a = n
    · subst hne
      exact .head (Function.update_self _ _ _) hp'
    · refine .head ?_ ih
      rw [Function.update_of_ne hne]
      exact hab

/-- Taking a leaf off keeps every other way. -/
theorem Reaches.remove_leaf (h : Reaches parent x y) (hleaf : ∀ z, parent z ≠ some n)
    (hx : x ≠ n) : Reaches (Function.update parent n q) x y :=
  h.update fun hxn => hx (hxn.eq_of_leaf hleaf)

end RHKernel.Forest
