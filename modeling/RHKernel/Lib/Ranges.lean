import Mathlib.Data.Set.Card
import Mathlib.Order.Interval.Finset.Nat

/-!
# Half-open ranges

A range `(a, b)` has the numbers from `a` up to `b`, without `b`. Two ranges meet if they overlap
or touch; ranges that meet can be replaced by their hull, and a range that meets neither of them
does not meet the hull. `Apart` lists have no two ranges that meet.

`swapRemove` takes an entry out of an array by moving the last one into its place.
-/

namespace RHKernel.Ranges

open Finset

variable {r t u : ℕ × ℕ} {l l' : List (ℕ × ℕ)} {x i : ℕ} {α : Type*}

def Has (r : ℕ × ℕ) (x : ℕ) : Prop := r.1 ≤ x ∧ x < r.2

instance (r : ℕ × ℕ) (x : ℕ) : Decidable (Has r x) := inferInstanceAs (Decidable (_ ∧ _))

/-- The ranges overlap or touch. -/
def Meets (r t : ℕ × ℕ) : Prop := r.1 ≤ t.2 ∧ t.1 ≤ r.2

instance (r t : ℕ × ℕ) : Decidable (Meets r t) := inferInstanceAs (Decidable (_ ∧ _))

theorem Meets.symm (h : Meets r t) : Meets t r := ⟨h.2, h.1⟩

theorem not_meets_iff : ¬Meets r t ↔ t.2 < r.1 ∨ r.2 < t.1 := by
  rw [Meets, not_and_or, not_le, not_le]

/-- The smallest range that contains both. -/
def hull (r t : ℕ × ℕ) : ℕ × ℕ := (min r.1 t.1, max r.2 t.2)

theorem has_hull (h : Meets r t) : Has (hull r t) x ↔ Has r x ∨ Has t x := by
  obtain ⟨h1, h2⟩ := h
  simp only [Has, hull]
  omega

/-- What meets neither of two ranges does not meet their hull. -/
theorem not_meets_hull (hu : u.1 ≤ u.2) (h : Meets r t) (hr : ¬Meets u r) (ht : ¬Meets u t) :
    ¬Meets u (hull r t) := by
  simp only [Meets, hull] at *
  omega

theorem Meets.hull_left (h : Meets u r) (t : ℕ × ℕ) : Meets u (hull r t) := by
  simp only [Meets, hull] at *
  omega

/-- The number is in one of the ranges. -/
def Covered (l : List (ℕ × ℕ)) (x : ℕ) : Prop := ∃ r ∈ l, Has r x

instance (l : List (ℕ × ℕ)) (x : ℕ) : Decidable (Covered l x) :=
  inferInstanceAs (Decidable (∃ r ∈ l, Has r x))

/-- The ranges are not empty, and no two of them meet. -/
structure Apart (l : List (ℕ × ℕ)) : Prop where
  pos : ∀ r ∈ l, r.1 < r.2
  apart : l.Pairwise fun r t => ¬Meets r t

theorem Apart.perm (h : Apart l) (hp : l'.Perm l) : Apart l' :=
  ⟨fun r hr => h.pos r (hp.mem_iff.mp hr), (hp.pairwise_iff fun hm => mt Meets.symm hm).mpr h.apart⟩

theorem apart_cons : Apart (r :: l) ↔ r.1 < r.2 ∧ (∀ t ∈ l, ¬Meets r t) ∧ Apart l := by
  constructor
  · rintro ⟨h1, h2⟩
    rw [List.pairwise_cons] at h2
    exact ⟨h1 r List.mem_cons_self, h2.1, fun t ht => h1 t (List.mem_cons_of_mem _ ht), h2.2⟩
  · rintro ⟨h1, h2, h3⟩
    exact ⟨List.forall_mem_cons.mpr ⟨h1, h3.pos⟩, List.pairwise_cons.mpr ⟨h2, h3.apart⟩⟩

theorem covered_perm (hp : l'.Perm l) : Covered l' x ↔ Covered l x :=
  exists_congr fun _ => and_congr_left fun _ => hp.mem_iff

theorem covered_cons : Covered (r :: l) x ↔ Has r x ∨ Covered l x := by
  simp only [Covered, List.exists_mem_cons_iff]

theorem covered_append : Covered (l ++ l') x ↔ Covered l x ∨ Covered l' x := by
  simp only [Covered, List.mem_append, or_and_right, exists_or]

theorem not_covered_nil : ¬Covered [] x := fun ⟨_, hr, _⟩ => List.not_mem_nil hr

/-! ### Counting -/

/-- The ranges have no number in common. -/
def NoneShared (r t : ℕ × ℕ) : Prop := ∀ x, Has r x → ¬Has t x

/-- A number of disjoint ranges is in one of them only. -/
theorem countP_has (h : l.Pairwise NoneShared) (x : ℕ) :
    l.countP (fun r => decide (Has r x)) = if Covered l x then 1 else 0 := by
  induction l with
  | nil => rw [if_neg not_covered_nil, List.countP_nil]
  | cons r l ih =>
    obtain ⟨hr, hl⟩ := List.pairwise_cons.mp h
    rw [List.countP_cons, ih hl]
    by_cases hx : Has r x
    · have hnot : ¬Covered l x := fun ⟨t, ht, htx⟩ => hr t ht x hx htx
      rw [if_neg hnot, if_pos (decide_eq_true hx), if_pos (covered_cons.mpr (.inl hx))]
    · rw [if_neg (fun hd => hx (of_decide_eq_true hd)), add_zero]
      exact if_congr (covered_cons.trans (or_iff_right hx)).symm rfl rfl

theorem setOf_has (r : ℕ × ℕ) : {x | Has r x} = ↑(Ico r.1 r.2) := by
  ext x
  rw [coe_Ico]
  rfl

theorem setOf_covered_cons (r : ℕ × ℕ) (l : List (ℕ × ℕ)) :
    {x | Covered (r :: l) x} = {x | Has r x} ∪ {x | Covered l x} := by
  ext x
  exact covered_cons

theorem setOf_covered_nil : {x | Covered [] x} = (∅ : Set ℕ) :=
  Set.eq_empty_of_forall_notMem fun _ => not_covered_nil

theorem finite_covered (l : List (ℕ × ℕ)) : {x | Covered l x}.Finite := by
  induction l with
  | nil =>
    rw [setOf_covered_nil]
    exact Set.finite_empty
  | cons r l ih =>
    rw [setOf_covered_cons, setOf_has]
    exact (finite_toSet _).union ih

/-- The lengths of disjoint ranges add up to the number of their members. -/
theorem ncard_covered (h : l.Pairwise NoneShared) :
    {x | Covered l x}.ncard = (l.map fun r => r.2 - r.1).sum := by
  induction l with
  | nil => rw [setOf_covered_nil, Set.ncard_empty, List.map_nil, List.sum_nil]
  | cons r l ih =>
    obtain ⟨hr, hl⟩ := List.pairwise_cons.mp h
    have hdisjoint : Disjoint {x | Has r x} {x | Covered l x} :=
      Set.disjoint_left.mpr fun x hx ⟨t, ht, htx⟩ => hr t ht x hx htx
    rw [setOf_covered_cons, Set.ncard_union_eq hdisjoint (setOf_has r ▸ finite_toSet _)
      (finite_covered l), ih hl, setOf_has, Set.ncard_coe_finset, Nat.card_Ico, List.map_cons,
      List.sum_cons]

/-! ### Arrays without order -/

/-- The last entry is moved into the place `i`, and the array gets shorter by one. -/
def swapRemove {α : Type*} (l : List α) (i : ℕ) : List α :=
  match l.getLast? with
  | none => []
  | some a => (l.set i a).dropLast

theorem swapRemove_concat (l : List α) (a : α) (i : ℕ) :
    swapRemove (l ++ [a]) i = if i < l.length then l.set i a else l := by
  have hset : (l ++ [a]).set i a = (if i < l.length then l.set i a else l) ++ [a] := by
    split_ifs with h
    · exact List.set_append_left _ _ h
    · rw [List.set_append_right _ _ (not_lt.mp h)]
      cases i - l.length <;> rfl
  rw [swapRemove, List.getLast?_concat]
  simp only
  rw [hset, List.dropLast_concat]

theorem perm_cons_swapRemove {l : List α} {a : α} (h : l[i]? = some a) :
    l.Perm (a :: swapRemove l i) := by
  obtain rfl | ⟨l, b, rfl⟩ := l.eq_nil_or_concat
  · exact absurd h.symm (Option.some_ne_none a)
  rw [List.concat_eq_append] at h ⊢
  rw [swapRemove_concat]
  split_ifs with hi
  · rw [List.getElem?_append_left hi] at h
    obtain ⟨hlt, rfl⟩ := List.getElem?_eq_some_iff.mp h
    have hsplit : l = l.take i ++ l[i] :: l.drop (i + 1) := by
      rw [← List.drop_eq_getElem_cons hlt, List.take_append_drop]
    have hset : l.set i b = l.take i ++ b :: l.drop (i + 1) :=
      List.set_eq_take_append_cons_drop.trans (if_pos hlt)
    rw [hset]
    nth_rewrite 1 [hsplit]
    rw [List.append_assoc, List.cons_append]
    refine List.perm_middle.trans (List.Perm.cons _ ?_)
    rw [← List.append_assoc]
    exact (List.perm_append_singleton b _).trans List.perm_middle.symm
  · have hlen : i = l.length := by
      have := (List.getElem?_eq_some_iff.mp h).1
      rw [List.length_append, List.length_singleton] at this
      omega
    subst hlen
    rw [List.getElem?_append_right (le_refl _), Nat.sub_self] at h
    obtain rfl := Option.some.inj h
    exact List.perm_append_singleton _ _

/-- The first entry stays where it is if another one is taken out. -/
theorem head?_swapRemove_of_pos {l : List α} (hi : 0 < i) (hl : i < l.length) :
    (swapRemove l i).head? = l.head? := by
  obtain rfl | ⟨l, b, rfl⟩ := l.eq_nil_or_concat
  · exact absurd hl (Nat.not_lt_zero i)
  rw [List.concat_eq_append] at hl ⊢
  rw [swapRemove_concat]
  obtain ⟨i, rfl⟩ : ∃ k, i = k + 1 := ⟨i - 1, by omega⟩
  cases l with
  | nil => exact absurd hl (by simp)
  | cons a l =>
    split_ifs
    · rw [List.set_cons_succ, List.cons_append, List.head?_cons, List.head?_cons]
    · rw [List.cons_append, List.head?_cons, List.head?_cons]

/-- If the first entry is taken out, the last one comes first. -/
theorem head?_swapRemove_zero {l : List α} (hl : 1 < l.length) :
    (swapRemove l 0).head? = l.getLast? := by
  obtain rfl | ⟨l, b, rfl⟩ := l.eq_nil_or_concat
  · exact absurd hl (by simp)
  rw [List.concat_eq_append] at hl ⊢
  rw [List.length_append, List.length_singleton] at hl
  rw [swapRemove_concat, if_pos (by omega), List.getLast?_concat]
  cases l with
  | nil => exact absurd hl (by simp)
  | cons a l => rw [List.set_cons_zero, List.head?_cons]

end RHKernel.Ranges
