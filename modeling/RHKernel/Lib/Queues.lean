import Mathlib.Data.List.Nodup
import RHKernel.Lib.Update

/-!
# Families of queues

A family of lists in which nothing stands twice: no list has a repeated entry, and no two lists
have a common one. Taking an entry out and putting a new one in, at either end, keep this.
-/

namespace RHKernel.Queues

open Function

variable {ι α : Type*}

/-- Nothing stands twice in the family. -/
structure Apart (q : ι → List α) : Prop where
  nodup : ∀ i, (q i).Nodup
  disjoint : ∀ {i j a}, a ∈ q i → a ∈ q j → i = j

theorem apart_nil : Apart fun _ : ι => ([] : List α) := ⟨fun _ => List.nodup_nil, nofun⟩

variable [DecidableEq ι] {q : ι → List α} {i j : ι} {a b : α}

theorem mem_insert_iff {l : List α} (hl : l.Perm (a :: q i)) :
    b ∈ update q i l j ↔ (b = a ∧ j = i) ∨ b ∈ q j := by
  by_cases hj : j = i
  · subst hj
    rw [update_self, hl.mem_iff, List.mem_cons]
    exact or_congr_left (and_iff_left rfl).symm
  · rw [update_of_ne hj]
    exact ⟨.inr, fun hb => hb.resolve_left fun he => hj he.2⟩

theorem Apart.shrink (h : Apart q) {l : List α} (hl : l.Sublist (q i)) : Apart (update q i l) where
  nodup := (forall_update_iff q fun _ l => l.Nodup).mpr
    ⟨(h.nodup i).sublist hl, fun j _ => h.nodup j⟩
  disjoint {j k b} hj hk := by
    have hsub : ∀ m, b ∈ update q i l m → b ∈ q m :=
      (forall_update_iff q fun m l => b ∈ l → b ∈ q m).mpr ⟨hl.mem, fun _ _ => id⟩
    exact h.disjoint (hsub j hj) (hsub k hk)

theorem Apart.insert (h : Apart q) {l : List α} (hl : l.Perm (a :: q i)) (ha : ∀ j, a ∉ q j) :
    Apart (update q i l) where
  nodup := (forall_update_iff q fun _ l => l.Nodup).mpr
    ⟨hl.nodup_iff.mpr (List.nodup_cons.mpr ⟨ha i, h.nodup i⟩), fun j _ => h.nodup j⟩
  disjoint {j k b} hj hk := by
    rcases (mem_insert_iff hl).mp hj with ⟨rfl, rfl⟩ | hj'
    · exact (((mem_insert_iff hl).mp hk).resolve_right (ha k)).2.symm
    · rcases (mem_insert_iff hl).mp hk with ⟨rfl, -⟩ | hk'
      · exact absurd hj' (ha j)
      · exact h.disjoint hj' hk'

theorem Apart.mem_erase_iff [DecidableEq α] (h : Apart q) (ha : a ∈ q i) :
    b ∈ update q i ((q i).erase a) j ↔ b ≠ a ∧ b ∈ q j := by
  by_cases hj : j = i
  · subst hj
    rw [update_self, (h.nodup j).mem_erase_iff]
  · rw [update_of_ne hj]
    exact ⟨fun hb => ⟨fun he => hj (h.disjoint (he ▸ hb) ha), hb⟩, And.right⟩

end RHKernel.Queues
