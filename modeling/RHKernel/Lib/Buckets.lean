import Mathlib.Data.List.Nodup
import RHKernel.Lib.Update

/-!
# Hash tables with chains

The entries that are in the table stand in the chains of their slots, each once. Putting an entry
in and taking one out move it into and out of its chain, and a search along one chain finds an
entry of the table if its key determines the slot.
-/

namespace RHKernel.Buckets

open List

variable {ι σ : Type*} {chain : σ → List ι} {slot slot' : ι → σ} {on on' : ι → Prop} {e : ι} {n : σ}

/-- The entries with `on` are in the chains of their slots. -/
structure Indexed (chain : σ → List ι) (slot : ι → σ) (on : ι → Prop) : Prop where
  mem : ∀ {n e}, e ∈ chain n ↔ on e ∧ slot e = n
  nodup : ∀ n, (chain n).Nodup

theorem Indexed.congr (h : Indexed chain slot on) (hon : ∀ x, on' x ↔ on x)
    (hslot : ∀ {x}, on x → slot' x = slot x) : Indexed chain slot' on' where
  mem {n x} := by
    rw [h.mem, hon]
    exact and_congr_right fun hx => by rw [hslot hx]
  nodup := h.nodup

/-- The search for a key that fixes the slot and the entry. -/
theorem Indexed.find?_eq_some_iff {p : ι → Bool} (h : Indexed chain slot on)
    (hslot : ∀ {x}, p x = true → slot x = n)
    (hunique : ∀ {x y}, on x → on y → p x = true → p y = true → x = y) :
    (chain n).find? p = some e ↔ on e ∧ p e = true := by
  constructor
  · intro hfind
    exact ⟨(h.mem.mp (mem_of_find?_eq_some hfind)).1, find?_some hfind⟩
  rintro ⟨he, hp⟩
  cases hfind : (chain n).find? p with
  | none => exact absurd hp (find?_eq_none.mp hfind e (h.mem.mpr ⟨he, hslot hp⟩))
  | some x =>
    have hx := (h.mem.mp (mem_of_find?_eq_some hfind)).1
    exact congrArg some (hunique hx he (find?_some hfind) hp)

theorem Indexed.find?_eq_none_iff {p : ι → Bool} (h : Indexed chain slot on)
    (hslot : ∀ {x}, p x = true → slot x = n) :
    (chain n).find? p = none ↔ ∀ x, on x → ¬p x = true := by
  rw [find?_eq_none]
  constructor
  · intro hnone x hx hp
    exact hnone x (h.mem.mpr ⟨hx, hslot hp⟩) hp
  · intro hnone x hx
    exact hnone x (h.mem.mp hx).1

variable [DecidableEq σ]

theorem Indexed.insert (h : Indexed chain slot on) (he : ¬on e) (hon : ∀ x, on' x ↔ x = e ∨ on x)
    (hslot : ∀ {x}, on x → slot' x = slot x) :
    Indexed (Function.update chain (slot' e) (e :: chain (slot' e))) slot' on' := by
  have hold : ∀ {n x}, x ∈ chain n ↔ on x ∧ slot' x = n := fun {n x} =>
    h.mem.trans (and_congr_right fun hx => by rw [hslot hx])
  constructor
  · intro n x
    by_cases hn : n = slot' e
    · subst hn
      rw [Function.update_self, mem_cons, hold, hon]
      constructor
      · rintro (rfl | ⟨hx, hs⟩)
        · exact ⟨.inl rfl, rfl⟩
        · exact ⟨.inr hx, hs⟩
      · rintro ⟨rfl | hx, hs⟩
        · exact .inl rfl
        · exact .inr ⟨hx, hs⟩
    · rw [Function.update_of_ne hn, hold, hon]
      constructor
      · exact fun ⟨hx, hs⟩ => ⟨.inr hx, hs⟩
      · rintro ⟨rfl | hx, hs⟩
        · exact absurd hs.symm hn
        · exact ⟨hx, hs⟩
  · exact update_elim (nodup_cons.mpr ⟨fun hmem => he (hold.mp hmem).1, h.nodup _⟩)
      fun n _ => h.nodup n

variable [DecidableEq ι]

theorem Indexed.erase (h : Indexed chain slot on) (hon : ∀ x, on' x ↔ x ≠ e ∧ on x)
    (hslot : ∀ {x}, on' x → slot' x = slot x) :
    Indexed (Function.update chain (slot e) ((chain (slot e)).erase e)) slot' on' := by
  have hgoal : ∀ {n x}, on' x ∧ slot' x = n ↔ x ≠ e ∧ x ∈ chain n := by
    intro n x
    rw [h.mem, ← and_assoc, ← hon]
    exact and_congr_right fun hx => by rw [hslot hx]
  constructor
  · intro n x
    rw [hgoal]
    by_cases hn : n = slot e
    · subst hn
      rw [Function.update_self, (h.nodup _).mem_erase_iff]
    · rw [Function.update_of_ne hn]
      refine ⟨fun hx => ⟨?_, hx⟩, And.right⟩
      rintro rfl
      exact hn (h.mem.mp hx).2.symm
  · exact update_elim ((h.nodup _).erase e) fun n _ => h.nodup n

end RHKernel.Buckets
