import RHKernel.Memory.Pmm.Ops

/-!
# Single pages

The virtual memory manager asks the allocator for one page at a time. Here the contract of `alloc`
is restated for one page: `live` is the set of pages that are held, as a function with values `0`
and `1`, and the call changes it at one page.
-/

namespace RHKernel.Pmm

open DyadicBlock Step Function

variable {managed live : ℕ → ℕ} {s s' : State} {phys p order fuel i : ℕ}

theorem Inv.live_le_one (h : Inv managed live s) (p : ℕ) : live p ≤ 1 := by
  obtain ⟨lost, -, hcov⟩ := h.cover
  have h1 := hcov p
  have h2 := h.le_one p
  omega

theorem Inv.managed_of_live (h : Inv managed live s) (hp : live p ≠ 0) : managed p = 1 := by
  obtain ⟨lost, -, hcov⟩ := h.cover
  have h1 := hcov p
  have h2 := h.le_one p
  omega

theorem Inv.ne_zero_of_live (h : Inv managed live s) (h0 : managed 0 = 0)
    (hp : live (pfn phys) ≠ 0) : phys ≠ 0 := by
  rintro rfl
  have h1 := h.managed_of_live hp
  rw [pfn, Nat.zero_div] at h1
  omega

/-! ### Taking a page -/

/-- `alloc` has handed out the page at `phys`. -/
structure PageTaken (managed live : ℕ → ℕ) (s s' : State) (phys : ℕ) : Prop where
  ne_zero : phys ≠ 0
  aligned : pageSize ∣ phys
  fresh : live (pfn phys) = 0
  usable : managed (pfn phys) = 1
  inv : Inv managed (update live (pfn phys) 1) s'
  getRef : ∀ q, getRef s' q = if pfn q = pfn phys then 1 else getRef s q

theorem alloc_page (h : alloc s pageSize = .ok (phys, s')) (hi : Inv managed live s) :
    (phys = 0 ∧ Inv managed live s' ∧ ∀ q, getRef s' q = getRef s q) ∨
      PageTaken managed live s s' phys := by
  rcases (alloc_spec h hi).2 with ⟨rfl, hinv, -, hget⟩ | ⟨hne, -, hal⟩
  · exact .inl ⟨rfl, hinv, hget⟩
  rw [sizeToOrder_pageSize] at hal
  have hinv := hal.inv hne
  have hone := hinv.live_le_one (pfn phys)
  have hman := hinv.managed_of_live (p := pfn phys)
  simp only [tally_zero, if_true] at hone hman
  refine .inr ⟨hne, blockSize_zero ▸ hal.aligned, by omega, hman (by omega), ?_, fun q => ?_⟩
  · have hlive : (fun p => live p + tally (pfn phys) 0 p) = update live (pfn phys) 1 := by
      funext p
      rw [tally_zero, update_apply]
      split_ifs with hp
      · subst hp
        omega
      · rfl
    rwa [hlive] at hinv
  · rw [hal.getRef]
    simp only [covers_zero_iff]

theorem takeBlockLoop_eq_zero (hw : Wf s) (h0 : freeTally s 0 = 0)
    (h : takeBlockLoop order fuel i s = .ok (0, s')) : s' = s := by
  induction fuel generalizing i with
  | zero =>
    cases h
    rfl
  | succ fuel ih =>
    rw [takeBlockLoop] at h
    by_cases hi : s.activeMaxOrder < i
    · rw [if_pos hi] at h
      cases h
      rfl
    rw [if_neg hi] at h
    unfold popBlock at h
    cases hl : s.freeLists i with
    | nil =>
      rw [hl] at h
      exact ih h
    | cons block rest =>
      have hne : block ≠ 0 := ne_zero_of_mem hw h0 (hl ▸ List.mem_cons_self)
      rw [hl] at h
      simp only [if_neg hne] at h
      obtain ⟨t, -, h⟩ := ok_bind h
      exact absurd (Prod.mk.inj (Except.ok.inj h)).1 hne

theorem alloc_eq_zero (hi : Inv managed live s) (h0 : managed 0 = 0)
    (h : alloc s pageSize = .ok (0, s')) : s' = s := by
  obtain ⟨-, rfl⟩ | ⟨t, -, htake, hret⟩ := alloc_cases h
  · rfl
  · exact Eq.trans hret (takeBlockLoop_eq_zero hi.sound.wf (hi.freeTally_zero h0) htake)

end RHKernel.Pmm
