import RHKernel.Memory.Heap.Slab

/-!
# Runs of the slab allocator

`kmalloc` keeps the invariant of the slabs whatever it is asked for, with or without a CPU
structure. `kfree` keeps it with one exception: a slab of the largest class has a single slot, so
it goes from full to empty in one step, and `kfree` then unlinks it with the head of
`partial_slabs` although it is in `full_slabs`. When it is the first slab there, `full_slabs` goes
on pointing at a page that has been given back.
-/

namespace RHKernel.Heap

open Bits DList Function List Relation Step Except Prod
open Pmm (pageSize blockSize sizeToOrder Block)

section Alloc

variable {s s' : State} {live live' slabs : List ℕ} {mem : ℕ × SlabList → List ℕ}
  {fresh r : Option ℕ}

theorem Inv.perm (hi : Inv s live mem fresh) (h : live.Perm live') : Inv s live' mem fresh where
  slab hg := (hi.slab hg).congr (h.symm.filter _)
  lists := hi.lists
  mem_iff := hi.mem_iff
  used_pos := hi.used_pos
  owned_lt := hi.owned_lt
  owned_iff := hi.owned_iff
  live_slot hp := hi.live_slot (h.mem_iff.mpr hp)
  live_large hp := hi.live_large (h.mem_iff.mpr hp)
  pmm := by
    obtain ⟨managed, others, hr⟩ := hi.pmm
    exact ⟨managed, others, hr.perm ((((h.filter _).map _).append_left _).append_right _)⟩

/-- The blocks held depend on the headers of the live large allocations only. -/
theorem map_largeBlock_update {large : ℕ → LargeAllocHeader} {page : ℕ} {h : LargeAllocHeader}
    (hne : ∀ q ∈ largePtrs live, q - pageSize ≠ page) :
    (largePtrs live).map (largeBlock (update large page h)) =
      (largePtrs live).map (largeBlock large) := by
  refine map_congr_left fun q hq => ?_
  rw [largeBlock, update_of_ne (hne q hq), largeBlock]

/-- A page with a block of its own is not the header of a large allocation. -/
theorem largePtrs_ne {managed : ℕ → ℕ} {pmm : Pmm.State} {large : ℕ → LargeAllocHeader}
    {others : List Block} {b : Block}
    (hr : Pmm.RunInv managed
      (pmm, b :: (slabs.map (⟨·, 0⟩) ++ (largePtrs live).map (largeBlock large) ++ others))) :
    ∀ q ∈ largePtrs live, q - pageSize ≠ b.addr := by
  intro q hq he
  have hnd := hr.addr_nodup
  refine (nodup_cons.mp hnd).1 (mem_map.mpr ⟨largeBlock large q, ?_, he⟩)
  exact mem_append_left _ (mem_append_right _ (mem_map_of_mem hq))

theorem mem_largePtrs {p : ℕ} : p ∈ largePtrs live ↔ p ∈ live ∧ p % pageSize = 0 := by
  rw [largePtrs, mem_filter, decide_eq_true_eq]

/-- A large allocation takes a block with a header page in front. -/
theorem Inv.allocLarge {size : ℕ} (hi : Inv s live mem none)
    (h : allocLarge s size = .ok (r, s')) : Inv s' (r.elim live (· :: live)) mem none := by
  unfold Heap.allocLarge at h
  by_cases hbig : Pmm.uint64Max - pageSize < size
  · rw [if_pos hbig] at h
    obtain ⟨rfl, rfl⟩ := mk.inj (ok.inj h)
    exact hi
  rw [if_neg hbig] at h
  by_cases horder : s.pmm.activeMaxOrder < sizeToOrder (size + pageSize)
  · simp only [if_pos horder] at h
    obtain ⟨rfl, rfl⟩ := mk.inj (ok.inj h)
    exact hi
  simp only [if_neg horder] at h
  obtain ⟨⟨phys, pmm⟩, halloc, h⟩ := ok_bind h
  obtain ⟨managed, others, hr⟩ := hi.pmm
  have hr' := (Pmm.OpStep.alloc halloc).runInv hr
  by_cases hp : phys = 0
  · simp only [if_pos hp] at h hr'
    obtain ⟨rfl, rfl⟩ := mk.inj (ok.inj h)
    exact hi.withPmm ⟨managed, others, hr'⟩
  simp only [if_neg hp] at h hr'
  obtain ⟨rfl, rfl⟩ := mk.inj (ok.inj h)
  have hzero : (phys + pageSize) % pageSize = 0 := by
    rw [Nat.add_mod_right]
    exact Nat.mod_eq_zero_of_dvd
      (Pmm.pageSize_dvd_of_blockSize_dvd (hr'.aligned mem_cons_self))
  have hne := largePtrs_ne hr'
  refine ⟨fun {g} hg => ?_, hi.lists, hi.mem_iff, hi.used_pos, hi.owned_lt, hi.owned_iff, ?_, ?_,
    managed, others, ?_⟩
  · refine (hi.slab hg).congr ?_
    rw [Option.elim_some, slotPtrs_cons_of_large hzero g]
  · intro p hp' hpz
    rcases mem_cons.mp hp' with rfl | hp'
    · exact absurd hzero hpz
    · exact hi.live_slot hp' hpz
  · intro p hp' hpz
    rcases mem_cons.mp hp' with rfl | hp'
    · simp only [Nat.add_sub_cancel, update_self]
      exact ⟨trivial, (Pmm.blockSize_pos _).ne'⟩
    · simp only [update_of_ne (hne p (mem_largePtrs.mpr ⟨hp', hpz⟩))]
      exact hi.live_large hp' hpz
  · refine hr'.perm ?_
    simp only [held, Option.elim_some, largePtrs_cons_of_large hzero, map_cons,
      map_largeBlock_update hne]
    rw [largeBlock, Nat.add_sub_cancel, update_self]
    exact (perm_middle.symm.append_right _)

/-- **`kmalloc`** keeps the invariant, with or without a CPU structure. -/
theorem Inv.kmalloc {size : ℕ} {cpu : Bool} (hi : Inv s live mem none)
    (h : kmalloc s size cpu = .ok (r, s')) :
    ∃ mem', Inv s' (r.elim live (· :: live)) mem' none := by
  unfold Heap.kmalloc at h
  by_cases hsize : size = 0
  · rw [if_pos hsize] at h
    obtain ⟨rfl, rfl⟩ := mk.inj (ok.inj h)
    exact ⟨mem, hi⟩
  rw [if_neg hsize] at h
  by_cases hcount : cacheIndexForSize size = cacheCount
  · simp only [if_pos hcount] at h
    exact ⟨mem, hi.allocLarge h⟩
  simp only [if_neg hcount] at h
  have hidx : cacheIndexForSize size < cacheCount :=
    lt_of_le_of_ne findIdx_le_length hcount
  generalize cacheIndexForSize size = i at h hidx
  split at h
  case h_1 g hlocal =>
    obtain ⟨hsome, -⟩ := Option.filter_eq_some_iff.mp hlocal
    cases cpu with
    | false => cases hsome
    | true =>
      obtain ⟨ptr, s1, mem', heq, hi'⟩ := hi.allocLocal hsome
      rw [heq] at h
      obtain ⟨rfl, rfl⟩ := mk.inj (ok.inj h)
      exact ⟨mem', hi'⟩
  case h_2 hlocal =>
    obtain ⟨⟨g, s1⟩, hens, h⟩ := ok_bind h
    obtain ⟨hcache, mem1, fresh, hi1, hcase⟩ := hi.ensurePartial hidx hens
    rcases hcase with ⟨rfl, rfl⟩ | ⟨g, rfl, hhead, hfresh⟩
    · obtain ⟨rfl, rfl⟩ := mk.inj (ok.inj h)
      exact ⟨mem1, hi1⟩
    cases cpu with
    | false =>
      obtain ⟨ptr, s2, mem', heq, hi'⟩ := hi1.allocShared hfresh hhead
      simp only [heq] at h
      obtain ⟨rfl, rfl⟩ := mk.inj (ok.inj h)
      exact ⟨mem', hi'⟩
    | true =>
      -- a slab that the CPU owns is never full, so it has none of this class
      have hnone : s1.heapCache i = none := by
        rw [hcache]
        by_contra hsome
        obtain ⟨x, hx⟩ := Option.ne_none_iff_exists'.mp hsome
        obtain ⟨hxs, hxo, -⟩ := hi.owned_iff.mp hx
        have hlt := hi.owned_lt hxs hxo
        have hsum := (hi.slab hxs).used_add_free
        rw [if_pos rfl, hx] at hlocal
        have hfree := Option.filter_eq_none_iff.mp hlocal x rfl
        simp only [ne_eq, decide_not, Bool.not_eq_eq_eq_not, Bool.not_true,
          decide_eq_false_iff_not, not_not] at hfree
        rw [hfree, length_nil] at hsum
        omega
      obtain ⟨ptr, s2, mem', heq, hi'⟩ := hi1.allocOwned hfresh hhead hnone
      simp only [heq] at h
      obtain ⟨rfl, rfl⟩ := mk.inj (ok.inj h)
      exact ⟨mem', hi'⟩

end Alloc

section Free

variable {s s' : State} {rest live : List ℕ} {mem mem' : ℕ × SlabList → List ℕ} {ptr g i : ℕ}

/-- The header after a slot has come back. -/
def SlabHeader.give (h : SlabHeader) (ptr : ℕ) : SlabHeader :=
  { h with freeList := ptr :: h.freeList, usedSlots := h.usedSlots - 1 }

/-- A live pointer to a slot: its slab has it in use. -/
theorem Inv.give (hi : Inv s (ptr :: rest) mem none) (hne : ptr % pageSize ≠ 0) :
    alignDown ptr pageSize ∈ s.slabs ∧ 0 < (s.hdr (alignDown ptr pageSize)).usedSlots ∧
      SlabOk ((s.hdr (alignDown ptr pageSize)).give ptr) rest (alignDown ptr pageSize) := by
  have hg := hi.live_slot mem_cons_self hne
  have hok := hi.slab hg
  have hused := hok.used
  have hslots := hok.slots
  rw [slotPtrs_cons_self hne rfl] at hused hslots
  rw [length_cons] at hused
  refine ⟨hg, by omega, hok.magic, hok.cacheIndex_lt, hok.slotSize_eq, hok.totalSlots_eq,
    perm_middle.symm.trans hslots, ?_⟩
  simp only [SlabHeader.give]
  omega

/-- What freeing a slot of slab `g` does not change. -/
theorem slotPtrs_old (x : ℕ) (hx : x ≠ alignDown ptr pageSize) :
    (slotPtrs rest x).Perm (slotPtrs (ptr :: rest) x) := by
  rw [slotPtrs_cons_of_ne fun he => hx he.symm]

theorem largePtrs_old (hne : ptr % pageSize ≠ 0) :
    (largePtrs rest).Perm (largePtrs (ptr :: rest)) := by
  rw [largePtrs_cons_of_slot hne]

/-- An empty slab that is in no list any more goes back to the physical allocator. -/
theorem Inv.dropSlab {L : Links ℕ}
    {heads : ℕ × SlabList → Option ℕ} {pmm : Pmm.State} {h : SlabHeader}
    (hi : Inv s (ptr :: rest) mem none) (bytes : ℕ) (hne : ptr % pageSize ≠ 0)
    (hpage : alignDown ptr pageSize = g) (hg : g ∈ s.slabs) (ho : (s.hdr g).owner = false)
    (hrest : slotPtrs rest g = []) (hlists : Lists L heads mem')
    (hmem : ∀ w x, x ∈ mem' w ↔ x ≠ g ∧ x ∈ mem w)
    (hfree : Pmm.free s.pmm g pageSize = .ok pmm) :
    Inv { s with
      hdr := update s.hdr g h
      links := L
      heads := heads
      pmm := pmm
      slabPageBytes := bytes
      slabs := s.slabs.erase g } rest mem' none := by
  obtain ⟨managed, others, hr⟩ := hi.pmm
  have hmem_slabs : ∀ {x}, x ∈ s.slabs.erase g ↔ x ≠ g ∧ x ∈ s.slabs := fun {x} =>
    hi.slabs_nodup.mem_erase_iff
  have hold : ∀ {x}, x ≠ g → update s.hdr g h x = s.hdr x := fun hx =>
    update_of_ne hx _ _
  refine ⟨?_, hlists, ?_, ?_, ?_, ?_, ?_, ?_, managed, others, ?_⟩
  · intro x hx
    obtain ⟨hxg, hx⟩ := hmem_slabs.mp hx
    simp only [hold hxg]
    exact (hi.slab hx).congr (slotPtrs_old x (hpage ▸ hxg))
  · intro w x
    rw [hmem, hi.mem_iff, hmem_slabs, and_assoc]
    exact and_congr_right fun hxg => by simp only [hold hxg]
  · intro x hx hxo
    obtain ⟨hxg, hx⟩ := hmem_slabs.mp hx
    simp only [hold hxg] at hxo ⊢
    exact hi.used_pos hx hxo
  · intro x hx hxo
    obtain ⟨hxg, hx⟩ := hmem_slabs.mp hx
    simp only [hold hxg] at hxo ⊢
    exact hi.owned_lt hx hxo
  · intro i x
    rw [hi.owned_iff, hmem_slabs]
    by_cases hxg : x = g
    · subst hxg
      exact ⟨fun hx => absurd hx.2.1 (by rw [ho]; nofun), fun hx => absurd rfl hx.1.1⟩
    · simp only [hold hxg, hxg, ne_eq, not_false_eq_true, true_and]
  · intro p hp hpz
    refine hmem_slabs.mpr ⟨fun he => ?_, hi.live_slot (mem_cons_of_mem _ hp) hpz⟩
    have hin : p ∈ slotPtrs rest g := mem_filter.mpr ⟨hp, by simpa using ⟨hpz, he⟩⟩
    rw [hrest] at hin
    exact absurd hin not_mem_nil
  · intro p hp hpz
    exact hi.live_large (mem_cons_of_mem _ hp) hpz
  · have hb : (⟨g, 0⟩ : Block) ∈ held s (ptr :: rest) ++ others :=
      mem_append_left _ (mem_append_left _ (mem_map.mpr ⟨g, hg, rfl⟩))
    have hr' := (Pmm.OpStep.free hb Pmm.pageSize_pos.ne' Pmm.sizeToOrder_pageSize hfree).runInv hr
    have hperm : (held s (ptr :: rest) ++ others).Perm (⟨g, 0⟩ ::
        ((s.slabs.erase g).map (⟨·, 0⟩) ++ (largePtrs rest).map (largeBlock s.large) ++
          others)) := by
      rw [held, largePtrs_cons_of_slot hne]
      exact (((perm_cons_erase hg).map _).append_right _).append_right _
    refine hr'.perm ((hperm.erase _).trans ?_)
    rw [erase_cons_head]
    exact .refl _

/-- `kfree` empties a slab of one slot that is first in `full_slabs`. -/
def FreesFullHead (s : State) (ptr : ℕ) : Prop :=
  ptr % pageSize ≠ 0 ∧ (s.hdr (alignDown ptr pageSize)).totalSlots = 1 ∧
    s.heads ((s.hdr (alignDown ptr pageSize)).cacheIndex, .fullSlabs) =
      some (alignDown ptr pageSize)

variable (hi : Inv s (ptr :: rest) mem none)

include hi

variable (hne : ptr % pageSize ≠ 0)

include hne

variable (hg : alignDown ptr pageSize = g)

include hg

/-- What `kfree` of a slot does: nothing more, give the slab back, or move it to the partial
list. -/
theorem Inv.kfreeSlot_eq (hidx : (s.hdr g).cacheIndex = i) :
    kfreeSlot s ptr =
      (if (s.hdr g).usedSlots = 1 then
        if (s.hdr g).owner then
          .ok { s with hdr := update s.hdr g ((s.hdr g).give ptr) }
        else do
          let pmm ← Pmm.free s.pmm g pageSize
          .ok { s with
            hdr := update s.hdr g { (s.hdr g).give ptr with magic := 0 }
            links := s.links.remove g
            heads := update s.heads (i, .partialSlabs)
              (if s.heads (i, .partialSlabs) = some g then s.links.next g
                else s.heads (i, .partialSlabs))
            slabPageBytes := s.slabPageBytes - pageSize
            pmm := pmm
            slabs := s.slabs.erase g }
      else if (s.hdr g).usedSlots = (s.hdr g).totalSlots then
        .ok (listPush (listRemove
          { s with hdr := update s.hdr g ((s.hdr g).give ptr) }
          (i, .fullSlabs) g) (i, .partialSlabs) g)
      else .ok { s with hdr := update s.hdr g ((s.hdr g).give ptr) }) := by
  subst hidx
  obtain ⟨hmem, hpos, -⟩ := hi.give hne
  rw [hg] at hmem hpos
  have hok := hi.slab hmem
  have hbad : ¬((s.hdr g).magic ≠ slabMagic ∨
      cacheCount ≤ (s.hdr g).cacheIndex) :=
    not_or.mpr ⟨not_not.mpr hok.magic, not_le.mpr hok.cacheIndex_lt⟩
  have hone : (s.hdr g).usedSlots - 1 = 0 ↔
      (s.hdr g).usedSlots = 1 := by omega
  unfold kfreeSlot
  simp only [hg, if_neg hbad, if_neg hpos.ne', update_self, hone, SlabHeader.give,
    listRemove_eq, update_idem]

/-- A slot of a slab comes back and the slab stays where it is listed. -/
theorem Inv.giveStay (hplace : place ((s.hdr g).give ptr) = place (s.hdr g))
    (hpos : (s.hdr g).owner = false → 1 < (s.hdr g).usedSlots) :
    Inv { s with hdr := update s.hdr g ((s.hdr g).give ptr) } rest mem none := by
  subst hg
  obtain ⟨hg, -, hok⟩ := hi.give hne
  refine hi.updateSlab (.inl rfl) hg hok slotPtrs_old (largePtrs_old hne)
    (fun p hp => .inl (mem_cons_of_mem _ hp)) hi.lists (fun _ _ _ => Iff.rfl) ?_ ?_ ?_
    (fun _ _ _ => Iff.rfl) ?_
  · intro w
    rw [hplace, hi.mem_iff]
    exact and_iff_right hg
  · intro ho
    have := hpos ho
    simp only [SlabHeader.give]
    omega
  · intro ho
    have := hi.owned_lt hg ho
    simp only [SlabHeader.give]
    omega
  · intro j
    rw [hi.owned_iff]
    exact and_iff_right hg

/-- A slot of a full slab comes back: the slab moves to the partial list. -/
theorem Inv.giveMove (hidx : (s.hdr g).cacheIndex = i)
    (hfull : (s.hdr g).usedSlots = (s.hdr g).totalSlots) (hone : (s.hdr g).usedSlots ≠ 1) :
    ∃ mem', Inv (listPush (listRemove
      { s with hdr := update s.hdr g ((s.hdr g).give ptr) }
      (i, .fullSlabs) g) (i, .partialSlabs) g) rest mem' none := by
  subst hg
  obtain ⟨hg, hpos, hok⟩ := hi.give hne
  have ho : (s.hdr (alignDown ptr pageSize)).owner = false := by
    by_contra ho
    exact (hi.owned_lt hg (by simpa using ho)).ne hfull
  refine hi.moveSlab (.inl rfl) (hi.mem_of_place hg (place_full ho hidx hfull)) hok slotPtrs_old
    (largePtrs_old hne) (fun p hp => .inl (mem_cons_of_mem _ hp)) ho
    (place_of_ne ho hidx ?_) ?_
  all_goals
    simp only [SlabHeader.give]
    omega

/-- A slab that holds one pointer and is not the CPU's goes back to the physical allocator. -/
theorem Inv.giveDrop {pmm : Pmm.State}
    (hidx : (s.hdr g).cacheIndex = i) (hone : (s.hdr g).usedSlots = 1)
    (ho : (s.hdr g).owner = false) (hsafe : ¬FreesFullHead s ptr)
    (hfree : Pmm.free s.pmm g pageSize = .ok pmm) (bytes : ℕ) :
    ∃ mem', Inv { s with
      hdr := update s.hdr g { (s.hdr g).give ptr with magic := 0 }
      links := s.links.remove g
      heads := update s.heads (i, .partialSlabs)
        (if s.heads (i, .partialSlabs) = some g then s.links.next g
          else s.heads (i, .partialSlabs))
      slabPageBytes := bytes
      pmm := pmm
      slabs := s.slabs.erase g } rest mem' none := by
  subst hg
  obtain ⟨hg, -, hok⟩ := hi.give hne
  have hrest : slotPtrs rest (alignDown ptr pageSize) = [] := by
    refine eq_nil_of_length_eq_zero ?_
    rw [← hok.used, SlabHeader.give, hone]
  by_cases hfull : (s.hdr (alignDown ptr pageSize)).usedSlots =
      (s.hdr (alignDown ptr pageSize)).totalSlots
  · -- the slab is in the full list, and not first there: its neighbours close the gap
    have hmem := hi.mem_of_place hg (place_full ho hidx hfull)
    have hhead : s.heads (i, .fullSlabs) ≠ some (alignDown ptr pageSize) := fun he =>
      hsafe ⟨hne, hfull.symm.trans hone, hidx.symm ▸ he⟩
    have hpart : s.heads (i, .partialSlabs) ≠ some (alignDown ptr pageSize) := fun he =>
      nomatch (hi.lists.disjoint (hi.lists.head_mem he) hmem)
    rw [if_neg hpart, update_eq_self]
    exact ⟨_, hi.dropSlab bytes hne rfl hg ho hrest (hi.lists.remove_of_not_head hmem hhead)
      (fun w x => hi.lists.mem_remove_iff hmem) hfree⟩
  · have hmem := hi.mem_of_place hg (place_of_ne ho hidx hfull)
    exact ⟨_, hi.dropSlab bytes hne rfl hg ho hrest (hi.lists.remove hmem)
      (fun w x => hi.lists.mem_remove_iff hmem) hfree⟩

omit hg

/-- `kfree` of a live slot keeps the invariant unless it empties the first full slab. -/
theorem Inv.kfreeSlot (hsafe : ¬FreesFullHead s ptr) (h : kfreeSlot s ptr = .ok s') :
    ∃ mem', Inv s' rest mem' none := by
  rw [hi.kfreeSlot_eq hne rfl rfl] at h
  generalize hg : alignDown ptr pageSize = g at h
  have hgs := (hi.give hne).1
  rw [hg] at hgs
  have hle := hi.used_le hgs
  by_cases hone : (s.hdr g).usedSlots = 1
  · rw [if_pos hone] at h
    cases ho : (s.hdr g).owner with
    | true =>
      rw [if_pos ho] at h
      cases h
      refine ⟨mem, hi.giveStay hne hg ?_ ?_⟩
      · rw [place, place, if_pos ho, if_pos (by exact ho)]
      · simp [ho]
    | false =>
      rw [if_neg (by simp [ho])] at h
      obtain ⟨pmm, hfree, h⟩ := ok_bind h
      cases h
      exact hi.giveDrop hne hg rfl hone ho hsafe hfree _
  · rw [if_neg hone] at h
    by_cases hfull : (s.hdr g).usedSlots = (s.hdr g).totalSlots
    · rw [if_pos hfull] at h
      cases h
      exact hi.giveMove hne hg rfl hfull hone
    rw [if_neg hfull] at h
    cases h
    have hpos := (hi.give hne).2.1
    rw [hg] at hpos
    refine ⟨mem, hi.giveStay hne hg ?_ fun _ => by omega⟩
    have hne' : ((s.hdr g).give ptr).usedSlots ≠ ((s.hdr g).give ptr).totalSlots := by
      simp only [SlabHeader.give]
      omega
    rw [place, place, if_neg hfull, if_neg hne']
    rfl

omit hne

/-- `kfree` of a large allocation gives its block back. -/
theorem Inv.kfreeLarge (hz : ptr % pageSize = 0)
    (h : kfreeLarge s ptr = .ok s') : Inv s' rest mem none := by
  obtain ⟨hmagic, hsize⟩ := hi.live_large mem_cons_self hz
  unfold Heap.kfreeLarge at h
  simp only [if_neg (not_not.mpr hmagic)] at h
  obtain ⟨pmm, hfree, h⟩ := ok_bind h
  cases h
  obtain ⟨managed, others, hr⟩ := hi.pmm
  have hperm : (held s (ptr :: rest) ++ others).Perm
      (largeBlock s.large ptr :: (held s rest ++ others)) := by
    rw [held, held, largePtrs_cons_of_large hz, map_cons]
    exact perm_middle.append_right _
  have hne := largePtrs_ne (hr.perm hperm)
  simp only [largeBlock] at hne
  refine ⟨fun hg => (hi.slab hg).congr ?_, hi.lists, hi.mem_iff, hi.used_pos, hi.owned_lt,
    hi.owned_iff, fun hp => hi.live_slot (mem_cons_of_mem _ hp), ?_, managed, others, ?_⟩
  · simp only [slotPtrs_cons_of_large hz]
    exact .refl _
  · intro p hp hpz
    simp only [update_of_ne (hne p (mem_largePtrs.mpr ⟨hp, hpz⟩))]
    exact hi.live_large (mem_cons_of_mem _ hp) hpz
  have hb := hperm.mem_iff.mpr (mem_cons_self (a := largeBlock s.large ptr))
  have hr' := (Pmm.OpStep.free hb hsize rfl hfree).runInv hr
  refine hr'.perm ((hperm.erase _).trans ?_)
  simp [held, map_largeBlock_update hne]

omit hi

/-- **`kfree`** of a live pointer keeps the invariant unless it empties the first full slab. -/
theorem Inv.kfree (hi : Inv s live mem none) (hp : ptr ∈ live)
    (hsafe : ¬FreesFullHead s ptr) (h : kfree s (some ptr) = .ok s') :
    ∃ mem', Inv s' (live.erase ptr) mem' none := by
  have hi' := hi.perm (perm_cons_erase hp)
  unfold Heap.kfree at h
  by_cases hz : ptr % pageSize = 0
  · simp only [if_pos hz] at h
    exact ⟨mem, hi'.kfreeLarge hz h⟩
  · simp only [if_neg hz] at h
    exact hi'.kfreeSlot hz hsafe h

end Free

/-! ### Runs -/

/-- A call of the allocator. -/
inductive Op where
  | kmalloc (size : ℕ) (cpu : Bool)
  | kfree (ptr : ℕ)

/-- A call that returns, on the allocator and the list of live pointers. Only live pointers are
freed. -/
inductive HeapStep : Op → State × List ℕ → State × List ℕ → Prop
  | kmalloc {s s' : State} {live : List ℕ} {size : ℕ} {cpu : Bool} {r : Option ℕ}
      (h : kmalloc s size cpu = .ok (r, s')) :
      HeapStep (.kmalloc size cpu) (s, live) (s', r.elim live (· :: live))
  | kfree {s s' : State} {live : List ℕ} {ptr : ℕ} (hp : ptr ∈ live)
      (h : kfree s (some ptr) = .ok s') : HeapStep (.kfree ptr) (s, live) (s', live.erase ptr)

/-- The call empties a slab of one slot that is first in `full_slabs`. -/
def Op.EmptiesFullHead (op : Op) (s : State) : Prop :=
  match op with
  | .kmalloc _ _ => False
  | .kfree ptr => FreesFullHead s ptr

/-- The caches before the first call; pages hold anything. -/
structure Boot (s : State) : Prop where
  heads : ∀ w, s.heads w = none
  heapCache : ∀ i, s.heapCache i = none
  slabs : s.slabs = []

/-- Empty caches over zeroed pages. -/
def State.zeroed (pmm : Pmm.State) : State where
  pmm := pmm
  heads _ := none
  links := ⟨fun _ => none, fun _ => none⟩
  hdr _ := ⟨0, 0, 0, 0, 0, [], false⟩
  large _ := ⟨0, 0, 0⟩
  heapCache _ := none
  slabPageBytes := 0
  largeAllocBytes := 0
  largeAllocCount := 0
  slabs := []

theorem boot_zeroed (pmm : Pmm.State) : Boot (State.zeroed pmm) :=
  ⟨fun _ => rfl, fun _ => rfl, rfl⟩

/-- The two lists of a cache are well formed, and hold the slabs that belong there. -/
structure CacheRep (s : State) (i : ℕ) (partialSlabs fullSlabs : List ℕ) : Prop where
  partial_linked : Linked s.links none (s.heads (i, .partialSlabs)) partialSlabs
  full_linked : Linked s.links none (s.heads (i, .fullSlabs)) fullSlabs
  partial_nodup : partialSlabs.Nodup
  full_nodup : fullSlabs.Nodup
  partial_mem : ∀ g, g ∈ partialSlabs ↔ g ∈ s.slabs ∧ (s.hdr g).cacheIndex = i ∧
    (s.hdr g).owner = false ∧ 0 < (s.hdr g).usedSlots ∧ (s.hdr g).usedSlots < (s.hdr g).totalSlots
  full_mem : ∀ g, g ∈ fullSlabs ↔ g ∈ s.slabs ∧ (s.hdr g).cacheIndex = i ∧
    (s.hdr g).owner = false ∧ (s.hdr g).usedSlots = (s.hdr g).totalSlots

/-- The representation: every cache has its lists, no slab is free memory, and the slots of a slab
are in use or in its free list. -/
structure SlabRep (s : State) : Prop where
  caches : ∀ i < cacheCount, ∃ partialSlabs fullSlabs, CacheRep s i partialSlabs fullSlabs
  not_free : ∀ g ∈ s.slabs, ∀ b ∈ Pmm.freeBlocks s.pmm, ¬b.HasPage (Pmm.pfn g)
  slots : ∀ g ∈ s.slabs,
    (s.hdr g).usedSlots + (s.hdr g).freeList.length = (s.hdr g).totalSlots

section Run

variable {s s' : State} {live : List ℕ} {mem : ℕ × SlabList → List ℕ}

theorem Boot.inv {managed : ℕ → ℕ} {others : List Block} (hb : Boot s)
    (hr : Pmm.RunInv managed (s.pmm, others)) : Inv s [] (fun _ => []) none where
  slab hg := absurd (hb.slabs ▸ hg) not_mem_nil
  lists := ⟨fun w => hb.heads w, fun _ => nodup_nil, nofun⟩
  mem_iff := by
    intro w g
    rw [hb.slabs]
    exact ⟨nofun, fun h => absurd h.1 not_mem_nil⟩
  used_pos hg := absurd (hb.slabs ▸ hg) not_mem_nil
  owned_lt hg := absurd (hb.slabs ▸ hg) not_mem_nil
  owned_iff := by
    intro i g
    rw [hb.heapCache, hb.slabs]
    exact ⟨nofun, fun h => absurd h.1 not_mem_nil⟩
  live_slot hp := absurd hp not_mem_nil
  live_large hp := absurd hp not_mem_nil
  pmm := by
    refine ⟨managed, others, ?_⟩
    rw [held, hb.slabs]
    exact hr

theorem full_of_place {h : SlabHeader} {i : ℕ} (hp : place h = some (i, .fullSlabs)) :
    h.owner = false ∧ h.cacheIndex = i ∧ h.usedSlots = h.totalSlots := by
  unfold place at hp
  split at hp
  · cases hp
  rename_i ho
  split_ifs at hp with hfull
  · cases hp
    exact ⟨by simpa using ho, rfl, hfull⟩
  · cases hp

theorem Inv.slabRep (hi : Inv s live mem none) : SlabRep s where
  caches i _ := by
    refine ⟨mem (i, .partialSlabs), mem (i, .fullSlabs), hi.lists.linked _, hi.lists.linked _,
      hi.lists.nodup _, hi.lists.nodup _, fun g => ?_, fun g => ?_⟩
    · rw [hi.mem_iff]
      refine and_congr_right fun hg => ⟨fun hp => ?_, fun ⟨hidx, ho, _, hlt⟩ => ?_⟩
      · obtain ⟨ho, hidx, hne⟩ := partial_of_place hp
        exact ⟨hidx, ho, (hi.used_pos hg ho).resolve_right nofun,
          lt_of_le_of_ne (hi.used_le hg) hne⟩
      · exact place_of_ne ho hidx hlt.ne
    · rw [hi.mem_iff]
      refine and_congr_right fun _ => ⟨fun hp => ?_, fun ⟨hidx, ho, hfull⟩ => ?_⟩
      · obtain ⟨ho, hidx, hfull⟩ := full_of_place hp
        exact ⟨hidx, ho, hfull⟩
      · exact place_full ho hidx hfull
  not_free g hg b hb hpage := by
    obtain ⟨managed, others, hr⟩ := hi.pmm
    have hheld : (⟨g, 0⟩ : Block) ∈ held s live ++ others :=
      mem_append_left _ (mem_append_left _ (mem_map.mpr ⟨g, hg, rfl⟩))
    exact hr.not_free hheld (DyadicBlock.covers_start _ _) hb hpage
  slots g hg := (hi.slab hg).used_add_free

/-- **Step lemma**: a call that does not empty the first full slab keeps the invariant. -/
theorem HeapStep.inv {op : Op} {st st' : State × List ℕ} (h : HeapStep op st st')
    (hsafe : ¬op.EmptiesFullHead st.1) (hi : ∃ mem, Inv st.1 st.2 mem none) :
    ∃ mem, Inv st'.1 st'.2 mem none := by
  obtain ⟨mem, hi⟩ := hi
  cases h with
  | kmalloc h => exact hi.kmalloc h
  | kfree hp h => exact hi.kfree hp hsafe h

/-- A call that does empty it leaves the head of `full_slabs` at a page that is no slab. -/
theorem Inv.not_slabRep {ptr : ℕ} (hi : Inv s live mem none) (hp : ptr ∈ live)
    (hf : FreesFullHead s ptr) (h : Heap.kfree s (some ptr) = .ok s') : ¬SlabRep s' := by
  obtain ⟨hne, htotal, hhead⟩ := hf
  have hi' := hi.perm (perm_cons_erase hp)
  unfold Heap.kfree at h
  simp only [if_neg hne] at h
  rw [hi'.kfreeSlot_eq hne rfl rfl] at h
  generalize alignDown ptr pageSize = g at *
  obtain ⟨hg, hplace⟩ := hi.mem_iff.mp (hi.lists.head_mem hhead)
  obtain ⟨ho, -, hfull⟩ := full_of_place hplace
  rw [if_pos (hfull.trans htotal), if_neg (by simp [ho])] at h
  obtain ⟨pmm, -, h⟩ := ok_bind h
  cases h
  intro hrep
  obtain ⟨_, fullSlabs, hc⟩ := hrep.caches _ (hi.slab hg).cacheIndex_lt
  have hfirst := hc.full_linked.head_eq
  simp only [update_of_ne (show ((s.hdr g).cacheIndex, SlabList.fullSlabs) ≠
    ((s.hdr g).cacheIndex, SlabList.partialSlabs) from nofun), hhead] at hfirst
  have hmem := ((hc.full_mem g).mp (mem_of_head? hfirst.symm)).1
  exact absurd hmem (hi.slabs_nodup.not_mem_erase)

/-- **Slab representation.** Let every call of a run leave the first full slab of a one-slot class
alone. Then the representation holds in every state reached, and the next call keeps it exactly
if it leaves that slab alone as well. -/
theorem slabRep_of_run {m t : ℕ} {d : Bool} {spans : List (ℕ × ℕ)} {s₀ : Pmm.State}
    {others : List Block} (hm : m ≤ Pmm.maxOrderLimit)
    (hend : ∀ span ∈ spans, span.2 ≤ Pmm.uint64Max)
    (hdisj : spans.Pairwise fun a b => ∀ p, Pmm.PageIn a.1 a.2 p → ¬Pmm.PageIn b.1 b.2 p)
    (hbuild : Pmm.addSpans (Pmm.State.empty m t d) spans = .ok s₀)
    (hpmm : ReflTransGen Pmm.OpStep (s₀, []) (s.pmm, others)) (hboot : Boot s)
    (hrun : ReflTransGen
      (fun a b => ∃ op, HeapStep op a b ∧ ¬op.EmptiesFullHead a.1) (s, []) (s', live)) :
    SlabRep s' ∧ ∀ op st, HeapStep op (s', live) st → (SlabRep st.1 ↔ ¬op.EmptiesFullHead s') := by
  have hr : Pmm.RunInv (Pmm.managedTally d spans) (s.pmm, others) :=
    run_invariant hpmm (Pmm.addSpans_runInv hm hend hdisj hbuild) fun hr hstep => hstep.runInv hr
  have hi : ∃ mem, Inv s' live mem none :=
    run_invariant (I := fun st => ∃ mem, Inv st.1 st.2 mem none) hrun ⟨_, hboot.inv hr⟩
      fun hi ⟨_, hstep, hsafe⟩ => hstep.inv hsafe hi
  refine ⟨hi.elim fun _ hi => hi.slabRep,
    fun op st hstep => ⟨fun hrep hempty => ?_, fun hsafe => ?_⟩⟩
  · obtain ⟨mem, hi⟩ := hi
    cases hstep with
    | kmalloc h => exact hempty
    | kfree hp h => exact hi.not_slabRep hp hempty h hrep
  · obtain ⟨mem', hi'⟩ := hstep.inv hsafe hi
    exact hi'.slabRep

end Run

/-- Two slabs of the largest class; the one that is not first in `full_slabs` is emptied. -/
theorem slabRep_of_run_second : ∃ s₀ s' live,
    Pmm.addSpans (Pmm.State.empty 2 32 false) [(4096, 65536)] = .ok s₀ ∧
    ReflTransGen (fun a b => ∃ op, HeapStep op a b ∧ ¬op.EmptiesFullHead a.1)
      (State.zeroed s₀, []) (s', live) ∧ live = [57408] ∧ SlabRep s' := by
  have heval : (do
      let s₀ ← Pmm.addSpans (Pmm.State.empty 2 32 false) [(4096, 65536)]
      let x ← kmalloc (State.zeroed s₀) 2048 false
      let y ← kmalloc x.2 2048 true
      let _ ← kfree y.2 (some 4160)
      pure (x.1, y.1, y.2.heads ((y.2.hdr 4096).cacheIndex, .fullSlabs)) :
        Except String (Option ℕ × Option ℕ × Option ℕ)).toOption =
      some (some 4160, some 57408, some 57344) := by
    decide +kernel
  obtain ⟨s₀, h0, h⟩ := ok_bind (ok_of_toOption heval)
  obtain ⟨⟨p, s₁⟩, h1, h⟩ := ok_bind h
  obtain ⟨⟨q, s₂⟩, h2, h⟩ := ok_bind h
  obtain ⟨s₃, h3, h⟩ := ok_bind h
  obtain ⟨rfl, hvals⟩ := mk.inj (ok.inj h)
  obtain ⟨rfl, hhead⟩ := mk.inj hvals
  have hsafe : ¬(Op.kfree 4160).EmptiesFullHead s₂ := by
    rintro ⟨-, -, hf⟩
    exact absurd (hhead.symm.trans hf) (by decide)
  have hrun : ReflTransGen (fun a b => ∃ op, HeapStep op a b ∧ ¬op.EmptiesFullHead a.1)
      (State.zeroed s₀, []) (s₃, [57408]) :=
    .tail (.tail (.single ⟨_, .kmalloc h1, id⟩) ⟨_, .kmalloc h2, id⟩)
      ⟨_, .kfree (mem_cons_of_mem _ mem_cons_self) h3, hsafe⟩
  exact ⟨s₀, s₃, _, h0, hrun, rfl, (slabRep_of_run (by decide) (by simp [Pmm.uint64Max])
    (pairwise_singleton _ _) h0 .refl (boot_zeroed s₀) hrun).1⟩

/-- One `kmalloc(2048)` and its `kfree`: the head of `full_slabs` dangles. -/
theorem full_head_dangles :
    ¬∀ (m t : ℕ) (d : Bool) (spans : List (ℕ × ℕ)) (s₀ : Pmm.State) (others : List Block)
      (s s' : State) (live : List ℕ), m ≤ Pmm.maxOrderLimit →
      (∀ span ∈ spans, span.2 ≤ Pmm.uint64Max) →
      (spans.Pairwise fun a b => ∀ p, Pmm.PageIn a.1 a.2 p → ¬Pmm.PageIn b.1 b.2 p) →
      Pmm.addSpans (Pmm.State.empty m t d) spans = .ok s₀ →
      ReflTransGen Pmm.OpStep (s₀, []) (s.pmm, others) → Boot s →
      ReflTransGen (fun a b => ∃ op, HeapStep op a b) (s, []) (s', live) →
      SlabRep s' := by
  intro hall
  have heval : (do
      let s₀ ← Pmm.addSpans (Pmm.State.empty 2 32 false) [(4096, 65536)]
      let x ← kmalloc (State.zeroed s₀) 2048 false
      let s ← kfree x.2 (some 4160)
      pure (x.1, s.heads (7, .fullSlabs), s.slabs) :
        Except String (Option ℕ × Option ℕ × List ℕ)).toOption =
      some (some 4160, some 4096, []) := by
    decide +kernel
  obtain ⟨s₀, h0, h⟩ := ok_bind (ok_of_toOption heval)
  obtain ⟨⟨p, s₁⟩, h1, h⟩ := ok_bind h
  obtain ⟨s₂, h2, h⟩ := ok_bind h
  obtain ⟨rfl, hvals⟩ := mk.inj (ok.inj h)
  obtain ⟨hhead, hslabs⟩ := mk.inj hvals
  have hrep := hall 2 32 false [(4096, 65536)] s₀ [] (State.zeroed s₀) s₂ _ (by decide)
    (by simp [Pmm.uint64Max]) (pairwise_singleton _ _) h0 .refl (boot_zeroed s₀)
    (.tail (.single ⟨_, .kmalloc h1⟩) ⟨_, .kfree mem_cons_self h2⟩)
  obtain ⟨_, fullSlabs, hc⟩ := hrep.caches 7 (by decide)
  have hfirst := hc.full_linked.head_eq
  rw [hhead] at hfirst
  have hmem := ((hc.full_mem 4096).mp (mem_of_head? hfirst.symm)).1
  rw [hslabs] at hmem
  exact absurd hmem not_mem_nil

end RHKernel.Heap
