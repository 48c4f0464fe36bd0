import RHKernel.Memory.Pmm.Canonical

/-!
# What the allocator finds

A block that `alloc` or `alloc_constrained` hands out was free, is naturally aligned, has the
smallest order that holds the request, and lies inside the bounds. Conversely, a request of an
admitted order, with an alignment that is a power of two, is served whenever a free block of its
shape exists: in canonical lists such a block lies inside one free block, both searches visit
every order that has blocks, and nothing after the search can fail when the counts of the free
pages have their slots.

A free block at address `0` would be taken for a failed search, so page `0` must not be free.
-/

namespace RHKernel.Pmm

open DyadicBlock Step Bits

variable {s s' t : State} {size order a q fuel blockEnd phys allocated : ℕ} {c : AllocConstraints}

variable {i block k : ℕ}

def AllFree (s : State) (a order : ℕ) : Prop := ∀ p, Covers (pfn a) order p → p ∈ freePages s

/-- Every page of a free block has a slot for its count, so that no metadata page is needed. -/
def Slotted (s : State) : Prop :=
  ∀ b ∈ freeBlocks s, ∀ j < 2 ^ b.order, refSlot s (b.addr + j * pageSize) ≠ none

instance (s : State) : Decidable (Slotted s) :=
  inferInstanceAs (Decidable (∀ b ∈ freeBlocks s, ∀ j < 2 ^ b.order,
    refSlot s (b.addr + j * pageSize) ≠ none))

instance (s : State) : Decidable (Canonical s) :=
  inferInstanceAs (Decidable (∀ k < s.activeMaxOrder, ∀ a ∈ s.freeLists k,
    buddyOf a k ∉ s.freeLists k))

theorem Slotted.refSlot (hs : Slotted s) (hq : pfn q ∈ freePages s) : refSlot s q ≠ none := by
  have hpos : 0 < freeTally s (pfn q) := hq
  rw [← blocksTally_freeBlocks, blocksTally_pos_iff] at hpos
  obtain ⟨b, hb, hle, hlt⟩ := hpos
  rw [refSlot_congr (b := b.addr + (pfn q - pfn b.addr) * pageSize)]
  · exact hs b hb _ (by omega)
  · have hadd := Nat.add_mul_div_right b.addr (pfn q - pfn b.addr) pageSize_pos
    unfold pfn at *
    omega

theorem allFree_of_mem (hw : Wf s) (hb : block ∈ s.freeLists i) (hle : block ≤ a)
    (hfits : a + blockSize order ≤ block + blockSize i) : AllFree s a order := by
  intro p hp
  have h1 := Nat.div_le_div_right (c := pageSize) hle
  have h2 := Nat.div_le_div_right (c := pageSize) hfits
  rw [← pfn, ← pfn, pfn_add_blockSize, pfn_add_blockSize] at h2
  exact (freeTally_pos_iff hw).mpr ⟨i, block, hb, h1.trans hp.1, hp.2.trans_le h2⟩

theorem Taken.allFree (h : Taken s s' block order) (hne : block ≠ 0) : AllFree s block order := by
  intro p hp
  obtain ⟨lost, -, hcov⟩ := h.cover
  have := hcov p
  rw [if_neg hne, tally_eq_one hp] at this
  show 0 < freeTally s p
  omega

/-- **Containment**: in canonical lists a free block of an admitted order lies inside one block
of the lists. -/
theorem Canonical.exists_block (hc : Canonical s) (hw : Wf s) (hle : ∀ p, freeTally s p ≤ 1)
    (ho : order ≤ s.activeMaxOrder) (ha : blockSize order ∣ a) (hfree : AllFree s a order) :
    ∃ i block, order ≤ i ∧ block ∈ s.freeLists i ∧ block ≤ a ∧
      a + blockSize order ≤ block + blockSize i := by
  obtain ⟨i, x, hi, hx, hcov⟩ := (freeFamily_family hw hle).exists_covers_of_subset
    (hc.freeFamily hw) ho (two_pow_dvd_pfn ha) fun p hp => by
      rw [support_freeFamily hw]
      exact hfree p hp
  have hpfn := pfn_mul_pageSize (pageSize_dvd_of_blockSize_dvd ha)
  have hlt : a < x * pageSize + blockSize i := by
    rw [← hpfn, blockSize, ← add_mul]
    exact Nat.mul_lt_mul_of_pos_right hcov.2 pageSize_pos
  have hdvd := blockSize_dvd_blockSize hi
  exact ⟨i, x * pageSize, hi, hx, hpfn ▸ Nat.mul_le_mul_right _ hcov.1,
    add_le_of_dvd_of_lt ha (Nat.dvd_add (Dvd.dvd.trans hdvd (hw.aligned hx)) hdvd) hlt⟩

/-- The order of a size is the smallest one whose blocks hold it. -/
theorem isLeast_sizeToOrder (h : sizeToOrder size ≤ maxOrderLimit) :
    IsLeast {k | size ≤ blockSize k} (sizeToOrder size) := by
  have hiff : ∀ k, size ≤ blockSize k ↔ sizeToOrder size ≤ k := by
    intro k
    have hshift : (size + pageSize - 1) >>> 12 = (size + pageSize - 1) / pageSize :=
      Nat.shiftRight_eq_div_pow _ 12
    have hpow := Nat.two_pow_pos k
    unfold sizeToOrder blockSize at *
    simp only [hshift] at h ⊢
    split_ifs at h ⊢ with h0 hbig hone
    · simp [h0]
    · omega
    · unfold pageSize at *
      constructor <;> intro _ <;> omega
    · rw [Nat.succ_le_iff, Nat.log2_lt (by omega)]
      unfold pageSize at *
      omega
  exact ⟨(hiff _).mpr le_rfl, fun k hk => (hiff k).mp hk⟩

/-! ### The searches succeed -/

theorem exists_splitDown (hb : blockSize i ∣ block) (hi : i ≤ s.activeMaxOrder) :
    ∃ s', splitDown block order i s = .ok s' := by
  induction i generalizing s with
  | zero => exact ⟨s, rfl⟩
  | succ i ih =>
    have hdvd := blockSize_dvd_blockSize (Nat.le_succ i)
    rw [splitDown]
    split
    · obtain ⟨t, ht⟩ := exists_pushBlock (s := s) (show i ≤ _ by omega)
        (Nat.dvd_add (Dvd.dvd.trans hdvd hb) dvd_rfl)
      rw [ht, bind_of_ok]
      refine ih (Dvd.dvd.trans hdvd hb) ?_
      rw [(pushBlock_ok ht).2.2.2.activeMaxOrder]
      omega
    · exact ⟨s, rfl⟩

/-- The search of `alloc` ends at a block if there is one. -/
theorem exists_takeBlockLoop (hw : Wf s) (h0 : freeTally s 0 = 0) (hik : i ≤ k)
    (ha : a ∈ s.freeLists k) (hfuel : k < i + fuel) :
    ∃ block t, takeBlockLoop order fuel i s = .ok (block, t) ∧ block ≠ 0 := by
  have hk := hw.order_le ha
  induction fuel generalizing i with
  | zero => omega
  | succ fuel ih =>
    rw [takeBlockLoop, if_neg (by omega), popBlock]
    cases hl : s.freeLists i with
    | nil =>
      have hlt : i < k := lt_of_le_of_ne hik fun heq => by simp [← heq, hl] at ha
      obtain ⟨h1, h2⟩ := firstNonemptyOrder_succ hw hlt ha
      simpa using ih h2 (by omega)
    | cons block rest =>
      have hmem : block ∈ s.freeLists i := by simp [hl]
      have hne := ne_zero_of_mem hw h0 hmem
      obtain ⟨t, ht⟩ : ∃ t, splitDown block order i (dropBlock s i rest) = .ok t :=
        exists_splitDown (hw.aligned hmem) (hw.order_le hmem)
      exact ⟨block, t, by simp [hne, ht, bind_of_ok], hne⟩

/-- The walk over one list finds a block if one can hold the request. -/
theorem exists_findHoldIn (size : ℕ) (c : AllocConstraints) {l : List ℕ}
    (hend : ∀ b ∈ l, b + blockSize k ≤ uint64Max) :
    ∃ r, findHoldIn k size c l = .ok r ∧
      (r = none → ∀ b ∈ l, rangeCanHold b (b + blockSize k) size c = none) := by
  induction l with
  | nil => exact ⟨none, rfl, by simp⟩
  | cons block rest ih =>
    obtain ⟨r, hr, hnone⟩ := ih fun b hb => hend b (List.mem_cons_of_mem _ hb)
    have hsum := hend block List.mem_cons_self
    rw [findHoldIn, addChecked, if_neg (by omega)]
    cases hhold : rangeCanHold block (block + blockSize k) size c with
    | none => exact ⟨r, by simp [hhold, hr], fun h => by simpa [hhold] using hnone h⟩
    | some candidate =>
      exact ⟨some (block, block + blockSize k, candidate), by simp only [hhold], fun h =>
        absurd h (Option.some_ne_none _)⟩

/-- The search of `alloc_constrained` finds a block if one can hold the request. -/
theorem exists_findHoldLoop (hw : Wf s)
    (hend : ∀ {k b}, b ∈ s.freeLists k → b + blockSize k ≤ uint64Max) (hik : i ≤ k)
    (ha : a ∈ s.freeLists k) (hhold : rangeCanHold a (a + blockSize k) size c ≠ none)
    (hfuel : k < i + fuel) : ∃ hit, findHoldLoop size c s fuel i = .ok (some hit) := by
  have hk := hw.order_le ha
  induction fuel generalizing i with
  | zero => omega
  | succ fuel ih =>
    obtain ⟨r, hr, hnone⟩ := exists_findHoldIn size c fun b => hend (k := i)
    rw [findHoldLoop, if_neg (by omega), hr, bind_of_ok]
    cases r with
    | some hit => exact ⟨_, rfl⟩
    | none =>
      have hlt : i < k := lt_of_le_of_ne hik fun heq => hhold (heq ▸ hnone rfl a (heq ▸ ha))
      obtain ⟨h1, h2⟩ := firstNonemptyOrder_succ hw hlt ha
      exact ih h2 (by omega)

/-- An aligned place for the request in a block and in the bounds is enough. -/
theorem rangeCanHold_ne_none (hp : isPowerOfTwo c.align = true) (hdvd : c.align ∣ a)
    (h0 : a ≠ 0) (hsize : 0 < size) (hend : blockEnd ≤ uint64Max)
    (hb : block ≤ a ∧ a + size ≤ blockEnd) (hc : c.minPhys ≤ a ∧ a + size ≤ c.maxPhysExclusive) :
    rangeCanHold block blockEnd size c ≠ none := by
  have hmin : (if block < c.minPhys then c.minPhys else block) ≤ a := by split <;> omega
  have hmax : a + size ≤ (if c.maxPhysExclusive < blockEnd then c.maxPhysExclusive
      else blockEnd) ∧ a < 2 ^ 64 := by
    unfold uint64Max at hend
    split <;> omega
  have hpos : 0 < c.align := by
    obtain ⟨j, hj⟩ := isPowerOfTwo_iff.mp hp
    exact hj ▸ Nat.two_pow_pos j
  unfold rangeCanHold
  generalize (if block < c.minPhys then c.minPhys else block) = minPhys at hmin
  generalize (if c.maxPhysExclusive < blockEnd then c.maxPhysExclusive else blockEnd) = maxPhys
    at hmax
  -- rounding up stays at or below `a`, which is a multiple of the alignment itself
  have hup := (alignUp_mono hmin c.align).trans_eq (alignUp_of_dvd hpos hdvd)
  have hlo := le_alignUp minPhys hpos
  have htop : a + c.align ≤ 2 ^ 64 := by
    refine add_le_of_dvd_of_lt hdvd (dvd_of_isPowerOfTwo hp (isPowerOfTwo_iff.mpr ⟨64, rfl⟩) ?_)
      hmax.2
    exact (Nat.le_of_dvd (Nat.pos_of_ne_zero h0) hdvd).trans hmax.2.le
  have hchecked : alignUpChecked minPhys c.align = some (alignUp minPhys c.align) := by
    unfold alignUpChecked
    rw [hp, if_neg (by simp), if_neg (by unfold uint64Max; omega)]
  rw [if_neg (by omega), hchecked]
  simp only [if_neg (show ¬(alignUp minPhys c.align < minPhys ∨ maxPhys < alignUp minPhys c.align ∨
    maxPhys - alignUp minPhys c.align < size) by omega)]
  exact Option.some_ne_none _

/-! ### Nothing fails after the search -/

/-- The counts of a free block can be started. -/
theorem Slotted.exists_init (hs : Slotted s) (hf : ListsOnly s t)
    (hfree : AllFree s a order) :
    ∃ s', initRefcountsLocked t a (blockSize order) = .ok (true, s') := by
  unfold initRefcountsLocked
  rw [blockSize, Nat.mul_div_cancel _ pageSize_pos]
  refine exists_initRefcountsLoop fun q h1 h2 => ?_
  rw [hf.refSlot]
  exact hs.refSlot (hfree _ ⟨h1, h2⟩)

theorem exists_carveCandidate (hw : Wf s) (hs : Slotted s)
    (hh : Holds s i block blockEnd a order) :
    ∃ s', carveCandidate s i block blockEnd a (blockSize order) = .ok s' := by
  have hfits := hh.fits
  have hend := hh.end_le
  rcases removeBlock_spec s block i with ⟨hnot, -⟩ | ⟨rest, hperm, hrem⟩
  · exact absurd hh.mem hnot
  obtain ⟨t, ht⟩ := exists_carveRange false (dropBlock s i rest) block (show a ≤ uint64Max by omega)
  obtain ⟨hwt, hft, -⟩ := carveRange_spec ht (dropBlock_wf hw hperm) (by omega)
  obtain ⟨u, hu⟩ := exists_carveRange false t (a + blockSize order) hend
  obtain ⟨-, hfu, -⟩ := carveRange_spec hu hwt hend
  obtain ⟨s', hs'⟩ := hs.exists_init ((dropBlock_listsOnly s i rest).trans (hft.trans hfu))
    (allFree_of_mem hw hh.mem hh.le (hh.end_eq ▸ hfits))
  refine ⟨s', ?_⟩
  unfold carveCandidate pushRangeLocked addChecked
  simp only [hrem, if_neg (show ¬uint64Max - blockSize order < a by omega), ht, hu, hs', bind_of_ok,
    Bool.not_true, Bool.false_eq_true, if_false, if_true]

/-! ### The result -/

/-- What the block handed out for a size looks like. -/
structure Served (s : State) (size phys : ℕ) : Prop where
  least : IsLeast {k | size ≤ blockSize k} (sizeToOrder size)
  aligned : blockSize (sizeToOrder size) ∣ phys
  free : AllFree s phys (sizeToOrder size)

theorem alloc_served (hw : Wf s) (h : alloc s size = .ok (phys, s')) (hne : phys ≠ 0) :
    Served s size phys := by
  obtain ⟨h0, -⟩ | ⟨t, -, htake, -⟩ := alloc_cases h
  · exact absurd h0 hne
  have ht := takeBlock_spec htake hw
  exact ⟨isLeast_sizeToOrder ((ht.order_le hne).trans hw.max_le), ht.aligned hne, ht.allFree hne⟩

theorem allocConstrained_served (hw : Wf s)
    (h : allocConstrained s size c = .ok ((phys, allocated), s')) (hne : phys ≠ 0) :
    Served s size phys ∧ allocated = blockSize (sizeToOrder size) ∧
      (c.align ≠ 0 → c.align ∣ phys) ∧ c.minPhys ≤ phys ∧
      phys + allocated ≤ c.maxPhysExclusive := by
  rcases allocConstrained_cases h hw with ⟨h0, -⟩ | ⟨-, ho, hal, i, block, blockEnd, hh, -, hin⟩
  · exact absurd h0 hne
  · exact ⟨⟨isLeast_sizeToOrder (ho.trans hw.max_le), hh.aligned,
      allFree_of_mem hw hh.mem hh.le (hh.end_eq ▸ hh.fits)⟩, hal, hal ▸ hin⟩

variable (hw : Wf s) (hle : ∀ p, freeTally s p ≤ 1) (hc : Canonical s) (h0 : freeTally s 0 = 0)
  (hs : Slotted s)

include hw hle hc h0 hs

theorem exists_alloc (hsize : size ≠ 0)
    (ho : sizeToOrder size ≤ s.activeMaxOrder) (ha : blockSize (sizeToOrder size) ∣ a)
    (hfree : AllFree s a (sizeToOrder size)) :
    ∃ phys s', alloc s size = .ok (phys, s') ∧ phys ≠ 0 := by
  obtain ⟨i, block, hi, hb, -⟩ := hc.exists_block hw hle ho ha hfree
  have hfirst := firstNonemptyOrder_le hw hi hb
  have hmax := hw.order_le hb
  obtain ⟨phys, t, htake, hne⟩ : ∃ phys t, takeBlock s (sizeToOrder size) = .ok (phys, t) ∧
      phys ≠ 0 := exists_takeBlockLoop hw h0 hfirst hb (by omega)
  have ht := takeBlock_spec htake hw
  obtain ⟨s', hs'⟩ := hs.exists_init ht.frame (ht.allFree hne)
  refine ⟨phys, s', ?_, hne⟩
  unfold alloc
  simp only [if_neg hsize, if_neg (not_lt.mpr ho), htake, bind_of_ok, if_neg hne, hs', if_true]

theorem exists_allocConstrained (hend : ∀ {k b}, b ∈ s.freeLists k → b + blockSize k ≤ uint64Max)
    (hsize : size ≠ 0)
    (ho : sizeToOrder size ≤ s.activeMaxOrder) (hp : c.align = 0 ∨ isPowerOfTwo c.align = true)
    (ha : max c.align (blockSize (sizeToOrder size)) ∣ a)
    (hin : c.minPhys ≤ a ∧ a + blockSize (sizeToOrder size) ≤ c.maxPhysExclusive)
    (hfree : AllFree s a (sizeToOrder size)) :
    ∃ phys allocated s', allocConstrained s size c = .ok ((phys, allocated), s') ∧ phys ≠ 0 := by
  have hpow : isPowerOfTwo (max c.align (blockSize (sizeToOrder size))) = true := by
    have hblock := isPowerOfTwo_blockSize (sizeToOrder size)
    rcases hp with hp | hp
    · rwa [hp, zero_max]
    · rcases max_choice c.align (blockSize (sizeToOrder size)) with h | h <;> rwa [h]
  have hba := Dvd.dvd.trans (dvd_of_isPowerOfTwo (isPowerOfTwo_blockSize _) hpow
    (le_max_right _ _)) ha
  obtain ⟨i, block, hi, hb, hba', hfits⟩ := hc.exists_block hw hle ho hba hfree
  have hne := ne_zero_of_mem hw h0 hb
  have hmax := hw.order_le hb
  have hpos := blockSize_pos (sizeToOrder size)
  have hhold : rangeCanHold block (block + blockSize i) (blockSize (sizeToOrder size))
      { c with align := searchAlign c.align (sizeToOrder size) } ≠ none := by
    rw [searchAlign_eq]
    exact rangeCanHold_ne_none hpow ha (by omega) hpos (hend hb) ⟨hba', hfits⟩ hin
  obtain ⟨⟨j, block', blockEnd, phys⟩, hfind⟩ := exists_findHoldLoop hw hend
    (firstNonemptyOrder_le hw hi hb) hb hhold (show i < _ + (s.activeMaxOrder + 2) by omega)
  obtain ⟨hh, -⟩ := findHoldLoop_holds hw hfind fun h => hp.resolve_left h
  obtain ⟨s', hs'⟩ := exists_carveCandidate hw hs hh
  refine ⟨phys, blockSize (sizeToOrder size), s', ?_, ?_⟩
  · have hbig : ¬uint64Max - (pageSize - 1) < size := by
      intro hbig
      have hlimit := ho.trans hw.max_le
      rw [sizeToOrder, if_neg hsize, if_pos hbig] at hlimit
      omega
    have halign : ¬(!isPowerOfTwo (if c.align ≠ 0 then c.align else pageSize)) = true := by
      rcases hp with hp | hp
      · simp [hp, isPowerOfTwo_pageSize]
      · split <;> simp [hp, isPowerOfTwo_pageSize]
    unfold allocConstrained
    rw [if_neg hsize, if_neg hbig, if_neg (by omega)]
    simp only [if_neg (not_lt.mpr ho), if_neg halign]
    rw [← searchAlign, hfind, bind_of_ok]
    simp only [hs', bind_of_ok]
  · have := ne_zero_of_mem hw h0 hh.mem
    have := hh.le
    omega

omit hw hle hc h0 hs

/-- **Soundness and completeness.** In every reachable state a block handed out was free, is
naturally aligned, has the least order that holds the request and lies inside the bounds; and
with canonical lists, page `0` not free and no metadata page needed, a request of an admitted
order whose alignment is a power of two is served if a free block of its shape exists. -/
theorem allocation_sound_complete {s : State} {live : List Block} (h : Reachable s live) :
    (∀ size phys s', alloc s size = .ok (phys, s') → phys ≠ 0 → Served s size phys) ∧
    (∀ size c phys allocated s', allocConstrained s size c = .ok ((phys, allocated), s') →
      phys ≠ 0 → Served s size phys ∧ allocated = blockSize (sizeToOrder size) ∧
        (c.align ≠ 0 → c.align ∣ phys) ∧ c.minPhys ≤ phys ∧
        phys + allocated ≤ c.maxPhysExclusive) ∧
    (Canonical s → 0 ∉ freePages s → Slotted s → ∀ size a, size ≠ 0 →
      sizeToOrder size ≤ s.activeMaxOrder → AllFree s a (sizeToOrder size) →
      (blockSize (sizeToOrder size) ∣ a → ∃ phys s', alloc s size = .ok (phys, s') ∧ phys ≠ 0) ∧
      ∀ c, c.align = 0 ∨ isPowerOfTwo c.align = true →
        max c.align (blockSize (sizeToOrder size)) ∣ a →
        c.minPhys ≤ a ∧ a + blockSize (sizeToOrder size) ≤ c.maxPhysExclusive →
        ∃ phys allocated s', allocConstrained s size c = .ok ((phys, allocated), s') ∧
          phys ≠ 0) := by
  obtain ⟨managed, hr, hbound⟩ := h.runInv
  have hw := hr.inv.sound.wf
  have hle := hr.inv.freeTally_le_one
  refine ⟨fun size phys s' h hne => alloc_served hw h hne,
    fun size c phys allocated s' h hne => allocConstrained_served hw h hne,
    fun hc h0 hs size a hsize ho hfree => ?_⟩
  have h0 := Nat.eq_zero_of_not_pos h0
  refine ⟨fun ha => exists_alloc hw hle hc h0 hs hsize ho ha hfree,
    fun c hp ha hin => exists_allocConstrained hw hle hc h0 hs ?_ hsize ho hp ha hin hfree⟩
  -- the last page of a free block is managed, so it ends inside the address space
  intro k b hb
  have hlast : Covers (pfn b) k (pfn b + 2 ^ k - 1) := by
    have := Nat.two_pow_pos k
    constructor <;> omega
  have hpos := (freeTally_pos_iff hw).mpr ⟨k, b, hb, hlast⟩
  obtain ⟨lost, -, hcov⟩ := hr.inv.cover
  have hsum := hcov (pfn b + 2 ^ k - 1)
  have hman := hbound (pfn b + 2 ^ k - 1) (by simp only at *; omega)
  rwa [Nat.sub_add_cancel (by have := hlast.2; omega), add_mul,
    pfn_mul_pageSize (pageSize_dvd_of_blockSize_dvd (hw.aligned hb))] at hman

/-- Sixteen pages without page `0`, one of them handed out, so that the tree of counts is
there. -/
theorem exists_reachable_slotted : ∃ s, Reachable s [⟨4096, 0⟩] ∧ Canonical s ∧
    (∀ a ∈ s.freeLists s.activeMaxOrder,
      buddyOf a s.activeMaxOrder ∉ s.freeLists s.activeMaxOrder) ∧
    0 ∉ freePages s ∧ Slotted s ∧ s.activeMaxOrder = 4 ∧ AllFree s 49152 2 := by
  have heval : (do
      let s ← addSpans (State.empty 4 16 false) [(4096, 65536)]
      let r ← alloc s 4096
      pure (r.1, decide (Canonical r.2 ∧ (∀ a ∈ r.2.freeLists r.2.activeMaxOrder,
          buddyOf a r.2.activeMaxOrder ∉ r.2.freeLists r.2.activeMaxOrder) ∧
        freeTally r.2 0 = 0 ∧ Slotted r.2 ∧ r.2.activeMaxOrder = 4 ∧
        ∀ p < (16 : ℕ), 12 ≤ p → 0 < freeTally r.2 p)) :
        Except String (ℕ × Bool)).toOption = some (4096, true) := by
    decide +kernel
  obtain ⟨s0, hadd, h⟩ := ok_bind (ok_of_toOption heval)
  obtain ⟨⟨phys, s⟩, halloc, h⟩ := ok_bind h
  obtain ⟨rfl, h⟩ := Prod.mk.inj (Except.ok.inj h)
  obtain ⟨hc, htop, h0, hs, hm, hfree⟩ := of_decide_eq_true h
  refine ⟨s, ⟨4, 16, false, [(4096, 65536)], s0, by decide, by simp [uint64Max], by simp, hadd,
    .single (.alloc halloc)⟩, hc, htop, fun hp => ?_, hs, hm, fun p hp => ?_⟩
  · have hpos : 0 < freeTally s 0 := hp
    exact hpos.ne' h0
  · have hp' : 12 ≤ p ∧ p < 16 := hp
    exact hfree p hp'.2 hp'.1

/-- Four pages, with and without bounds. -/
theorem allocation_sound_complete_four_pages : ∃ s live phys t phys' t', Reachable s live ∧
    alloc s 16384 = .ok (phys, t) ∧ Served s 16384 phys ∧
    allocConstrained s 16384 ⟨32768, 65536, 0⟩ = .ok ((phys', 16384), t') ∧
    32768 ≤ phys' ∧ phys' + 16384 ≤ 65536 := by
  obtain ⟨s, hreach, hc, -, h0, hs, hm, hfree⟩ := exists_reachable_slotted
  obtain ⟨hsound, hsound', hcomplete⟩ := allocation_sound_complete hreach
  obtain ⟨halloc, hcons⟩ := hcomplete hc h0 hs 16384 49152 (by decide) (by rw [hm]; decide) hfree
  obtain ⟨phys, t, ht, hne⟩ := halloc (by decide)
  obtain ⟨phys', allocated, t', ht', hne'⟩ :=
    hcons ⟨32768, 65536, 0⟩ (.inl rfl) (by decide) (by decide)
  obtain ⟨-, rfl, -, hlo, hhi⟩ := hsound' _ _ _ _ _ ht' hne'
  exact ⟨s, _, phys, t, phys', t', hreach, ht, hsound _ _ _ ht hne, ht', hlo, hhi⟩

/-- An alignment that is not a power of two is refused although page `12`, at a multiple of it,
is free. -/
theorem odd_alignment_refused : ∃ s live, Reachable s live ∧ Canonical s ∧
    (∀ a ∈ s.freeLists s.activeMaxOrder,
      buddyOf a s.activeMaxOrder ∉ s.freeLists s.activeMaxOrder) ∧
    Slotted s ∧ allocConstrained s 4096 ⟨0, 65536, 12288⟩ = .ok ((0, 0), s) ∧
    max 12288 (blockSize (sizeToOrder 4096)) ∣ 49152 ∧
    49152 + blockSize (sizeToOrder 4096) ≤ 65536 ∧ AllFree s 49152 (sizeToOrder 4096) := by
  obtain ⟨s, hreach, hc, htop, -, hs, hm, hfree⟩ := exists_reachable_slotted
  refine ⟨s, _, hreach, hc, htop, hs, ?_, by decide, by decide, fun p hp => hfree p ⟨hp.1, ?_⟩⟩
  · unfold allocConstrained
    rfl
  · exact hp.2.trans_le (Nat.add_le_add_left (by decide) _)

end RHKernel.Pmm
