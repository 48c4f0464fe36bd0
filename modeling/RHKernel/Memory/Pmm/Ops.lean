import RHKernel.Memory.Pmm.Refs

/-!
# What the operations of the allocator do

`Inv managed live s` says that the free pages, the pages of the reference-count tree and the
pages that callers hold add up to the managed pages. `managed` and `live` count pages, so one
equation says both that the three sets are disjoint and that together they are everything.

Each operation has one specification in terms of `Inv`, of the counts that `get_ref` reads, and
of what happens to the free lists (`Shrinks` for the operations that take pages). The partition
and the canonicity of the free lists are derived from these, as is everything the layers above
need to know about physical memory.

The only way for a page to leave the count is address `0`: a block found there is taken for a
failed search. `lost` counts those pages; there are none when page `0` is not managed.
-/

namespace RHKernel.Pmm

open DyadicBlock Step Bits Radix Function

variable {t s s' : State} {phys order size block blockEnd candidate fuel i : ℕ}
  {c : AllocConstraints} {managed live : ℕ → ℕ}

/-- Free, metadata and live pages make up the managed pages, and every live page has a slot for
its count. -/
structure Inv (managed live : ℕ → ℕ) (s : State) : Prop where
  sound : Sound s
  le_one : ∀ p, managed p ≤ 1
  cover : ∃ lost : ℕ → ℕ, (managed 0 = 0 → ∀ p, lost p = 0) ∧
    ∀ p, freeTally s p + metaTally s p + live p + lost p = managed p
  slots : ∀ phys, 0 < live (pfn phys) → ∃ slot, refSlot s phys = some slot

namespace Inv

variable {managed live live' : ℕ → ℕ} {s s' : State}

variable (h : Inv managed live s)

include h

theorem freeTally_le_one (p : ℕ) : freeTally s p ≤ 1 := by
  have := h.sound.disjoint p
  omega

theorem freeTally_zero (h0 : managed 0 = 0) : freeTally s 0 = 0 := by
  obtain ⟨lost, -, hcov⟩ := h.cover
  have := hcov 0
  omega

/-- The general step: pages go from free to metadata, live or lost, and slots are there for the
pages that become live. -/
theorem step (hs : Sound s')
    (hcov : ∃ lost : ℕ → ℕ, (freeTally s 0 = 0 → ∀ p, lost p = 0) ∧
      ∀ p, freeTally s' p + metaTally s' p + live' p + lost p =
        freeTally s p + metaTally s p + live p)
    (hslots : ∀ phys, 0 < live' (pfn phys) → ∃ slot, refSlot s' phys = some slot) :
    Inv managed live' s' := by
  obtain ⟨lost, hlost, hsum⟩ := h.cover
  obtain ⟨lost', hlost', hsum'⟩ := hcov
  refine ⟨hs, h.le_one, ⟨fun p => lost p + lost' p, fun h0 p => ?_, fun p => ?_⟩, hslots⟩
  · simp only [hlost h0, hlost' (h.freeTally_zero h0)]
  · have h1 := hsum p
    have h2 := hsum' p
    simp only
    omega

/-- Adding nodes to the tree keeps the invariant. -/
theorem metadata (hm : Metadata s s') : Inv managed live s' := by
  refine h.step hm.sound ?_ fun q hp => ?_
  · obtain ⟨lost, hlost, hcov⟩ := hm.cover
    refine ⟨lost, hlost, fun p => ?_⟩
    have := hcov p
    omega
  · obtain ⟨slot, hslot⟩ := h.slots q hp
    exact ⟨slot, hm.refSlot hslot⟩

end Inv

/-! ### `alloc` -/

/-- The block `phys` of the order given has been handed out: its pages, each with count one, are
live, unless the address `0` hides them from the caller. -/
structure Allocated (managed live : ℕ → ℕ) (s s' : State) (phys order : ℕ) : Prop where
  order_le : order ≤ s.activeMaxOrder
  aligned : blockSize order ∣ phys
  inv : phys ≠ 0 → Inv managed (fun p => live p + tally (pfn phys) order p) s'
  inv_zero : phys = 0 → Inv managed live s' ∧ managed 0 ≠ 0
  getRef : ∀ q, getRef s' q = if Covers (pfn phys) order (pfn q) then 1 else getRef s q
  activeMaxOrder : s'.activeMaxOrder = s.activeMaxOrder

/-- Starting the counts of a block that has left the free lists. -/
theorem initRefcountsLocked_spec (h : initRefcountsLocked t phys (blockSize order) = .ok (true, s'))
    (hi : Inv managed live s) (ht : Sound t) (hf : ListsOnly s t) (ho : order ≤ s.activeMaxOrder)
    (ha : blockSize order ∣ phys)
    (hcov : ∃ lost : ℕ → ℕ, (freeTally s 0 = 0 → ∀ p, lost p = 0) ∧
      ∀ p, freeTally t p + tally (pfn phys) order p + lost p = freeTally s p) :
    Allocated managed live s s' phys order ∧ Shrinks t s' := by
  unfold initRefcountsLocked at h
  rw [blockSize, Nat.mul_div_cancel _ pageSize_pos] at h
  obtain ⟨hmd, hslots, hget⟩ := initRefcountsLoop_spec h ht
  obtain ⟨lost, hlost, hsum⟩ := hcov
  obtain ⟨lost', hlost', hsum'⟩ := hmd.cover
  have hmeta := metaTally_congr hf.refEntries
  have hz : freeTally s 0 = 0 → freeTally t 0 = 0 := fun h0 => by have := hsum 0; omega
  have hold : ∀ q, 0 < live (pfn q) → ∃ slot, refSlot s' q = some slot := by
    intro q hq
    obtain ⟨slot, hslot⟩ := hi.slots q hq
    exact ⟨slot, hmd.refSlot ((hf.refSlot q).trans hslot)⟩
  refine ⟨⟨ho, ha, fun _ => ?_, fun hzero => ⟨?_, ?_⟩, fun q => ?_, ?_⟩, hmd.shrinks⟩
  · refine hi.step hmd.sound ⟨fun p => lost p + lost' p, fun h0 p => ?_, fun p => ?_⟩ ?_
    · simp only [hlost h0, hlost' (hz h0)]
    · have h1 := hsum p
      have h2 := hsum' p
      rw [hmeta] at h2
      simp only
      omega
    · intro q hq
      by_cases hc : Covers (pfn phys) order (pfn q)
      · exact hslots q hc.1 hc.2
      · rw [tally_eq_zero hc, add_zero] at hq
        exact hold q hq
  · -- a block at address `0` has left the free pages for good
    refine hi.step hmd.sound ⟨fun p => lost p + lost' p + tally (pfn phys) order p, ?_, fun p => ?_⟩
      hold
    · intro h0
      have h1 := hsum 0
      rw [hzero, tally_eq_one (show Covers (pfn 0) order 0 from covers_start 0 order)] at h1
      omega
    · have h1 := hsum p
      have h2 := hsum' p
      rw [hmeta] at h2
      simp only
      omega
  · intro h0
    have h1 := hsum 0
    rw [hzero, tally_eq_one (show Covers (pfn 0) order 0 from covers_start 0 order),
      hi.freeTally_zero h0] at h1
    omega
  · rw [hget, hf.getRef]
    rfl
  · rw [hmd.activeMaxOrder, hf.activeMaxOrder]

/-- What a call of `alloc` that returns has done. -/
theorem alloc_cases (h : alloc s size = .ok (phys, s')) :
    phys = 0 ∧ s' = s ∨
      ∃ t, size ≠ 0 ∧ takeBlock s (sizeToOrder size) = .ok (phys, t) ∧ if phys = 0 then s' = t
        else initRefcountsLocked t phys (blockSize (sizeToOrder size)) = .ok (true, s') := by
  unfold alloc at h
  split at h
  · cases h
    exact .inl ⟨rfl, rfl⟩
  rename_i hsize
  simp only at h
  split at h
  · cases h
    exact .inl ⟨rfl, rfl⟩
  obtain ⟨⟨block, t⟩, htake, h⟩ := ok_bind h
  split_ifs at h with hzero
  · subst hzero
    cases h
    exact .inr ⟨_, hsize, htake, rfl⟩
  obtain ⟨⟨ok, u⟩, hinit, h⟩ := ok_bind h
  cases ok with
  | false => cases h
  | true =>
    cases h
    exact .inr ⟨t, hsize, htake, by rwa [if_neg hzero]⟩

/-- `alloc` fails without handing anything out, or hands out a block of the order of the size. -/
theorem alloc_spec (h : alloc s size = .ok (phys, s')) (hi : Inv managed live s) :
    Shrinks s s' ∧ ((phys = 0 ∧ Inv managed live s' ∧ s'.activeMaxOrder = s.activeMaxOrder ∧
        ∀ q, getRef s' q = getRef s q) ∨
      (phys ≠ 0 ∧ size ≠ 0 ∧ Allocated managed live s s' phys (sizeToOrder size))) := by
  obtain ⟨rfl, rfl⟩ | ⟨t, hsize, htake, hret⟩ := alloc_cases h
  · exact ⟨.refl s', .inl ⟨rfl, hi, rfl, fun _ => rfl⟩⟩
  have ht := takeBlock_spec htake hi.sound.wf
  have hshr := ht.shrinks hi.freeTally_le_one
  obtain ⟨lost, hlost, hsum⟩ := ht.cover
  have hmeta := metaTally_congr ht.frame.refEntries
  have hsound : Sound t := by
    refine ⟨ht.wf, hi.sound.refs.congr ht.frame.refEntries, fun p => ?_⟩
    have h1 := hshr.le p
    have h2 := hi.sound.disjoint p
    rw [hmeta]
    omega
  by_cases hzero : phys = 0
  · subst hzero
    obtain rfl : s' = t := hret
    refine ⟨hshr, .inl ⟨rfl, ?_, ht.frame.activeMaxOrder, ht.frame.getRef⟩⟩
    refine hi.step hsound ⟨lost, hlost, fun p => ?_⟩ fun q hq => ?_
    · have h1 := hsum p
      rw [if_pos rfl] at h1
      rw [hmeta]
      omega
    · rw [ht.frame.refSlot]
      exact hi.slots q hq
  · simp only [if_neg hzero] at hret hsum
    obtain ⟨hal, hshr'⟩ := initRefcountsLocked_spec hret hi hsound ht.frame
      (ht.order_le hzero) (ht.aligned hzero) ⟨lost, hlost, hsum⟩
    exact ⟨hshr.trans hshr', .inr ⟨hzero, hsize, hal⟩⟩

/-! ### `alloc_constrained` -/

theorem addChecked_eq_some {a b c : ℕ} (h : addChecked a b = some c) (hb : b ≤ uint64Max) :
    c = a + b ∧ c ≤ uint64Max := by
  unfold addChecked at h
  split at h
  · cases h
  · cases h
    omega

theorem alignUpChecked_eq_some {value align aligned : ℕ}
    (h : alignUpChecked value align = some aligned) :
    isPowerOfTwo align = true ∧ align ∣ aligned := by
  unfold alignUpChecked at h
  split at h
  · cases h
  rename_i hpow
  split at h
  · cases h
  · cases h
    exact ⟨by simpa using hpow, dvd_alignUp _ _⟩

/-- The address found in a block is aligned and leaves room for the request, in the block and in
the bounds. -/
theorem rangeCanHold_spec (h : rangeCanHold block blockEnd size c = some candidate) :
    isPowerOfTwo c.align = true ∧ c.align ∣ candidate ∧
      (block ≤ candidate ∧ candidate + size ≤ blockEnd) ∧
      c.minPhys ≤ candidate ∧ candidate + size ≤ c.maxPhysExclusive := by
  unfold rangeCanHold at h
  dsimp only at h
  generalize hmin : (if block < c.minPhys then _ else _) = minPhys at h
  generalize hmax : (if c.maxPhysExclusive < blockEnd then _ else _) = maxPhys at h
  have hlow : block ≤ minPhys ∧ c.minPhys ≤ minPhys := by split_ifs at hmin <;> omega
  have hhigh : maxPhys ≤ blockEnd ∧ maxPhys ≤ c.maxPhysExclusive := by split_ifs at hmax <;> omega
  by_cases hroom : maxPhys ≤ minPhys ∨ maxPhys - minPhys < size
  · rw [if_pos hroom] at h
    cases h
  rw [if_neg hroom] at h
  rcases hal : alignUpChecked minPhys c.align with _ | aligned
  · rw [hal] at h
    cases h
  rw [hal] at h
  obtain ⟨hpow, hdvd⟩ := alignUpChecked_eq_some hal
  simp only at h
  split at h
  · cases h
  · cases h
    exact ⟨hpow, hdvd, by omega, by omega⟩

theorem findHoldIn_spec {l : List ℕ}
    (h : findHoldIn order size c l = .ok (some (block, blockEnd, candidate))) :
    block ∈ l ∧ addChecked block (blockSize order) = some blockEnd ∧
      rangeCanHold block blockEnd size c = some candidate := by
  induction l with
  | nil => cases h
  | cons head rest ih =>
    rw [findHoldIn] at h
    split at h
    · cases h
    rename_i headEnd hend
    split at h
    · rename_i found hhold
      cases h
      exact ⟨List.mem_cons_self, hend, hhold⟩
    · obtain ⟨h1, h2, h3⟩ := ih h
      exact ⟨List.mem_cons_of_mem _ h1, h2, h3⟩

theorem findHoldLoop_spec {j : ℕ}
    (h : findHoldLoop size c s fuel i = .ok (some (j, block, blockEnd, candidate))) :
    block ∈ s.freeLists j ∧ addChecked block (blockSize j) = some blockEnd ∧
      rangeCanHold block blockEnd size c = some candidate := by
  induction fuel generalizing i with
  | zero => cases h
  | succ fuel ih =>
    rw [findHoldLoop] at h
    split at h
    · cases h
    obtain ⟨hit, hin, hret⟩ := ok_bind h
    cases hit with
    | none => exact ih hret
    | some hit =>
      cases hret
      exact findHoldIn_spec hin

/-- The block found, and the place of the candidate in it. -/
structure Holds (s : State) (i block blockEnd candidate order : ℕ) : Prop where
  mem : block ∈ s.freeLists i
  end_eq : blockEnd = block + blockSize i
  end_le : blockEnd ≤ uint64Max
  aligned : blockSize order ∣ candidate
  le : block ≤ candidate
  fits : candidate + blockSize order ≤ blockEnd

theorem isPowerOfTwo_iff {n : ℕ} : isPowerOfTwo n = true ↔ ∃ k, n = 2 ^ k := by
  unfold isPowerOfTwo
  simp only [Bool.and_eq_true, decide_eq_true_eq]
  exact Nat.ne_zero_and_sub_one_eq_zero_iff_isPowerOfTwo

/-- Of two powers of two the larger one is a multiple of the smaller one. -/
theorem dvd_of_isPowerOfTwo {m n : ℕ} (hm : isPowerOfTwo m = true) (hn : isPowerOfTwo n = true)
    (hle : m ≤ n) : m ∣ n := by
  obtain ⟨i, rfl⟩ := isPowerOfTwo_iff.mp hm
  obtain ⟨j, rfl⟩ := isPowerOfTwo_iff.mp hn
  exact pow_dvd_pow 2 ((Nat.pow_le_pow_iff_right (by omega)).mp hle)

theorem isPowerOfTwo_blockSize (k : ℕ) : isPowerOfTwo (blockSize k) = true :=
  isPowerOfTwo_iff.mpr ⟨_, blockSize_eq k⟩

theorem blockSize_le_uint64Max {k : ℕ} (h : k ≤ maxOrderLimit) : blockSize k ≤ uint64Max := by
  have hle : blockSize k ≤ blockSize maxOrderLimit :=
    Nat.le_of_dvd (blockSize_pos _) (blockSize_dvd_blockSize h)
  exact hle.trans (by decide)

/-- The alignment that `alloc_constrained` searches with. -/
def searchAlign (align order : ℕ) : ℕ :=
  let align := if align ≠ 0 then align else pageSize
  let align := if align < pageSize then pageSize else align
  if align < blockSize order then blockSize order else align

theorem searchAlign_eq (align order : ℕ) :
    searchAlign align order = max align (blockSize order) := by
  have hpage : pageSize ≤ blockSize order :=
    Nat.le_of_dvd (blockSize_pos _) (pageSize_dvd_blockSize _)
  unfold searchAlign
  simp only
  split_ifs <;> omega

/-- The block found for a request, and where the candidate may lie. -/
theorem findHoldLoop_holds {j : ℕ} (hw : Wf s)
    (h : findHoldLoop (blockSize order) { c with align := searchAlign c.align order } s fuel j =
      .ok (some (i, block, blockEnd, candidate))) (hp : c.align ≠ 0 → isPowerOfTwo c.align = true) :
    Holds s i block blockEnd candidate order ∧ (c.align ≠ 0 → c.align ∣ candidate) ∧
      c.minPhys ≤ candidate ∧ candidate + blockSize order ≤ c.maxPhysExclusive := by
  obtain ⟨hmem, hend, hhold⟩ := findHoldLoop_spec h
  obtain ⟨hpow, hdvd, ⟨hle, hfits⟩, hbounds⟩ := rangeCanHold_spec hhold
  obtain ⟨hend, hend_le⟩ := addChecked_eq_some hend
    (blockSize_le_uint64Max ((hw.order_le hmem).trans hw.max_le))
  simp only [searchAlign_eq] at hpow hdvd
  exact ⟨⟨hmem, hend, hend_le, Dvd.dvd.trans (dvd_of_isPowerOfTwo (isPowerOfTwo_blockSize order)
    hpow (le_max_right _ _)) hdvd, hle, hfits⟩,
    fun h0 => Dvd.dvd.trans (dvd_of_isPowerOfTwo (hp h0) hpow (le_max_left _ _)) hdvd, hbounds⟩

/-- `alloc_constrained` changes nothing, or carves an aligned candidate out of a free block. -/
theorem allocConstrained_cases {allocated : ℕ}
    (h : allocConstrained s size c = .ok ((phys, allocated), s')) (hw : Wf s) :
    (phys = 0 ∧ allocated = 0 ∧ s' = s) ∨
      (size ≠ 0 ∧ sizeToOrder size ≤ s.activeMaxOrder ∧
        allocated = blockSize (sizeToOrder size) ∧
        ∃ i block blockEnd, Holds s i block blockEnd phys (sizeToOrder size) ∧
          carveCandidate s i block blockEnd phys (blockSize (sizeToOrder size)) = .ok s' ∧
          (c.align ≠ 0 → c.align ∣ phys) ∧ c.minPhys ≤ phys ∧
          phys + blockSize (sizeToOrder size) ≤ c.maxPhysExclusive) := by
  unfold allocConstrained at h
  split at h
  · cases h
    exact .inl ⟨rfl, rfl, rfl⟩
  rename_i hsize
  split at h
  · cases h
    exact .inl ⟨rfl, rfl, rfl⟩
  split at h
  · cases h
    exact .inl ⟨rfl, rfl, rfl⟩
  simp only at h
  split at h
  · cases h
    exact .inl ⟨rfl, rfl, rfl⟩
  by_cases hp : (!isPowerOfTwo (if c.align ≠ 0 then c.align else pageSize)) = true
  · rw [if_pos hp] at h
    cases h
    exact .inl ⟨rfl, rfl, rfl⟩
  rw [if_neg hp] at h
  obtain ⟨hit, hfind, hret⟩ := ok_bind h
  cases hit with
  | none =>
    cases hret
    exact .inl ⟨rfl, rfl, rfl⟩
  | some hit =>
    obtain ⟨i, block, blockEnd, candidate⟩ := hit
    obtain ⟨t, hcarve, hfin⟩ := ok_bind hret
    cases hfin
    obtain ⟨hh, hwithin⟩ := findHoldLoop_holds hw hfind fun h0 => by simpa [h0] using hp
    exact .inr ⟨hsize, by omega, rfl, i, block, blockEnd, hh, hcarve, hwithin⟩

/-- The three parts of a block around the candidate. -/
theorem Holds.tally_eq (h : Holds s i block blockEnd candidate order) (hw : Wf s) (p : ℕ) :
    tally (pfn block) i p = spanTally block candidate p +
      (tally (pfn candidate) order p + spanTally (candidate + blockSize order) blockEnd p) := by
  have hc := pageSize_dvd_of_blockSize_dvd h.aligned
  have hc' : pageSize ∣ candidate + blockSize order := Nat.dvd_add hc (pageSize_dvd_blockSize _)
  have hfits := h.fits
  have hle := h.le
  rw [tally_eq_spanTally (pageSize_dvd_of_blockSize_dvd (hw.aligned h.mem)),
    tally_eq_spanTally hc, ← h.end_eq, spanTally_add hc hle (by omega),
    spanTally_add hc' (Nat.le_add_right _ _) hfits]

/-- The states between the parts of `carveCandidate`. -/
structure Carved (s t u s' : State) (i block blockEnd candidate order : ℕ) (rest : List ℕ) :
    Prop where
  perm : (s.freeLists i).Perm (block :: rest)
  before : pushRangeLocked (dropBlock s i rest) block candidate = .ok t
  after : pushRangeLocked t (candidate + blockSize order) blockEnd = .ok u
  init : initRefcountsLocked u candidate (blockSize order) = .ok (true, s')

theorem carveCandidate_ok
    (h : carveCandidate s i block blockEnd candidate (blockSize order) = .ok s')
    (ho : order ≤ maxOrderLimit) :
    ∃ t u rest, Carved s t u s' i block blockEnd candidate order rest := by
  unfold carveCandidate at h
  rcases removeBlock_spec s block i with ⟨-, hrem⟩ | ⟨rest, hperm, hrem⟩
  · simp only [hrem] at h
    cases h
  simp only [hrem, Bool.not_true, Bool.false_eq_true, if_false] at h
  rcases hadd : addChecked candidate (blockSize order) with _ | candidateEnd
  · rw [hadd] at h
    cases h
  rw [hadd] at h
  obtain ⟨rfl, -⟩ := addChecked_eq_some hadd (blockSize_le_uint64Max ho)
  obtain ⟨t, ht, h⟩ := ok_bind h
  obtain ⟨u, hu, h⟩ := ok_bind h
  obtain ⟨⟨ok, v⟩, hv, h⟩ := ok_bind h
  cases ok with
  | false => cases h
  | true =>
    cases h
    exact ⟨t, u, rest, hperm, ht, hu, hv⟩

/-- The lists before the counts are started: the candidate has left them. -/
theorem Carved.lists {u : State} {rest : List ℕ}
    (h : Carved s t u s' i block blockEnd candidate order rest)
    (hh : Holds s i block blockEnd candidate order) (hw : Wf s) :
    Wf u ∧ ListsOnly s u ∧ ∀ p, freeTally u p + tally (pfn candidate) order p = freeTally s p := by
  have hfits := hh.fits
  have hend := hh.end_le
  obtain ⟨hwt, hft, htt⟩ := carveRange_spec h.before (dropBlock_wf hw h.perm) (by omega)
  obtain ⟨hwu, hfu, htu⟩ := carveRange_spec h.after hwt hend
  refine ⟨hwu, (dropBlock_listsOnly s i rest).trans (hft.trans hfu), fun p => ?_⟩
  have h1 := dropBlock_freeTally hw h.perm p
  have h2 := hh.tally_eq hw p
  rw [htu, htt]
  omega

/-- The counts of the candidate are started after it has left the lists. -/
theorem Carved.allocated {u : State} {rest : List ℕ}
    (h : Carved s t u s' i block blockEnd candidate order rest)
    (hh : Holds s i block blockEnd candidate order) (hi : Inv managed live s)
    (ho : order ≤ s.activeMaxOrder) :
    Allocated managed live s s' candidate order ∧ Shrinks u s' := by
  obtain ⟨hwu, hfu, hcov⟩ := h.lists hh hi.sound.wf
  have hsound : Sound u := by
    refine ⟨hwu, hi.sound.refs.congr hfu.refEntries, fun p => ?_⟩
    have h1 := hcov p
    have h2 := hi.sound.disjoint p
    rw [metaTally_congr hfu.refEntries]
    omega
  exact initRefcountsLocked_spec h.init hi hsound hfu ho hh.aligned
    ⟨fun _ => 0, fun _ _ => rfl, fun p => by rw [add_zero, hcov]⟩

theorem allocConstrained_spec {allocated : ℕ}
    (h : allocConstrained s size c = .ok ((phys, allocated), s')) (hi : Inv managed live s) :
    (phys = 0 ∧ allocated = 0 ∧ s' = s) ∨
      (size ≠ 0 ∧ allocated = blockSize (sizeToOrder size) ∧
        Allocated managed live s s' phys (sizeToOrder size)) := by
  rcases allocConstrained_cases h hi.sound.wf with hnone |
    ⟨hsize, ho, hal, i, block, blockEnd, hh, hc, -⟩
  · exact .inl hnone
  · obtain ⟨t, u, rest, hcar⟩ := carveCandidate_ok hc (ho.trans hi.sound.wf.max_le)
    exact .inr ⟨hsize, hal, (hcar.allocated hh hi ho).1⟩

/-! ### `free` -/

/-- What the merging loop does: it takes the buddies off the lists and stops at the limit or
where the buddy is not free. -/
structure Merged (s s' : State) (addr order addr' order' : ℕ) : Prop where
  wf : Wf s'
  frame : ListsOnly s s'
  aligned : blockSize order' ∣ addr'
  order_le : order' ≤ s.activeMaxOrder
  cover : ∀ p, freeTally s' p + tally (pfn addr') order' p =
    freeTally s p + tally (pfn addr) order p
  sub : ∀ {k a}, a ∈ s'.freeLists k → a ∈ s.freeLists k
  stop : order' < s.activeMaxOrder → buddyOf addr' order' ∉ s'.freeLists order'

theorem min_buddyOf {addr k : ℕ} (h : blockSize k ∣ addr) :
    (if addr < buddyOf addr k then addr else buddyOf addr k) =
      min (pfn addr) (buddy (pfn addr) k) * pageSize := by
  have haddr := pfn_mul_pageSize (pageSize_dvd_of_blockSize_dvd h)
  rw [← Nat.mul_min_mul_right, haddr, ← pfn_buddyOf h]
  split <;> omega

theorem mergeLoop_spec {addr : ℕ} (hw : Wf s) (ha : blockSize order ∣ addr)
    (ho : order ≤ s.activeMaxOrder) (hfuel : s.activeMaxOrder - order ≤ fuel) :
    ∃ addr' order' s', mergeLoop fuel addr order s = (addr', order', s') ∧
      Merged s s' addr order addr' order' := by
  induction fuel generalizing addr order s with
  | zero =>
    exact ⟨addr, order, s, rfl, hw, .refl s, ha, ho, fun _ => rfl, id, fun h => by omega⟩
  | succ fuel ih =>
    rw [mergeLoop]
    split_ifs with hlt
    · rcases removeBlock_spec s (buddyOf addr order) order with ⟨hnot, hrem⟩ | ⟨rest, hperm, hrem⟩
      · exact ⟨addr, order, s, by simp only [hrem], hw, .refl s, ha, ho, fun _ => rfl, id,
          fun _ => hnot⟩
      have hda := two_pow_dvd_pfn ha
      have hmin := min_buddyOf ha
      have ha' : blockSize (order + 1) ∣
          if addr < buddyOf addr order then addr else buddyOf addr order := by
        rw [hmin]
        exact blockSize_dvd_of_two_pow_dvd (dvd_min_buddy hda)
      obtain ⟨addr', order', s', hloop, hm⟩ := ih (s := dropBlock s order rest)
        (dropBlock_wf hw hperm) ha' hlt (show s.activeMaxOrder - (order + 1) ≤ fuel by omega)
      refine ⟨addr', order', s', ?_, hm.wf, (dropBlock_listsOnly s order rest).trans hm.frame,
        hm.aligned, hm.order_le, fun p => ?_, fun h => dropBlock_mem hperm (hm.sub h), hm.stop⟩
      · simp only [hrem]
        exact hloop
      have h1 := hm.cover p
      have h2 := dropBlock_freeTally hw hperm p
      rw [hmin, pfn_mul, tally_min_buddy hda] at h1
      rw [pfn_buddyOf ha, pfn_mul] at h2
      omega
    · exact ⟨addr, order, s, rfl, hw, .refl s, ha, ho, fun _ => rfl, id, fun h => absurd h hlt⟩

/-- What `free` does to the lists and the counts, whoever owns the block. -/
structure Released (s s' : State) (phys order : ℕ) : Prop where
  wf : Wf s'
  refEntries : s'.refEntries = s.refEntries
  totalPages : s'.totalPages = s.totalPages
  activeMaxOrder : s'.activeMaxOrder = s.activeMaxOrder
  cover : ∀ p, freeTally s' p = freeTally s p + tally (pfn phys) order p
  getRef : ∀ q, getRef s' q = if Covers (pfn phys) order (pfn q) then 0 else getRef s q
  merged : ∃ k a, k ≤ s.activeMaxOrder ∧ blockSize k ∣ a ∧
    (k < s.activeMaxOrder → buddyOf a k ∉ s'.freeLists k) ∧
    ∀ {j b}, b ∈ s'.freeLists j → b ∈ s.freeLists j ∨ (j = k ∧ b = a)

theorem buddyOf_ne_self (a k : ℕ) : buddyOf a k ≠ a := by
  intro h
  have hzero : a ^^^ (a ^^^ blockSize k) = 0 := by
    rw [show a ^^^ blockSize k = a from h, Nat.xor_self]
  rw [← Nat.xor_assoc, Nat.xor_self, Nat.zero_xor] at hzero
  exact (blockSize_pos k).ne' hzero

theorem free_released (hw : Wf s) (ht : IsTree (refNext s) .root) (hp : phys ≠ 0) (hsize : size ≠ 0)
    (ho : sizeToOrder size ≤ s.activeMaxOrder) (ha : blockSize (sizeToOrder size) ∣ phys) :
    ∃ s', free s phys size = .ok s' ∧ Released s s' phys (sizeToOrder size) := by
  obtain ⟨leaf, hclear, hget⟩ :=
    clearRefsLoop_spec ht (blockSize (sizeToOrder size) / pageSize) phys
  have hw' : Wf (s.withLeaf leaf) := { hw with }
  obtain ⟨addr, order, t, hloop, hm⟩ := mergeLoop_spec hw' ha ho le_rfl
  have hle : order ≤ t.activeMaxOrder := by
    rw [hm.frame.activeMaxOrder]
    exact hm.order_le
  obtain ⟨s', hpush⟩ := exists_pushBlock hle hm.aligned
  obtain ⟨-, -, hlists, hframe⟩ := pushBlock_ok hpush
  have hlo : ListsOnly (s.withLeaf leaf) s' := hm.frame.trans hframe
  refine ⟨s', ?_, pushBlock_wf hm.wf hpush, hlo.refEntries, hlo.totalPages, hlo.activeMaxOrder,
    fun p => ?_, fun q => ?_, order, addr, hm.order_le, hm.aligned, fun hlt => ?_, ?_⟩
  · unfold free
    rw [if_neg (by tauto)]
    simp only [not_lt.mpr ho, if_false, hclear, bind_of_ok, hloop, hpush]
  · rw [pushBlock_freeTally hm.wf hpush, hm.cover]
    rfl
  · rw [hlo.getRef, hget, blockSize, Nat.mul_div_cancel _ pageSize_pos]
    rfl
  · rw [hlists, update_self, List.mem_cons, not_or]
    exact ⟨buddyOf_ne_self _ _, hm.stop hlt⟩
  exact fun hb => (pushBlock_mem hpush hb).symm.imp_left hm.sub

/-- Freeing pages that are live keeps the invariant. -/
theorem Released.inv (h : Released s s' phys order) (hi : Inv managed live s)
    (hlive : ∀ p, tally (pfn phys) order p ≤ live p) :
    Inv managed (fun p => live p - tally (pfn phys) order p) s' := by
  have hmeta := metaTally_congr h.refEntries
  refine hi.step ⟨h.wf, hi.sound.refs.congr h.refEntries, fun p => ?_⟩
    ⟨fun _ => 0, fun _ _ => rfl, fun p => ?_⟩ fun q hq => ?_
  · obtain ⟨lost, -, hcov⟩ := hi.cover
    have h1 := hcov p
    have h2 := hi.le_one p
    have h3 := hlive p
    rw [h.cover, hmeta]
    omega
  · have h3 := hlive p
    rw [h.cover, hmeta]
    simp only
    omega
  · obtain ⟨slot, hslot⟩ := hi.slots q (by omega)
    refine ⟨slot, ?_⟩
    obtain ⟨h1, h2, h3, h4⟩ := refSlot_eq_some.mp hslot
    rw [refSlot_eq_some, refNext_congr h.refEntries, h.totalPages]
    exact ⟨h1, h2, h3, h4⟩

/-! ### `ref_page` and `unref_page` -/

theorem refPage_spec (h : refPage s phys = .ok s') (hs : Sound s) :
    Metadata s s' ∧ (∃ slot, refSlot s' phys = some slot) ∧
      ∀ q, getRef s' q = if pfn q = pfn phys then (getRef s phys + 1) % 2 ^ 32 else getRef s q := by
  obtain ⟨⟨slot, t⟩, hslot, hret⟩ := ok_bind h
  obtain ⟨hmd, hget, hfound⟩ := getRefSlotLocked_true hslot hs
  cases slot with
  | none => cases hret
  | some slot =>
    cases hret
    have hrs := hfound slot rfl
    refine ⟨hmd.trans (metadata_writeRef hmd.sound slot _), ⟨slot, hrs⟩, fun q => ?_⟩
    rw [getRef_writeRef hmd.sound.refs.tree hrs, hget, ← getRef_of_slot hrs, hget]

theorem writeRef_self {slot : ℕ × ℕ} {v : ℕ} (h : s.refLeaf slot.1 slot.2 = v) :
    s.writeRef slot v = s := by
  unfold State.writeRef
  rw [← h, update_eq_self, update_eq_self]

/-- `unref_page` ignores a page without a slot, counts down, and frees at zero; a count that is
zero already frees too. -/
theorem unrefPage_cases (s : State) (phys : ℕ) :
    (refSlot s phys = none ∧ unrefPage s phys = .ok s) ∨
      ∃ slot, refSlot s phys = some slot ∧
        ((1 < getRef s phys ∧ unrefPage s phys = .ok (s.writeRef slot (getRef s phys - 1))) ∨
          (getRef s phys ≤ 1 ∧ unrefPage s phys = free (s.writeRef slot 0) phys pageSize)) := by
  unfold unrefPage
  rw [getRefSlotLocked_false]
  rcases hslot : refSlot s phys with _ | slot
  · exact .inl ⟨rfl, rfl⟩
  refine .inr ⟨slot, rfl, ?_⟩
  rw [getRef_of_slot hslot]
  have hwrite : ∀ v, (s.writeRef slot v).refLeaf slot.1 slot.2 = v := fun v => by
    simp [State.writeRef]
  change (1 < _ ∧ (if (if 0 < s.refLeaf slot.1 slot.2
        then s.writeRef slot (s.refLeaf slot.1 slot.2 - 1) else s).refLeaf slot.1 slot.2 = 0
      then _ else _) = _) ∨ (_ ∧ (if _ then _ else _) = _)
  by_cases hpos : 0 < s.refLeaf slot.1 slot.2
  · simp only [hpos, if_true, hwrite]
    by_cases hone : 1 < s.refLeaf slot.1 slot.2
    · exact .inl ⟨hone, if_neg (by omega)⟩
    · refine .inr ⟨by omega, ?_⟩
      rw [show s.refLeaf slot.1 slot.2 - 1 = 0 by omega, if_pos rfl]
  · have hzero : s.refLeaf slot.1 slot.2 = 0 := by omega
    refine .inr ⟨by omega, ?_⟩
    simp only [hpos, if_false]
    rw [if_pos hzero, writeRef_self hzero]

theorem sizeToOrder_pageSize : sizeToOrder pageSize = 0 := by decide

theorem unrefPage_of_one_lt (hs : Sound s) (h : 1 < getRef s phys) :
    ∃ s', unrefPage s phys = .ok s' ∧ Metadata s s' ∧ s'.freeLists = s.freeLists ∧
      (∀ q, refSlot s' q = refSlot s q) ∧
      ∀ q, getRef s' q = if pfn q = pfn phys then getRef s phys - 1 else getRef s q := by
  rcases unrefPage_cases s phys with ⟨hnone, -⟩ | ⟨slot, hslot, ⟨-, heq⟩ | ⟨hle, -⟩⟩
  · rw [getRef_of_none hnone] at h
    omega
  · exact ⟨_, heq, metadata_writeRef hs slot _, rfl, refSlot_writeRef s slot _,
      getRef_writeRef hs.refs.tree hslot _⟩
  · omega

theorem unrefPage_of_le_one (hs : Sound s) {slot : ℕ × ℕ} (hslot : refSlot s phys = some slot)
    (h : getRef s phys ≤ 1) (hp : phys ≠ 0) (ha : pageSize ∣ phys) :
    ∃ s', unrefPage s phys = .ok s' ∧ Released s s' phys 0 := by
  rcases unrefPage_cases s phys with ⟨hnone, -⟩ | ⟨slot', hslot', ⟨hlt, -⟩ | ⟨-, heq⟩⟩
  · rw [hslot] at hnone
    cases hnone
  · omega
  have hsound := hs.writeRef slot' 0
  obtain ⟨s', hfree, hrel⟩ := free_released hsound.wf hsound.refs.tree hp pageSize_pos.ne'
    (by rw [sizeToOrder_pageSize]; exact Nat.zero_le _)
    (by rw [sizeToOrder_pageSize, blockSize_zero]; exact ha)
  rw [sizeToOrder_pageSize] at hrel
  refine ⟨s', heq.trans hfree, hrel.wf, hrel.refEntries, hrel.totalPages, hrel.activeMaxOrder,
    hrel.cover, fun q => ?_, hrel.merged⟩
  rw [hrel.getRef, getRef_writeRef hs.refs.tree hslot' 0]
  have hc : Covers (pfn phys) 0 (pfn q) ↔ pfn q = pfn phys := covers_zero_iff
  simp only [hc]
  split_ifs <;> rfl

theorem exists_unrefPage (hs : Sound s) (ha : pageSize ∣ phys) :
    ∃ s', unrefPage s phys = .ok s' := by
  rcases unrefPage_cases s phys with ⟨-, h⟩ | ⟨slot, hslot, ⟨-, h⟩ | ⟨hle, h⟩⟩
  · exact ⟨_, h⟩
  · exact ⟨_, h⟩
  by_cases hp : phys = 0
  · subst hp
    exact ⟨_, h⟩
  · obtain ⟨s', h', -⟩ := unrefPage_of_le_one hs hslot hle hp ha
    exact ⟨s', h'⟩

end RHKernel.Pmm
