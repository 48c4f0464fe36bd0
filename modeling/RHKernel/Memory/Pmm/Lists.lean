import RHKernel.Lib.Dyadic
import RHKernel.Lib.Step
import RHKernel.Memory.Pmm.Model
import Mathlib.Algebra.Order.BigOperators.Group.Finset

/-!
# The free lists and the pages they cover

`freeTally s p` counts how often the free blocks cover page `p`. Every operation on the lists is
described by what it does to this count, by the bookkeeping invariant `Wf` of the lists with
their counters, mask and byte total, and by what it leaves alone (`ListsOnly`).

Blocks are lost in one way only. A block at physical address `0` is popped and then taken for
the answer of an empty list, so the searches come with a `lost` tally that vanishes when page
`0` is not free.
-/

namespace RHKernel.Pmm

open DyadicBlock Step Function Finset

variable {k addr order block l x n a m : ℕ} {s s' t u : State} {rest : List ℕ}

theorem pageSize_pos : 0 < pageSize := by decide

theorem blockSize_eq (k : ℕ) : blockSize k = 2 ^ (k + 12) := by
  rw [blockSize, pow_add]
  rfl

theorem blockSize_succ (k : ℕ) : blockSize (k + 1) = 2 * blockSize k := by
  rw [blockSize_eq, blockSize_eq, show k + 1 + 12 = (k + 12) + 1 by omega, pow_succ']

theorem blockSize_zero : blockSize 0 = pageSize := by decide

theorem blockSize_pos (k : ℕ) : 0 < blockSize k := by
  rw [blockSize_eq]
  exact Nat.two_pow_pos _

theorem blockSize_dvd_blockSize (h : k ≤ l) : blockSize k ∣ blockSize l := by
  rw [blockSize_eq, blockSize_eq]
  exact pow_dvd_pow 2 (by omega)

theorem pageSize_dvd_blockSize (k : ℕ) : pageSize ∣ blockSize k := Dvd.intro_left _ rfl

/-- The page frame number of an address. -/
def pfn (addr : ℕ) : ℕ := addr / pageSize

@[simp]
theorem pfn_mul (x : ℕ) : pfn (x * pageSize) = x := Nat.mul_div_cancel x pageSize_pos

theorem pfn_add_blockSize (addr k : ℕ) : pfn (addr + blockSize k) = pfn addr + 2 ^ k := by
  rw [pfn, blockSize, mul_comm, Nat.add_mul_div_left _ _ pageSize_pos, pfn]

theorem pfn_add_pageSize (addr : ℕ) : pfn (addr + pageSize) = pfn addr + 1 := by
  rw [← blockSize_zero, pfn_add_blockSize, pow_zero]

theorem pfn_mul_pageSize (h : pageSize ∣ addr) : pfn addr * pageSize = addr := Nat.div_mul_cancel h

theorem two_pow_dvd_pfn (h : blockSize k ∣ addr) : 2 ^ k ∣ pfn addr := by
  obtain ⟨x, rfl⟩ := h
  rw [show blockSize k * x = 2 ^ k * x * pageSize by rw [blockSize]; ring, pfn_mul]
  exact Dvd.intro _ rfl

theorem blockSize_dvd_of_two_pow_dvd (h : 2 ^ k ∣ x) : blockSize k ∣ x * pageSize := by
  exact mul_dvd_mul_right h pageSize

theorem pageSize_dvd_of_blockSize_dvd (h : blockSize k ∣ addr) : pageSize ∣ addr :=
  Dvd.dvd.trans (pageSize_dvd_blockSize k) h

/-- `buddy_of` is the dyadic buddy on page numbers. -/
theorem pfn_buddyOf (h : blockSize k ∣ addr) : buddyOf addr k = buddy (pfn addr) k * pageSize := by
  have hx : addr = pfn addr * pageSize := (pfn_mul_pageSize (pageSize_dvd_of_blockSize_dvd h)).symm
  have hshift := Nat.shiftLeft_xor_distrib (i := 12) (a := pfn addr) (b := 2 ^ k)
  simp only [Nat.shiftLeft_eq] at hshift
  rw [buddyOf, buddy, blockSize, pageSize, show 4096 = 2 ^ 12 by norm_num, hshift]
  conv_lhs => rw [hx]
  rfl

/-! ### Counting coverage -/

/-- How often the blocks of order `k` at the addresses `l` cover page `p`. -/
def listTally (k : ℕ) (l : List ℕ) (p : ℕ) : ℕ := (l.map fun a => tally (pfn a) k p).sum

/-- How often the free blocks cover page `p`. -/
def freeTally (s : State) (p : ℕ) : ℕ :=
  ∑ k ∈ range (maxOrderLimit + 1), listTally k (s.freeLists k) p

@[simp]
theorem listTally_nil (k p : ℕ) : listTally k [] p = 0 := rfl

@[simp]
theorem listTally_cons (k a : ℕ) (l : List ℕ) (p : ℕ) :
    listTally k (a :: l) p = tally (pfn a) k p + listTally k l p := by
  simp [listTally]

theorem freeTally_congr (h : s'.freeLists = s.freeLists) : freeTally s' = freeTally s := by
  unfold freeTally
  rw [h]

theorem listTally_perm {l l' : List ℕ} (h : l.Perm l') (p : ℕ) :
    listTally k l p = listTally k l' p :=
  (h.map _).sum_eq

/-- A sum over the orders after one list has been replaced. -/
private theorem sum_update_list (g : ℕ → List ℕ → ℕ) (f : ℕ → List ℕ) (hk : k < n)
    (l : List ℕ) :
    ∑ j ∈ range n, g j (update f k l j) + g k (f k) = ∑ j ∈ range n, g j (f j) + g k l := by
  have hmem : k ∈ range n := mem_range.mpr hk
  rw [← add_sum_erase _ _ hmem, ← add_sum_erase (range n) _ hmem, update_self]
  have hrest : ∑ j ∈ (range n).erase k, g j (update f k l j) =
      ∑ j ∈ (range n).erase k, g j (f j) := by
    refine sum_congr rfl fun j hj => ?_
    rw [update_of_ne (ne_of_mem_erase hj)]
  omega

theorem tally_le_freeTally (hk : k ≤ maxOrderLimit) (ha : a ∈ s.freeLists k) (p : ℕ) :
    tally (pfn a) k p ≤ freeTally s p := by
  have h1 : tally (pfn a) k p ≤ listTally k (s.freeLists k) p :=
    List.single_le_sum (by simp) _ (List.mem_map_of_mem ha)
  refine h1.trans (single_le_sum (f := fun j => listTally j (s.freeLists j) p)
    (fun _ _ => Nat.zero_le _) (mem_range.mpr (by omega)))

/-! ### The bookkeeping invariant -/

/-- The lists hold aligned blocks of admitted orders, and the count, the mask and the byte total
agree with them. -/
structure Wf (s : State) : Prop where
  max_le : s.activeMaxOrder ≤ maxOrderLimit
  order_le : ∀ {k a}, a ∈ s.freeLists k → k ≤ s.activeMaxOrder
  aligned : ∀ {k a}, a ∈ s.freeLists k → blockSize k ∣ a
  counts : ∀ k, s.freeBlockCounts k = (s.freeLists k).length
  mask : ∀ k, s.nonemptyOrderMask.getLsbD k = true ↔ s.freeLists k ≠ []
  bytes : s.freeBytes =
    ∑ k ∈ range (maxOrderLimit + 1), (s.freeLists k).length * blockSize k

/-- Nothing but the lists and their counters differs. -/
structure ListsOnly (s s' : State) : Prop where
  activeMaxOrder : s'.activeMaxOrder = s.activeMaxOrder
  totalPages : s'.totalPages = s.totalPages
  refEntries : s'.refEntries = s.refEntries
  refLeaf : s'.refLeaf = s.refLeaf
  deferUnmappedSpans : s'.deferUnmappedSpans = s.deferUnmappedSpans
  deferredSpans : s'.deferredSpans = s.deferredSpans

theorem ListsOnly.refl (s : State) : ListsOnly s s := ⟨rfl, rfl, rfl, rfl, rfl, rfl⟩

theorem ListsOnly.trans (h1 : ListsOnly s t) (h2 : ListsOnly t u) : ListsOnly s u :=
  ⟨h2.1.trans h1.1, h2.2.trans h1.2, h2.3.trans h1.3, h2.4.trans h1.4, h2.5.trans h1.5,
    h2.6.trans h1.6⟩

theorem Wf.empty (hm : m ≤ maxOrderLimit) (t : ℕ) (d : Bool) : Wf (State.empty m t d) where
  max_le := hm
  order_le h := absurd h List.not_mem_nil
  aligned h := absurd h List.not_mem_nil
  counts _ := rfl
  mask k := by simp [State.empty]
  bytes := by simp [State.empty]

theorem freeTally_empty (m t : ℕ) (d : Bool) (p : ℕ) : freeTally (State.empty m t d) p = 0 := by
  simp [freeTally, State.empty]

/-! ### Pushing and dropping one block -/

theorem getLsbD_markOrderNonempty (mask : BitVec 64) (ho : order < 64) (k : ℕ) :
    (markOrderNonempty mask order).getLsbD k = true ↔ mask.getLsbD k = true ∨ k = order := by
  rw [markOrderNonempty, BitVec.getLsbD_or, BitVec.getLsbD_shiftLeft, BitVec.getLsbD_one]
  simp only [Bool.or_eq_true, Bool.and_eq_true, decide_eq_true_eq, Bool.not_eq_true',
    decide_eq_false_iff_not]
  exact or_congr_right ⟨fun h => by omega, fun h => by omega⟩

theorem getLsbD_markOrderEmpty (mask : BitVec 64) (ho : order < 64) (k : ℕ) :
    (markOrderEmpty mask order).getLsbD k = true ↔ mask.getLsbD k = true ∧ k ≠ order := by
  rw [markOrderEmpty, BitVec.getLsbD_and, BitVec.getLsbD_not, BitVec.getLsbD_shiftLeft,
    BitVec.getLsbD_one]
  simp only [Bool.and_eq_true, Bool.not_eq_true', decide_eq_true_eq, Bool.and_eq_false_iff,
    decide_eq_false_iff_not, Bool.not_eq_false']
  constructor
  · rintro ⟨h1, h2, h3⟩
    exact ⟨h1, by omega⟩
  rintro ⟨h1, h2⟩
  have hlt : k < 64 := by
    by_contra hge
    rw [BitVec.getLsbD_of_ge _ _ (by omega)] at h1
    cases h1
  exact ⟨h1, hlt, by omega⟩

/-- What a successful `push_block` guarantees about its arguments. -/
theorem pushBlock_ok (h : pushBlock s addr order = .ok s') :
    order ≤ s.activeMaxOrder ∧ blockSize order ∣ addr ∧
      s'.freeLists = update s.freeLists order (addr :: s.freeLists order) ∧
      ListsOnly s s' := by
  unfold pushBlock at h
  split at h
  case isTrue => cases h
  case isFalse hc =>
    push Not at hc
    cases h
    refine ⟨hc.1, ?_, rfl, ⟨rfl, rfl, rfl, rfl, rfl, rfl⟩⟩
    have hmod := hc.2
    rw [blockSize_eq, Nat.and_two_pow_sub_one_eq_mod] at hmod
    rw [blockSize_eq]
    exact Nat.dvd_of_mod_eq_zero hmod

theorem exists_pushBlock (ho : order ≤ s.activeMaxOrder) (ha : blockSize order ∣ addr) :
    ∃ s', pushBlock s addr order = .ok s' := by
  have hmod : addr &&& (blockSize order - 1) = 0 := by
    rw [blockSize_eq, Nat.and_two_pow_sub_one_eq_mod]
    rw [blockSize_eq] at ha
    exact Nat.mod_eq_zero_of_dvd ha
  refine ⟨_, if_neg ?_⟩
  push Not
  exact ⟨ho, hmod⟩

theorem pushBlock_freeTally (hw : Wf s) (h : pushBlock s addr order = .ok s') (p : ℕ) :
    freeTally s' p = freeTally s p + tally (pfn addr) order p := by
  obtain ⟨ho, -, hl, -⟩ := pushBlock_ok h
  have hsum := sum_update_list (fun k l => listTally k l p) s.freeLists
    (show order < maxOrderLimit + 1 by have := hw.max_le; omega) (addr :: s.freeLists order)
  rw [listTally_cons] at hsum
  unfold freeTally
  rw [hl]
  omega

/-- The list of its order gets the block, and no list anything else. -/
theorem pushBlock_mem (h : pushBlock s addr order = .ok s') (hmem : a ∈ s'.freeLists k) :
    k = order ∧ a = addr ∨ a ∈ s.freeLists k := by
  rw [(pushBlock_ok h).2.2.1] at hmem
  by_cases hk : k = order
  · rw [hk, update_self, List.mem_cons] at hmem
    exact hmem.imp (⟨hk, ·⟩) (hk ▸ ·)
  · exact .inr (by rwa [update_of_ne hk] at hmem)

theorem pushBlock_wf (hw : Wf s) (h : pushBlock s addr order = .ok s') : Wf s' := by
  obtain ⟨ho, ha, hl, hf⟩ := pushBlock_ok h
  have hlt : order < maxOrderLimit + 1 := by have := hw.max_le; omega
  have hmem : ∀ {k a}, a ∈ s'.freeLists k → _ := pushBlock_mem h
  unfold pushBlock at h
  split at h
  case isTrue => cases h
  case isFalse =>
    cases h
    refine ⟨hw.max_le, fun h => ?_, fun h => ?_, fun k => ?_, fun k => ?_, ?_⟩
    · rcases hmem h with ⟨rfl, -⟩ | h
      · exact ho
      · exact hw.order_le h
    · rcases hmem h with ⟨rfl, rfl⟩ | h
      · exact ha
      · exact hw.aligned h
    · by_cases hk : k = order
      · subst hk
        simp [hw.counts k]
      · simp [update_of_ne hk, hw.counts k]
    · rw [getLsbD_markOrderNonempty _ (by unfold maxOrderLimit at hlt; omega), hw.mask]
      by_cases hk : k = order
      · subst hk
        simp
      · simp [hk]
    · have hsum := sum_update_list (fun k l => l.length * blockSize k) s.freeLists hlt
        (addr :: s.freeLists order)
      simp only [List.length_cons, add_mul, one_mul] at hsum
      simp only
      rw [hw.bytes]
      omega

theorem dropBlock_freeTally (hw : Wf s) (hl : (s.freeLists order).Perm (block :: rest)) (p : ℕ) :
    freeTally (dropBlock s order rest) p + tally (pfn block) order p = freeTally s p := by
  have ho : order ≤ s.activeMaxOrder := hw.order_le (hl.mem_iff.mpr List.mem_cons_self)
  have hsum := sum_update_list (fun k l => listTally k l p) s.freeLists
    (show order < maxOrderLimit + 1 by have := hw.max_le; omega) rest
  have hperm := listTally_perm (k := order) hl p
  rw [listTally_cons] at hperm
  unfold freeTally
  simp only [dropBlock]
  omega

theorem dropBlock_listsOnly (s : State) (order : ℕ) (rest : List ℕ) :
    ListsOnly s (dropBlock s order rest) :=
  ⟨rfl, rfl, rfl, rfl, rfl, rfl⟩

theorem dropBlock_mem (hl : (s.freeLists order).Perm (block :: rest))
    (h : a ∈ (dropBlock s order rest).freeLists k) : a ∈ s.freeLists k := by
  by_cases hk : k = order
  · subst hk
    simp only [dropBlock, update_self] at h
    exact hl.mem_iff.mpr (List.mem_cons_of_mem _ h)
  · simpa [dropBlock, update_of_ne hk] using h

theorem dropBlock_wf (hw : Wf s) (hl : (s.freeLists order).Perm (block :: rest)) :
    Wf (dropBlock s order rest) := by
  have ho : order ≤ s.activeMaxOrder := hw.order_le (hl.mem_iff.mpr List.mem_cons_self)
  have hlt : order < maxOrderLimit + 1 := by have := hw.max_le; omega
  have hlen := hl.length_eq
  rw [List.length_cons] at hlen
  refine ⟨hw.max_le, fun h => hw.order_le (dropBlock_mem hl h),
    fun h => hw.aligned (dropBlock_mem hl h), fun k => ?_, fun k => ?_, ?_⟩
  · by_cases hk : k = order
    · subst hk
      simp [dropBlock, hw.counts k, hlen]
    · simp [dropBlock, update_of_ne hk, hw.counts k]
  · have hne : s.freeLists order ≠ [] := fun h => by rw [h] at hlen; simp at hlen
    by_cases hrest : rest = []
    · simp only [dropBlock, hrest, if_true]
      rw [getLsbD_markOrderEmpty _ (by unfold maxOrderLimit at hlt; omega), hw.mask]
      by_cases hk : k = order
      · subst hk
        simp
      · simp [hk]
    · simp only [dropBlock, hrest, if_false]
      rw [hw.mask]
      by_cases hk : k = order
      · subst hk
        simp [hrest, hne]
      · simp [update_of_ne hk]
  · have hsum := sum_update_list (fun k l => l.length * blockSize k) s.freeLists hlt rest
    simp only [hlen, add_mul, one_mul] at hsum
    simp only [dropBlock]
    rw [hw.bytes]
    omega

/-- `remove_block` answers whether the block is free, and takes it off the lists if it is. -/
theorem removeBlock_spec (s : State) (physAddr order : ℕ) :
    (physAddr ∉ s.freeLists order ∧ removeBlock s physAddr order = (false, s)) ∨
      ∃ rest, (s.freeLists order).Perm (physAddr :: rest) ∧
        removeBlock s physAddr order = (true, dropBlock s order rest) := by
  unfold removeBlock
  split
  case isTrue h => exact .inr ⟨_, List.perm_cons_erase h, rfl⟩
  case isFalse h => exact .inl ⟨h, rfl⟩

end RHKernel.Pmm
