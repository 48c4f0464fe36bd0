import RHKernel.Memory.Pmm.Lists

/-!
# Carving ranges and splitting blocks

The loops that turn a byte range into blocks (`carveLoop`) and a large block into a small one
(`splitDown`, `takeBlock`), described by the pages they add to or take from the free lists.
-/

namespace RHKernel.Pmm

open DyadicBlock Step Bits

variable {start «end» a curr last fuel block order i k p b c m n : ℕ} {s s' : State}
  {managed : Bool}

/-- The page `p` lies wholly inside the byte range. -/
def PageIn (start «end» p : ℕ) : Prop := start ≤ p * pageSize ∧ (p + 1) * pageSize ≤ «end»

/-- The multiplicity with which a byte range covers page `p`. -/
def spanTally (start «end» p : ℕ) : ℕ :=
  if start ≤ p * pageSize ∧ (p + 1) * pageSize ≤ «end» then 1 else 0

theorem spanTally_eq_one (h : PageIn start «end» p) : spanTally start «end» p = 1 := if_pos h

theorem spanTally_eq_zero (h : ¬PageIn start «end» p) : spanTally start «end» p = 0 := if_neg h

theorem spanTally_of_le (h : «end» ≤ start) (p : ℕ) : spanTally start «end» p = 0 := by
  refine spanTally_eq_zero ?_
  unfold PageIn pageSize
  omega

/-- A range is cut in two at a page boundary. -/
theorem spanTally_add (hb : pageSize ∣ b) (hab : a ≤ b) (hbc : b ≤ c) (p : ℕ) :
    spanTally a c p = spanTally a b p + spanTally b c p := by
  unfold spanTally pageSize at *
  split <;> split <;> split <;> omega

/-- Rounding a range inwards to page boundaries keeps its pages. -/
theorem spanTally_align (start «end» p : ℕ) :
    spanTally (alignUp start pageSize) (alignDown «end» pageSize) p = spanTally start «end» p := by
  unfold spanTally alignUp alignDown pageSize
  split <;> split <;> omega

theorem tally_eq_spanTally (ha : pageSize ∣ a) (k p : ℕ) :
    tally (pfn a) k p = spanTally a (a + blockSize k) p := by
  obtain ⟨x, rfl⟩ := ha
  have hx : pfn (pageSize * x) = x := by rw [mul_comm, pfn_mul]
  rw [hx, blockSize]
  have hiff : Covers x k p ↔ PageIn (pageSize * x) (pageSize * x + 2 ^ k * pageSize) p := by
    unfold Covers PageIn pageSize
    omega
  by_cases h : Covers x k p
  · rw [tally_eq_one h, spanTally_eq_one (hiff.mp h)]
  · rw [tally_eq_zero h, spanTally_eq_zero (mt hiff.mpr h)]

/-! ### Carving a range -/

theorem blockSize_rangeOrder_le (hc : pageSize ∣ curr) (hl : pageSize ∣ last)
    (h : curr < last) : blockSize (rangeOrder m curr last) ≤ last - curr := by
  have hle : rangeOrder m curr last ≤ Nat.log2 ((last - curr) >>> 12) :=
    (min_le_left _ _).trans (min_le_right _ _)
  have hshift : (last - curr) >>> 12 = (last - curr) / pageSize := by
    rw [Nat.shiftRight_eq_div_pow]
    rfl
  rw [hshift] at hle
  have hne : (last - curr) / pageSize ≠ 0 := by
    unfold pageSize at *
    omega
  have hpow : 2 ^ rangeOrder m curr last ≤ (last - curr) / pageSize :=
    (Nat.pow_le_pow_right two_pos hle).trans (Nat.log2_self_le hne)
  calc blockSize (rangeOrder m curr last)
      ≤ (last - curr) / pageSize * pageSize := Nat.mul_le_mul_right _ hpow
    _ ≤ last - curr := Nat.div_mul_le_self _ _

theorem blockSize_rangeOrder_dvd (hc : pageSize ∣ curr) (hmax : curr ≤ uint64Max) :
    blockSize (rangeOrder m curr last) ∣ curr := by
  have hpfn := pfn_mul_pageSize hc
  by_cases hzero : pfn curr = 0
  · rw [← hpfn, hzero, zero_mul]
    exact dvd_zero _
  have hshift : curr >>> 12 = pfn curr := Nat.shiftRight_eq_div_pow curr 12
  have hle : rangeOrder m curr last ≤ ctz (pfn curr) := by
    unfold rangeOrder
    have hne : curr ≠ 0 := fun h => hzero (by rw [h]; rfl)
    simp only [if_neg hne, hshift]
    omega
  have hlt : pfn curr < 2 ^ 64 :=
    lt_of_le_of_lt (Nat.div_le_self _ _) (lt_of_le_of_lt hmax (by decide))
  have hdvd := blockSize_dvd_of_two_pow_dvd
    (Dvd.dvd.trans (pow_dvd_pow 2 hle) (two_pow_ctz_dvd hzero hlt))
  rwa [hpfn] at hdvd

/-- Counting bytes as managed touches no list. -/
theorem Wf.addManaged (hw : Wf s) (managed : Bool) (n : ℕ) :
    Wf (if managed then { s with managedBytes := n } else s) := by
  cases managed
  · exact hw
  · exact { hw with }

theorem listsOnly_addManaged (s : State) (managed : Bool) (n : ℕ) :
    ListsOnly s (if managed then { s with managedBytes := n } else s) := by
  cases managed <;> exact ⟨rfl, rfl, rfl, rfl, rfl, rfl⟩

theorem freeLists_addManaged (s : State) (managed : Bool) (n : ℕ) :
    (if managed then { s with managedBytes := n } else s).freeLists = s.freeLists := by
  cases managed <;> rfl

theorem freeTally_addManaged (s : State) (managed : Bool) (n p : ℕ) :
    freeTally (if managed then { s with managedBytes := n } else s) p = freeTally s p := by
  unfold freeTally
  rw [freeLists_addManaged]

/-- One round of the carving loop pushes a block that starts the range and fits into it. -/
theorem carveLoop_succ_ok (h : carveLoop managed (fuel + 1) curr last s = .ok s')
    (hlt : curr < last) :
    ∃ t, pushBlock (if managed then
          { s with managedBytes :=
              s.managedBytes + blockSize (rangeOrder s.activeMaxOrder curr last) }
        else s) curr (rangeOrder s.activeMaxOrder curr last) = .ok t ∧
      carveLoop managed fuel (curr + blockSize (rangeOrder s.activeMaxOrder curr last)) last t =
        .ok s' := by
  rw [carveLoop, if_pos hlt] at h
  exact ok_bind h

/-- The loop adds exactly the pages of the range. -/
theorem carveLoop_spec (h : carveLoop managed fuel curr last s = .ok s') (hw : Wf s)
    (hc : pageSize ∣ curr) (hl : pageSize ∣ last) (hfuel : (last - curr) / pageSize ≤ fuel) :
    Wf s' ∧ ListsOnly s s' ∧ ∀ p, freeTally s' p = freeTally s p + spanTally curr last p := by
  induction fuel generalizing curr s with
  | zero =>
    cases h
    refine ⟨hw, .refl _, fun p => ?_⟩
    rw [spanTally_of_le (by unfold pageSize at *; omega), add_zero]
  | succ fuel ih =>
    by_cases hlt : curr < last
    · obtain ⟨t, hpush, hrest⟩ := carveLoop_succ_ok h hlt
      set order := rangeOrder s.activeMaxOrder curr last
      have hfit : blockSize order ≤ last - curr := blockSize_rangeOrder_le hc hl hlt
      have hpage : pageSize ≤ blockSize order :=
        Nat.le_of_dvd (blockSize_pos _) (pageSize_dvd_blockSize _)
      have hc' : pageSize ∣ curr + blockSize order := Nat.dvd_add hc (pageSize_dvd_blockSize _)
      have hfuel' : (last - (curr + blockSize order)) / pageSize ≤ fuel := by
        unfold pageSize at *
        omega
      obtain ⟨hwt, hft, htt⟩ := ih hrest (pushBlock_wf (hw.addManaged _ _) hpush) hc' hfuel'
      refine ⟨hwt, (listsOnly_addManaged s managed _).trans
        ((pushBlock_ok hpush).2.2.2.trans hft), fun p => ?_⟩
      have hcut := spanTally_add hc' (Nat.le_add_right _ _)
        (show curr + blockSize order ≤ last by omega) p
      rw [htt, pushBlock_freeTally (hw.addManaged _ _) hpush, freeTally_addManaged,
        tally_eq_spanTally hc, hcut, add_assoc]
    · rw [carveLoop, if_neg hlt] at h
      cases h
      exact ⟨hw, .refl _, fun p => by rw [spanTally_of_le (by omega), add_zero]⟩

/-- The loop pushes only blocks that the lists admit. -/
theorem exists_carveLoop (hc : pageSize ∣ curr) (hmax : last ≤ uint64Max) :
    ∃ s', carveLoop managed fuel curr last s = .ok s' := by
  induction fuel generalizing curr s with
  | zero => exact ⟨s, rfl⟩
  | succ fuel ih =>
    by_cases hlt : curr < last
    · obtain ⟨t, ht⟩ : ∃ t, pushBlock (if managed then
          { s with managedBytes :=
              s.managedBytes + blockSize (rangeOrder s.activeMaxOrder curr last) } else s)
          curr (rangeOrder s.activeMaxOrder curr last) = .ok t := exists_pushBlock
        ((min_le_right _ _).trans_eq (listsOnly_addManaged s managed _).activeMaxOrder.symm)
        (blockSize_rangeOrder_dvd hc (by omega))
      rw [carveLoop, if_pos hlt]
      simp only [ht, bind_of_ok]
      exact ih (Nat.dvd_add hc (pageSize_dvd_blockSize _))
    · exact ⟨s, by rw [carveLoop, if_neg hlt]⟩

theorem isPowerOfTwo_pageSize : isPowerOfTwo pageSize = true := by decide

/-- A range that starts in the last page of the address space has no page. -/
theorem alignDown_le_alignUp (hend : «end» ≤ uint64Max) (h : uint64Max - (pageSize - 1) < start) :
    alignDown «end» pageSize ≤ alignUp start pageSize := by
  unfold alignUp alignDown pageSize uint64Max at *
  omega

/-- Both bounds are rounded to pages; the code's overflow test only skips ranges without pages. -/
theorem carveRange_eq (managed : Bool) (s : State) (start : ℕ) (hend : «end» ≤ uint64Max) :
    carveRange managed s start «end» =
      carveLoop managed ((alignDown «end» pageSize - alignUp start pageSize) / pageSize)
        (alignUp start pageSize) (alignDown «end» pageSize) s := by
  unfold carveRange alignUpChecked alignDownChecked
  simp only [isPowerOfTwo_pageSize, Bool.not_true, Bool.false_eq_true, if_false]
  by_cases hover : uint64Max - (pageSize - 1) < start
  · rw [if_pos hover, Nat.sub_eq_zero_of_le (alignDown_le_alignUp hend hover), Nat.zero_div]
    rfl
  · rw [if_neg hover]

theorem exists_carveRange (managed : Bool) (s : State) (start : ℕ) (hend : «end» ≤ uint64Max) :
    ∃ s', carveRange managed s start «end» = .ok s' := by
  rw [carveRange_eq managed s start hend]
  exact exists_carveLoop (dvd_alignUp _ _) ((alignDown_le _ _).trans hend)

theorem carveRange_spec (h : carveRange managed s start «end» = .ok s') (hw : Wf s)
    (hend : «end» ≤ uint64Max) :
    Wf s' ∧ ListsOnly s s' ∧ ∀ p, freeTally s' p = freeTally s p + spanTally start «end» p := by
  rw [carveRange_eq managed s start hend] at h
  obtain ⟨hw', hf, ht⟩ := carveLoop_spec h hw (dvd_alignUp _ _) (dvd_alignDown _ _) le_rfl
  refine ⟨hw', hf, fun p => ?_⟩
  rw [ht, spanTally_align]

/-! ### Splitting a block -/

/-- The loop keeps the lower part of the block and gives back the rest. -/
theorem splitDown_spec (h : splitDown block order i s = .ok s') (hw : Wf s) (hi : order ≤ i) :
    Wf s' ∧ ListsOnly s s' ∧
      ∀ p, freeTally s' p + tally (pfn block) order p = freeTally s p + tally (pfn block) i p := by
  induction i generalizing s with
  | zero =>
    cases h
    obtain rfl : order = 0 := by omega
    exact ⟨hw, .refl _, fun _ => rfl⟩
  | succ i ih =>
    rw [splitDown] at h
    split at h
    case isTrue hlt =>
      obtain ⟨t, hpush, hrest⟩ := ok_bind h
      obtain ⟨hw', hf, ht⟩ := ih hrest (pushBlock_wf hw hpush) (by omega)
      refine ⟨hw', (pushBlock_ok hpush).2.2.2.trans hf, fun p => ?_⟩
      rw [ht, pushBlock_freeTally hw hpush, pfn_add_blockSize, tally_succ]
      omega
    case isFalse hge =>
      cases h
      obtain rfl : order = i + 1 := by omega
      exact ⟨hw, .refl _, fun _ => rfl⟩

/-- Only upper halves of blocks that start at `block` enter the lists. -/
theorem splitDown_mem (h : splitDown block order i s = .ok s') (ha : a ∈ s'.freeLists k) :
    a ∈ s.freeLists k ∨ (k < i ∧ a = block + blockSize k) := by
  induction i generalizing s with
  | zero =>
    cases h
    exact .inl ha
  | succ i ih =>
    rw [splitDown] at h
    split at h
    case isTrue hlt =>
      obtain ⟨t, hpush, hrest⟩ := ok_bind h
      rcases ih hrest with hmem | ⟨hk, rfl⟩
      · rcases pushBlock_mem hpush hmem with ⟨rfl, rfl⟩ | hmem
        · exact .inr ⟨Nat.lt_succ_self k, rfl⟩
        · exact .inl hmem
      · exact .inr ⟨by omega, rfl⟩
    case isFalse =>
      cases h
      exact .inl ha

/-! ### Taking a block -/

/-- The order found is one that was asked for, or lies above the limit. -/
theorem le_firstNonemptyOrder (s : State) (n : ℕ) :
    n ≤ firstNonemptyOrder s n ∨ s.activeMaxOrder < firstNonemptyOrder s n := by
  unfold firstNonemptyOrder
  simp only
  split
  case isTrue => exact .inr (Nat.lt_succ_self _)
  case isFalse hne =>
    left
    have hbit := testBit_ctz (fun h => hne (BitVec.eq_of_toNat_eq h))
      (s.nonemptyOrderMask &&& BitVec.allOnes 64 <<< n).isLt
    -- the mask has no bit below `n`
    rw [← BitVec.getLsbD, BitVec.getLsbD_and, BitVec.getLsbD_shiftLeft] at hbit
    simp only [Bool.and_eq_true, Bool.not_eq_true', decide_eq_false_iff_not] at hbit
    omega

/-- The order found is not above one whose list has a block. -/
theorem firstNonemptyOrder_le (hw : Wf s) (hn : n ≤ k) (ha : a ∈ s.freeLists k) :
    firstNonemptyOrder s n ≤ k := by
  have hk := (hw.order_le ha).trans hw.max_le
  have hbit : (s.nonemptyOrderMask &&& (BitVec.allOnes 64 <<< n)).getLsbD k = true := by
    have hmask := (hw.mask k).mpr (List.ne_nil_of_mem ha)
    have hlt : k < 64 := lt_of_le_of_lt hk (by decide)
    rw [BitVec.getLsbD_and, BitVec.getLsbD_shiftLeft, hmask, BitVec.getLsbD_allOnes]
    simp only [Bool.true_and, Bool.and_eq_true, Bool.not_eq_true', decide_eq_true_eq,
      decide_eq_false_iff_not]
    omega
  unfold firstNonemptyOrder
  simp only
  split
  case isTrue h0 =>
    rw [h0] at hbit
    simp at hbit
  case isFalse => exact ctz_le (BitVec.isLt _) hbit

/-- The next order of a search lies above the last one and not above one with a block. -/
theorem firstNonemptyOrder_succ (hw : Wf s) (hn : n < k) (ha : a ∈ s.freeLists k) :
    n + 1 ≤ firstNonemptyOrder s (n + 1) ∧ firstNonemptyOrder s (n + 1) ≤ k := by
  have h1 := firstNonemptyOrder_le hw (show n + 1 ≤ k from hn) ha
  have h2 := le_firstNonemptyOrder s (n + 1)
  have h3 := hw.order_le ha
  omega

/-- What taking a block does: `block`, of the order asked for, leaves the free pages, and only
upper halves of larger blocks at the same address enter the lists. A block at address `0` is
taken for no block and is lost. -/
structure Taken (s s' : State) (block order : ℕ) : Prop where
  wf : Wf s'
  frame : ListsOnly s s'
  order_le : block ≠ 0 → order ≤ s.activeMaxOrder
  aligned : block ≠ 0 → blockSize order ∣ block
  cover : ∃ lost : ℕ → ℕ, (freeTally s 0 = 0 → ∀ p, lost p = 0) ∧
    ∀ p, freeTally s' p + (if block = 0 then 0 else tally (pfn block) order p) + lost p =
      freeTally s p
  halves : ∀ {k a}, a ∈ s'.freeLists k →
    a ∈ s.freeLists k ∨ (block ≠ 0 ∧ blockSize (k + 1) ∣ block ∧ a = block + blockSize k)

theorem Taken.none (hw : Wf s) (order : ℕ) : Taken s s 0 order where
  wf := hw
  frame := .refl s
  order_le h := absurd rfl h
  aligned h := absurd rfl h
  cover := ⟨fun _ => 0, fun _ _ => rfl, fun p => by simp⟩
  halves := .inl

theorem popBlock_cases (s : State) (order : ℕ) :
    popBlock s order = (0, s) ∨ ∃ block rest, (s.freeLists order).Perm (block :: rest) ∧
      popBlock s order = (block, dropBlock s order rest) := by
  unfold popBlock
  cases h : s.freeLists order with
  | nil => exact .inl rfl
  | cons block rest => exact .inr ⟨block, rest, .refl _, rfl⟩

theorem freeTally_pfn_pos (hw : Wf s) (ha : a ∈ s.freeLists k) : 0 < freeTally s (pfn a) :=
  lt_of_lt_of_le (tally_pos_iff.mpr (covers_start _ _))
    (tally_le_freeTally ((hw.order_le ha).trans hw.max_le) ha _)

theorem ne_zero_of_mem (hw : Wf s) (h0 : freeTally s 0 = 0) (ha : a ∈ s.freeLists k) : a ≠ 0 := by
  rintro rfl
  have hpos := freeTally_pfn_pos hw ha
  rw [pfn, Nat.zero_div] at hpos
  omega

theorem takeBlockLoop_spec (h : takeBlockLoop order fuel i s = .ok (block, s')) (hw : Wf s)
    (hi : order ≤ i ∨ s.activeMaxOrder < i) : Taken s s' block order := by
  induction fuel generalizing i s with
  | zero =>
    cases h
    exact .none hw order
  | succ fuel ih =>
    rw [takeBlockLoop] at h
    split at h
    case isTrue =>
      cases h
      exact .none hw order
    case isFalse hle =>
      have hoi : order ≤ i := by omega
      rcases popBlock_cases s i with hpop | ⟨head, rest, hperm, hpop⟩
      · simp only [hpop, if_true] at h
        refine ih h hw ?_
        have := le_firstNonemptyOrder s (i + 1)
        omega
      have hmem : head ∈ s.freeLists i := hperm.mem_iff.mpr List.mem_cons_self
      have hwd := dropBlock_wf hw hperm
      have hdrop := dropBlock_freeTally hw hperm
      simp only [hpop] at h
      split at h
      case isTrue hzero =>
        -- the block at address `0` is gone, and the search goes on
        subst hzero
        have hnext : order ≤ firstNonemptyOrder (dropBlock s i rest) (i + 1) ∨
            (dropBlock s i rest).activeMaxOrder <
              firstNonemptyOrder (dropBlock s i rest) (i + 1) := by
          have := le_firstNonemptyOrder (dropBlock s i rest) (i + 1)
          omega
        obtain ⟨hw', hf, hole, hal, ⟨lost, hlost, hcov⟩, hhalves⟩ := ih h hwd hnext
        refine ⟨hw', (dropBlock_listsOnly s i rest).trans hf, hole, hal,
          ⟨fun p => lost p + tally (pfn 0) i p, fun hz => ?_, fun p => ?_⟩, fun ha => ?_⟩
        · exact absurd hz (freeTally_pfn_pos hw hmem).ne'
        · have h1 := hcov p
          have h2 := hdrop p
          simp only at *
          omega
        · exact (hhalves ha).imp_left (dropBlock_mem hperm)
      case isFalse hne =>
        obtain ⟨t, hsplit, hret⟩ := ok_bind h
        cases hret
        obtain ⟨hw', hf, hcov⟩ := splitDown_spec hsplit hwd hoi
        have hal := hw.aligned hmem
        refine ⟨hw', (dropBlock_listsOnly s i rest).trans hf, fun _ => by omega, fun _ => ?_,
          ⟨fun _ => 0, fun _ _ => rfl, fun p => ?_⟩, fun ha => ?_⟩
        · exact Dvd.dvd.trans (blockSize_dvd_blockSize hoi) hal
        · rw [if_neg hne, add_zero, hcov, hdrop]
        · rcases splitDown_mem hsplit ha with hold | ⟨hk, rfl⟩
          · exact .inl (dropBlock_mem hperm hold)
          · exact .inr ⟨hne, Dvd.dvd.trans (blockSize_dvd_blockSize hk) hal, rfl⟩

theorem takeBlock_spec (h : takeBlock s order = .ok (block, s')) (hw : Wf s) :
    Taken s s' block order :=
  takeBlockLoop_spec h hw (le_firstNonemptyOrder s order)

end RHKernel.Pmm
