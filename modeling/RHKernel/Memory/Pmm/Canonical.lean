import Mathlib.Data.Nat.ModEq
import RHKernel.Memory.Pmm.Partition

/-!
# Canonicity of the free lists

The free lists are *canonical* when no block below the largest order is free together with its
buddy. Every operation keeps them so: the halves that a split gives back have the taken block for
a buddy, the pieces carved around a constrained candidate never line up with each other or with
anything outside the carved block, and `free` merges until the buddy is not free.

Canonical lists are determined by the free pages (`canonical_eq`), which is the uniqueness of
dyadic decompositions. The order in which blocks are freed, or the choice between freeing a block
and dropping the references of its pages one by one, therefore leaves no trace in the free
lists.
-/

namespace RHKernel.Pmm

open Bits DyadicBlock List Relation Step

variable
  {a k m curr last start «end» phys order curr' fuel t n b block i x blockEnd candidate p : ℕ} {s
    s' : State} {managed added added' live : ℕ → ℕ}

/-- No block below the largest order is free together with its buddy. -/
def Canonical (s : State) : Prop :=
  ∀ k < s.activeMaxOrder, ∀ a ∈ s.freeLists k, buddyOf a k ∉ s.freeLists k

/-! ### Buddies -/

theorem buddyOf_buddyOf (a k : ℕ) : buddyOf (buddyOf a k) k = a := by
  rw [buddyOf, buddyOf, Nat.xor_assoc, Nat.xor_self, Nat.xor_zero]

theorem buddyOf_cases (h : blockSize k ∣ a) :
    (blockSize (k + 1) ∣ a ∧ buddyOf a k = a + blockSize k) ∨
      (blockSize (k + 1) ∣ buddyOf a k ∧ a = buddyOf a k + blockSize k) := by
  have haddr := pfn_mul_pageSize (pageSize_dvd_of_blockSize_dvd h)
  have hbs : blockSize k = 2 ^ k * pageSize := rfl
  rw [pfn_buddyOf h]
  rcases buddy_cases (two_pow_dvd_pfn h) with ⟨h1, h2⟩ | ⟨h1, h2⟩
  · left
    refine ⟨haddr ▸ blockSize_dvd_of_two_pow_dvd h1, ?_⟩
    rw [h2, add_mul, haddr, hbs]
  · right
    refine ⟨blockSize_dvd_of_two_pow_dvd h1, ?_⟩
    rw [hbs, ← add_mul, ← h2, haddr]

theorem buddyOf_of_dvd (h : blockSize (k + 1) ∣ a) : buddyOf a k = a + blockSize k := by
  have hk : blockSize k ∣ a := Dvd.dvd.trans (blockSize_dvd_blockSize (Nat.le_succ k)) h
  rw [pfn_buddyOf hk, (buddy_eq_iff (two_pow_dvd_pfn h)).1, add_mul,
    pfn_mul_pageSize (pageSize_dvd_of_blockSize_dvd hk)]
  rfl

/-- Canonicity is about lower and upper halves. -/
theorem canonical_of_halves (hw : Wf s)
    (h : ∀ {k a}, k < s.activeMaxOrder → blockSize (k + 1) ∣ a → a ∈ s.freeLists k →
      a + blockSize k ∉ s.freeLists k) : Canonical s := by
  intro k hk a ha hb
  rcases buddyOf_cases (hw.aligned ha) with ⟨hdvd, heq⟩ | ⟨hdvd, heq⟩
  · exact h hk hdvd ha (heq ▸ hb)
  · exact h hk hdvd hb (heq ▸ ha)

theorem Shrinks.canonical (h : Shrinks s s') (hc : Canonical s) (hw : Wf s')
    (hmax : s'.activeMaxOrder = s.activeMaxOrder) : Canonical s' := by
  -- a block that entered the lists has a buddy with a page that is not free
  have hnew : ∀ {k a}, a ∈ s'.freeLists k → buddyOf a k ∈ s'.freeLists k → a ∈ s.freeLists k := by
    intro k a ha hb
    refine (h.busy ha).resolve_right ?_
    rintro ⟨p, hp, hz⟩
    have hle := tally_le_freeTally ((hw.order_le hb).trans hw.max_le) hb p
    rw [tally_eq_one hp] at hle
    omega
  intro k hk a ha hb
  refine hc k (hmax ▸ hk) a (hnew ha hb) (hnew hb ?_)
  rwa [buddyOf_buddyOf]

/-- Freeing merges far enough. -/
theorem Released.canonical (h : Released s s' phys order) (hc : Canonical s) : Canonical s' := by
  obtain ⟨j, b, -, -, hstop, hmem⟩ := h.merged
  rw [← h.activeMaxOrder] at hstop
  intro k hk a ha hb
  rcases hmem ha with hold | ⟨rfl, rfl⟩
  · rcases hmem hb with hold' | ⟨rfl, heq⟩
    · exact hc k (h.activeMaxOrder ▸ hk) a hold hold'
    · refine hstop hk ?_
      rwa [← heq, buddyOf_buddyOf]
  · exact hstop hk hb

/-! ### Carved pieces -/

/-- A piece of a carved range: it lies in the range, and if it could be a lower half, the range
ends before the upper one does. -/
structure Piece (m curr last k a : ℕ) : Prop where
  le : curr ≤ a
  fits : a + blockSize k ≤ last
  top : k < m → blockSize (k + 1) ∣ a → last < a + blockSize (k + 1)

theorem Piece.mono (h : Piece m curr' last k a) (hle : curr ≤ curr') :
    Piece m curr last k a := ⟨hle.trans h.le, h.fits, h.top⟩

/-- The order chosen by the loop makes the front of the range a piece. -/
theorem piece_rangeOrder (hc : pageSize ∣ curr) (hl : pageSize ∣ last) (hlt : curr < last)
    (hmax : last ≤ uint64Max) : Piece m curr last (rangeOrder m curr last) curr := by
  have hfit := blockSize_rangeOrder_le (m := m) hc hl hlt
  refine ⟨le_rfl, by omega, fun hk hdvd => ?_⟩
  by_contra hge
  -- there is room for the next order, so the alignment of `curr` stopped the loop
  have hroom : rangeOrder m curr last < Nat.log2 ((last - curr) >>> 12) := by
    have hshift : (last - curr) >>> 12 = (last - curr) / pageSize := by
      rw [Nat.shiftRight_eq_div_pow]
      rfl
    have hle : 2 ^ (rangeOrder m curr last + 1) ≤ (last - curr) / pageSize := by
      rw [Nat.le_div_iff_mul_le pageSize_pos]
      change blockSize _ ≤ _
      omega
    have hne : (last - curr) / pageSize ≠ 0 := by
      have := Nat.two_pow_pos (rangeOrder m curr last + 1)
      omega
    rw [hshift]
    exact (Nat.le_log2 hne).mpr hle
  have halign : rangeOrder m curr last = if curr = 0 then m else ctz (curr >>> 12) := by
    unfold rangeOrder at hk hroom ⊢
    simp only at hk hroom ⊢
    omega
  by_cases hzero : curr = 0
  · rw [if_pos hzero] at halign
    omega
  rw [if_neg hzero] at halign
  have hshift : curr >>> 12 = pfn curr := by
    rw [Nat.shiftRight_eq_div_pow]
    rfl
  rw [hshift] at halign
  have hne : pfn curr ≠ 0 := by
    intro h0
    have := pfn_mul_pageSize hc
    rw [h0, zero_mul] at this
    exact hzero this.symm
  have hlt64 : pfn curr < 2 ^ 64 := by
    unfold uint64Max at hmax
    omega
  refine not_two_pow_ctz_succ_dvd hne hlt64 ?_
  rw [← halign]
  exact two_pow_dvd_pfn hdvd

/-- Only pieces of the range enter the lists. -/
theorem carveLoop_mem {managed : Bool} (h : carveLoop managed fuel curr last s = .ok s')
    (hc : pageSize ∣ curr) (hl : pageSize ∣ last) (hmax : last ≤ uint64Max)
    (ha : a ∈ s'.freeLists k) : a ∈ s.freeLists k ∨ Piece s.activeMaxOrder curr last k a := by
  induction fuel generalizing curr s with
  | zero =>
    cases h
    exact .inl ha
  | succ fuel ih =>
    by_cases hlt : curr < last
    · obtain ⟨t, hpush, hrest⟩ := carveLoop_succ_ok h hlt
      have hpiece := piece_rangeOrder (m := s.activeMaxOrder) hc hl hlt hmax
      set order := rangeOrder s.activeMaxOrder curr last
      have hc' : pageSize ∣ curr + blockSize order := Nat.dvd_add hc (pageSize_dvd_blockSize _)
      have hmaxEq : t.activeMaxOrder = s.activeMaxOrder :=
        (pushBlock_ok hpush).2.2.2.activeMaxOrder.trans
          (listsOnly_addManaged s managed _).activeMaxOrder
      rcases ih hrest hc' with hmem | hp
      · rcases pushBlock_mem hpush hmem with ⟨rfl, rfl⟩ | hmem
        · exact .inr hpiece
        · exact .inl (freeLists_addManaged s .. ▸ hmem)
      · rw [hmaxEq] at hp
        exact .inr (hp.mono (Nat.le_add_right _ _))
    · rw [carveLoop, if_neg hlt] at h
      cases h
      exact .inl ha

theorem carveRange_mem {managed : Bool} (h : carveRange managed s start «end» = .ok s')
    (hmax : «end» ≤ uint64Max) (ha : a ∈ s'.freeLists k) :
    a ∈ s.freeLists k ∨
      Piece s.activeMaxOrder (alignUp start pageSize) (alignDown «end» pageSize) k a := by
  rw [carveRange_eq managed s start hmax] at h
  exact carveLoop_mem h (dvd_alignUp _ _) (dvd_alignDown _ _) ((alignDown_le _ _).trans hmax) ha

/-- Two pieces of one range are not the halves of a block. -/
theorem Piece.not_upper (h : Piece m curr last k a) (hk : k < m) (hdvd : blockSize (k + 1) ∣ a) :
    ¬Piece m curr last k (a + blockSize k) := by
  intro hup
  have h1 := h.top hk hdvd
  have h2 := hup.fits
  rw [blockSize_succ] at h1
  omega

theorem carveRange_canonical {managed : Bool} (h : carveRange managed s start «end» = .ok s')
    (hw : Wf s) (hmax : «end» ≤ uint64Max) (hempty : ∀ k, s.freeLists k = []) : Canonical s' := by
  obtain ⟨hw', hf, -⟩ := carveRange_spec h hw hmax
  have hpiece : ∀ {k a}, a ∈ s'.freeLists k →
      Piece s.activeMaxOrder (alignUp start pageSize) (alignDown «end» pageSize) k a := by
    intro k a ha
    refine (carveRange_mem h hmax ha).resolve_left fun hold => ?_
    rw [hempty] at hold
    exact absurd hold not_mem_nil
  refine canonical_of_halves hw' fun hk hdvd ha hb => ?_
  rw [hf.activeMaxOrder] at hk
  exact (hpiece ha).not_upper hk hdvd (hpiece hb)

theorem addSpan_canonical {d : Bool} (hm : m ≤ maxOrderLimit) (hmax : «end» ≤ uint64Max)
    (h : addSpan (State.empty m t d) start «end» = .ok s) : Canonical s := by
  rw [addSpan_eq _ start hmax] at h
  obtain ⟨u, hu, h⟩ := ok_bind h
  have hu := carveRange_canonical hu (Wf.empty hm t d) ((mappedEnd_le d _).trans hmax) fun _ => rfl
  obtain rfl := putOff_ok h
  exact hu

theorem add_le_of_dvd_of_lt (ha : n ∣ a) (hb : n ∣ b) (h : a < b) : a + n ≤ b :=
  ((Nat.modEq_zero_iff_dvd.mpr ha).trans (Nat.modEq_zero_iff_dvd.mpr hb).symm).add_le_of_lt h

/-- A block that properly lies inside a larger one has its common block with the buddy there
too. -/
theorem parent_inside (hblock : blockSize i ∣ block) (hdvd : blockSize (k + 1) ∣ a)
    (hb : b = a ∨ b = a + blockSize k) (hle : block ≤ b)
    (hfit : b + blockSize k ≤ block + blockSize i)
    (hproper : block < b ∨ b + blockSize k < block + blockSize i) :
    block ≤ a ∧ a + blockSize (k + 1) ≤ block + blockSize i := by
  have hki : k + 1 ≤ i := by
    by_contra hge
    have hik : blockSize i ≤ blockSize k :=
      Nat.le_of_dvd (blockSize_pos _) (blockSize_dvd_blockSize (by omega))
    omega
  have hblock' : blockSize (k + 1) ∣ block := Dvd.dvd.trans (blockSize_dvd_blockSize hki) hblock
  have hend : blockSize (k + 1) ∣ block + blockSize i :=
    Nat.dvd_add hblock' (blockSize_dvd_blockSize hki)
  have hpos := blockSize_pos k
  have hsucc := blockSize_succ k
  refine ⟨?_, add_le_of_dvd_of_lt hdvd hend (by omega)⟩
  by_contra hlt
  have := add_le_of_dvd_of_lt hdvd hblock' (not_le.mp hlt)
  omega

/-- Where the pages of an address range lie. -/
theorem covers_of_addr (hle : a ≤ x) (hlt : x < a + blockSize k) (ha : pageSize ∣ a) :
    Covers (pfn a) k (pfn x) := by
  have h1 : pfn a ≤ pfn x := Nat.div_le_div_right hle
  refine ⟨h1, ?_⟩
  rw [← pfn_add_blockSize]
  exact Nat.div_lt_div_of_lt_of_dvd (Nat.dvd_add ha (pageSize_dvd_blockSize k)) hlt

/-- Carving around a candidate keeps the lists canonical. -/
theorem Carved.canonical {t u : State} {rest : List ℕ}
    (h : Carved s t u s' i block blockEnd candidate order rest)
    (hh : Holds s i block blockEnd candidate order) (hw : Wf s) (hle : ∀ p, freeTally s p ≤ 1)
    (hc : Canonical s) : Canonical u := by
  obtain ⟨hwu, hfu, hcov⟩ := h.lists hh hw
  have hba := hw.aligned hh.mem
  have hca := pageSize_dvd_of_blockSize_dvd hh.aligned
  have hend := hh.end_le
  have hfits := hh.fits
  have hlo := hh.le
  have hpos := blockSize_pos order
  have hwd := dropBlock_wf hw h.perm
  obtain ⟨hwt, hft, -⟩ := carveRange_spec h.before hwd (by omega)
  -- where the blocks of `u` come from
  have hmem : ∀ {k a}, a ∈ u.freeLists k → a ∈ (dropBlock s i rest).freeLists k ∨
      Piece s.activeMaxOrder block candidate k a ∨
      Piece s.activeMaxOrder (candidate + blockSize order) blockEnd k a := by
    intro k a ha
    rcases carveRange_mem h.after hend ha with ht | hp
    · rcases carveRange_mem h.before (by omega) ht with hd | hp
      · exact .inl hd
      · rw [alignUp_of_dvd pageSize_pos (pageSize_dvd_of_blockSize_dvd hba),
          alignDown_of_dvd hca] at hp
        exact .inr (.inl hp)
    · rw [alignUp_of_dvd pageSize_pos (Nat.dvd_add hca (pageSize_dvd_blockSize _)),
        alignDown_of_dvd (by
          rw [hh.end_eq]
          exact Nat.dvd_add (pageSize_dvd_of_blockSize_dvd hba) (pageSize_dvd_blockSize _)),
        hft.activeMaxOrder] at hp
      exact .inr (.inr hp)
  -- a block that stayed in the lists does not start inside the carved block
  have hout : ∀ {k a}, a ∈ (dropBlock s i rest).freeLists k → ¬(block ≤ a ∧ a < blockEnd) := by
    rintro k a ha ⟨h1, h2⟩
    have hcovers := covers_of_addr h1 (hh.end_eq ▸ h2) (pageSize_dvd_of_blockSize_dvd hba)
    have h3 := dropBlock_freeTally hw h.perm (pfn a)
    rw [tally_eq_one hcovers] at h3
    have h4 := freeTally_pfn_pos hwd ha
    have h5 := hle (pfn a)
    omega
  refine canonical_of_halves hwu fun {k a} hk hdvd ha hb => ?_
  rw [hfu.activeMaxOrder] at hk
  have hsucc := blockSize_succ k
  have hkpos := blockSize_pos k
  rcases hmem ha with hold | hp | hp
  · rcases hmem hb with hold' | hp' | hp'
    · have ha' := dropBlock_mem h.perm hold
      refine hc k hk a ha' ?_
      rw [buddyOf_of_dvd hdvd]
      exact dropBlock_mem h.perm hold'
    · have hin := parent_inside hba hdvd (.inr rfl) hp'.le
        (by have := hp'.fits; rw [← hh.end_eq]; omega)
        (.inr (by have := hp'.fits; rw [← hh.end_eq]; omega))
      rw [← hh.end_eq] at hin
      exact hout hold ⟨hin.1, by omega⟩
    · have hin := parent_inside hba hdvd (.inr rfl) (by have := hp'.le; omega)
        (by have := hp'.fits; rw [← hh.end_eq]; omega) (.inl (by have := hp'.le; omega))
      rw [← hh.end_eq] at hin
      exact hout hold ⟨hin.1, by omega⟩
  · -- the upper half would contain the candidate
    have htop := hp.top hk hdvd
    have hfit := hp.fits
    have hcovers : Covers (pfn (a + blockSize k)) k (pfn candidate) :=
      covers_of_addr (by omega) (by omega) (pageSize_dvd_of_blockSize_dvd (hwu.aligned hb))
    have h1 := tally_le_freeTally ((hwu.order_le hb).trans hwu.max_le) hb (pfn candidate)
    have h2 := hcov (pfn candidate)
    have h3 := hle (pfn candidate)
    rw [tally_eq_one hcovers] at h1
    rw [tally_eq_one (covers_start _ _)] at h2
    omega
  · -- the range ends with the block, and so does the common block at the latest
    have htop := hp.top hk hdvd
    have hlow := hp.le
    have hin := parent_inside hba hdvd (.inl rfl) (by omega)
      (by have := hp.fits; rw [← hh.end_eq]; omega) (.inl (by omega))
    rw [← hh.end_eq] at hin
    omega

/-! ### Every operation keeps the lists canonical -/

theorem OpStep.canonical {st st' : State × List Block} (h : OpStep st st') (hr : RunInv managed st)
    (hc : Canonical st.1) : Canonical st'.1 := by
  have hr' := h.runInv hr
  have hw' := hr'.inv.sound.wf
  cases h with
  | alloc h =>
    obtain ⟨hshr, hres⟩ := alloc_spec h hr.inv
    refine hshr.canonical hc hw' ?_
    rcases hres with ⟨-, -, hmax, -⟩ | ⟨-, -, hal⟩
    · exact hmax
    · exact hal.activeMaxOrder
  | @allocConstrained s s' live size phys allocated c h =>
    rcases allocConstrained_cases h hr.inv.sound.wf with
      ⟨-, -, rfl⟩ | ⟨-, ho, -, i, block, blockEnd, hh, hcarve, -⟩
    · exact hc
    obtain ⟨t, u, rest, hcar⟩ := carveCandidate_ok hcarve (ho.trans hr.inv.sound.wf.max_le)
    obtain ⟨-, hfu, -⟩ := hcar.lists hh hr.inv.sound.wf
    obtain ⟨hal, hshr⟩ := hcar.allocated hh hr.inv ho
    exact hshr.canonical (hcar.canonical hh hr.inv.sound.wf hr.inv.freeTally_le_one hc) hw'
      (hal.activeMaxOrder.trans hfu.activeMaxOrder.symm)
  | free hb hsize horder h => exact (hr.free hb hsize horder h).canonical hc
  | refPage hb hp h =>
    have hmd := (refPage_spec h hr.inv.sound).1
    exact hmd.shrinks.canonical hc hw' hmd.activeMaxOrder
  | unrefPage hb hp h =>
    have hun := hr.unrefPage hb hp h
    split at hun
    · exact hun.canonical hc
    · exact hun.1.shrinks.canonical hc hw' hun.1.activeMaxOrder

/-! ### Canonical lists are determined by the free pages -/

/-- The pages covered by the free blocks. -/
def freePages (s : State) : Set ℕ := {p | 0 < freeTally s p}

/-- The block addresses of order `k` in the canonical decomposition of a set of pages. -/
def canonicalBlocks (m : ℕ) (pages : Set ℕ) (k : ℕ) : Set ℕ :=
  {a | ∃ x ∈ maximal m pages k, a = x * pageSize}

/-- The free lists as a family of dyadic blocks of pages. -/
def freeFamily (s : State) (k : ℕ) : Set ℕ := {x | x * pageSize ∈ s.freeLists k}

theorem freeTally_pos_iff (hw : Wf s) :
    0 < freeTally s p ↔ ∃ k, ∃ a ∈ s.freeLists k, Covers (pfn a) k p := by
  rw [← blocksTally_freeBlocks, blocksTally_pos_iff]
  unfold freeBlocks
  simp only [mem_flatMap, mem_map, List.mem_range]
  constructor
  · rintro ⟨b, ⟨k, -, a, ha, rfl⟩, hp⟩
    exact ⟨k, a, ha, hp⟩
  · rintro ⟨k, a, ha, hp⟩
    have := (hw.order_le ha).trans hw.max_le
    exact ⟨⟨a, k⟩, ⟨k, by omega, a, ha, rfl⟩, hp⟩

theorem mem_freeFamily (hw : Wf s) (ha : a ∈ s.freeLists k) : pfn a ∈ freeFamily s k := by
  show pfn a * pageSize ∈ s.freeLists k
  rwa [pfn_mul_pageSize (pageSize_dvd_of_blockSize_dvd (hw.aligned ha))]

theorem support_freeFamily (hw : Wf s) : support (freeFamily s) = freePages s := by
  ext p
  rw [freePages, Set.mem_ofPred_eq, freeTally_pos_iff hw]
  constructor
  · rintro ⟨k, x, hx, hp⟩
    exact ⟨k, x * pageSize, hx, by rwa [pfn_mul]⟩
  · rintro ⟨k, a, ha, hp⟩
    exact ⟨k, pfn a, mem_freeFamily hw ha, hp⟩

/-- Two free blocks that share a page would cover it twice. -/
theorem freeFamily_family (hw : Wf s) (hle : ∀ p, freeTally s p ≤ 1) :
    Family s.activeMaxOrder (freeFamily s) where
  aligned {k x} hx := by
    have := two_pow_dvd_pfn (hw.aligned hx)
    rwa [pfn_mul] at this
  order_le hx := hw.order_le hx
  disjoint {k l x y p} hx hy hxp hyp := by
    have hdis := pairwise_of_blocksTally_le_one (l := freeBlocks s) fun q => by
      rw [blocksTally_freeBlocks]
      exact hle q
    have hmem : ∀ {j z}, z ∈ freeFamily s j → (⟨z * pageSize, j⟩ : Block) ∈ freeBlocks s := by
      intro j z hz
      have := (hw.order_le hz).trans hw.max_le
      exact mem_flatMap.mpr ⟨j, List.mem_range.mpr (by omega), mem_map.mpr ⟨_, hz, rfl⟩⟩
    by_contra hne
    have hne' : (⟨x * pageSize, k⟩ : Block) ≠ ⟨y * pageSize, l⟩ := by
      intro heq
      obtain ⟨h1, h2⟩ := Block.mk.inj heq
      exact hne ⟨h2, Nat.eq_of_mul_eq_mul_right pageSize_pos h1⟩
    have hsym : Std.Symm fun a b : Block => ∀ q, a.HasPage q → ¬b.HasPage q :=
      ⟨fun _ _ hab q hb ha => hab q ha hb⟩
    refine hdis.forall (hmem hx) (hmem hy) hne' p ?_ ?_
    · rw [Block.HasPage, pfn_mul]
      exact hxp
    · rw [Block.HasPage, pfn_mul]
      exact hyp

theorem Canonical.freeFamily (hw : Wf s) (hc : Canonical s) :
    DyadicBlock.Canonical s.activeMaxOrder (freeFamily s) := by
  intro j hj x hx hb
  refine hc j hj _ hx ?_
  rw [pfn_buddyOf (hw.aligned hx), pfn_mul]
  exact hb

/-- **Uniqueness**: canonical lists are the canonical decomposition of the free pages. -/
theorem canonical_eq (hw : Wf s) (hle : ∀ p, freeTally s p ≤ 1) (hc : Canonical s) (k a : ℕ) :
    a ∈ s.freeLists k ↔ a ∈ canonicalBlocks s.activeMaxOrder (freePages s) k := by
  have heq := (freeFamily_family hw hle).eq_maximal (hc.freeFamily hw) k
  rw [support_freeFamily hw] at heq
  unfold canonicalBlocks
  rw [← heq, Set.mem_ofPred_eq]
  constructor
  · intro ha
    exact ⟨pfn a, mem_freeFamily hw ha,
      (pfn_mul_pageSize (pageSize_dvd_of_blockSize_dvd (hw.aligned ha))).symm⟩
  · rintro ⟨x, hx, rfl⟩
    exact hx

/-- The same free blocks, whatever the order of the lists. -/
def SameBlocks (s s' : State) : Prop := ∀ k a, a ∈ s.freeLists k ↔ a ∈ s'.freeLists k

theorem sameBlocks_of_freeTally_eq (hw : Wf s) (hw' : Wf s') (hle : ∀ p, freeTally s p ≤ 1)
    (hc : Canonical s) (hc' : Canonical s') (hmax : s'.activeMaxOrder = s.activeMaxOrder)
    (heq : ∀ p, freeTally s' p = freeTally s p) : SameBlocks s s' := by
  intro k a
  have hpages : freePages s' = freePages s := by
    unfold freePages
    simp only [heq]
  rw [canonical_eq hw hle hc, canonical_eq hw' (fun p => (heq p).le.trans (hle p)) hc', hmax,
    hpages]

/-! ### Orders of release -/

/-- Frees blocks one after the other, each with its own size. -/
def freeAll (s : State) (frees : List (Block × ℕ)) : Except String State :=
  frees.foldlM (fun s x => free s x.1.addr x.2) s

/-- Drops one reference after the other, to pages given by their number. -/
def unrefAll (s : State) (pages : List ℕ) : Except String State :=
  pages.foldlM (fun s p => unrefPage s (p * pageSize)) s

/-- What a sequence of releases ends with: canonical lists and the given pages free on top. -/
structure Ended (s s' : State) (added : ℕ → ℕ) : Prop where
  wf : Wf s'
  canonical : Canonical s'
  activeMaxOrder : s'.activeMaxOrder = s.activeMaxOrder
  le_one : ∀ p, freeTally s' p ≤ 1
  cover : ∀ p, freeTally s' p = freeTally s p + added p

/-- Two sequences of releases that free the same pages end with the same blocks. -/
theorem Ended.sameBlocks {t t' : State} (h : Ended s t added)
    (h' : Ended s t' added') (heq : ∀ p, added p = added' p) : SameBlocks t t' :=
  sameBlocks_of_freeTally_eq h.wf h'.wf h.le_one h.canonical h'.canonical
    (h'.activeMaxOrder.trans h.activeMaxOrder.symm) fun p => by rw [h.cover, h'.cover, heq]

theorem freeAll_ended {frees : List (Block × ℕ)} (hi : Inv managed live s) (hc : Canonical s)
    (hx : ∀ x ∈ frees, x.2 ≠ 0 ∧ sizeToOrder x.2 = x.1.order ∧ x.1.order ≤ s.activeMaxOrder ∧
      blockSize x.1.order ∣ x.1.addr ∧ x.1.addr ≠ 0)
    (hle : ∀ p, blocksTally (frees.map Prod.fst) p ≤ live p) :
    ∃ s', freeAll s frees = .ok s' ∧ Ended s s' (blocksTally (frees.map Prod.fst)) := by
  induction frees generalizing s live with
  | nil => exact ⟨s, rfl, hi.sound.wf, hc, rfl, hi.freeTally_le_one, fun p => (add_zero _).symm⟩
  | cons x frees ih =>
    obtain ⟨hsize, horder, hmax, ha, hne⟩ := hx x mem_cons_self
    obtain ⟨t, hfree, hrel⟩ := free_released hi.sound.wf hi.sound.refs.tree hne hsize
      (horder ▸ hmax) (horder ▸ ha)
    rw [horder] at hrel
    have hle' : ∀ p, tally (pfn x.1.addr) x.1.order p + blocksTally (frees.map Prod.fst) p ≤
        live p := fun p => by
      exact hle p
    have hi' := hrel.inv hi fun p => by have := hle' p; omega
    obtain ⟨s', hrest, hend⟩ := ih hi' (hrel.canonical hc) (fun y hy => by
        rw [hrel.activeMaxOrder]
        exact hx y (mem_cons_of_mem _ hy))
      fun p => by have := hle' p; omega
    refine ⟨s', ?_, hend.wf, hend.canonical, hend.activeMaxOrder.trans hrel.activeMaxOrder,
      hend.le_one, fun p => ?_⟩
    · unfold freeAll
      rw [foldlM_cons, hfree]
      exact hrest
    · rw [hend.cover, hrel.cover, map_cons, blocksTally_cons, add_assoc]

theorem unrefAll_ended {pages : List ℕ} (hi : Inv managed live s) (hc : Canonical s)
    (hlive : ∀ p ∈ pages, live p = 1 ∧ p ≠ 0)
    (hcount : ∀ p ∈ pages, pages.count p = max 1 (getRef s (p * pageSize))) :
    ∃ s', unrefAll s pages = .ok s' ∧ Ended s s' fun p => if p ∈ pages then 1 else 0 := by
  induction pages generalizing s live with
  | nil => exact ⟨s, rfl, hi.sound.wf, hc, rfl, hi.freeTally_le_one, fun p => by simp⟩
  | cons p pages ih =>
    obtain ⟨hp1, hp0⟩ := hlive p mem_cons_self
    have hcp := hcount p mem_cons_self
    rw [count_cons_self] at hcp
    by_cases hone : 1 < getRef s (p * pageSize)
    · -- not the last reference: the page stays, and occurs again in the list
      obtain ⟨t, hun, hmd, hlists, -, hget⟩ := unrefPage_of_one_lt hi.sound hone
      have hmem : p ∈ pages := count_pos_iff.mp (by omega)
      obtain ⟨s', hrest, hend⟩ := ih (hi.metadata hmd)
        (hmd.shrinks.canonical hc hmd.sound.wf hmd.activeMaxOrder)
        (fun q hq => hlive q (mem_cons_of_mem _ hq)) (fun q hq => by
          have hcq := hcount q (mem_cons_of_mem _ hq)
          rw [hget, pfn_mul, pfn_mul]
          by_cases hqp : q = p
          · subst hqp
            rw [if_pos rfl]
            omega
          · rw [if_neg hqp, ← hcq, count_cons_of_ne (Ne.symm hqp)])
      refine ⟨s', ?_, hend.wf, hend.canonical, hend.activeMaxOrder.trans hmd.activeMaxOrder,
        hend.le_one, fun q => ?_⟩
      · unfold unrefAll
        rw [foldlM_cons, hun]
        exact hrest
      have hiff : q ∈ p :: pages ↔ q ∈ pages := by
        rw [mem_cons]
        exact ⟨fun h => h.elim (fun e => e ▸ hmem) id, .inr⟩
      rw [hend.cover, freeTally_congr hlists]
      simp only [hiff]
    · -- the last reference frees the page, which does not occur again
      have hnot : p ∉ pages := count_eq_zero.mp (by omega)
      obtain ⟨slot, hslot⟩ := hi.slots (p * pageSize) (by rw [pfn_mul]; omega)
      have hne : p * pageSize ≠ 0 := mul_ne_zero hp0 pageSize_pos.ne'
      obtain ⟨t, hun, hrel⟩ := unrefPage_of_le_one hi.sound hslot (not_lt.mp hone) hne
        (Dvd.intro_left p rfl)
      have htally : ∀ q, tally (pfn (p * pageSize)) 0 q = if q = p then 1 else 0 := fun q => by
        rw [pfn_mul, tally_zero]
      have hi' := hrel.inv hi fun q => by
        rw [htally]
        split
        case isTrue hq => rw [hq, hp1]
        case isFalse => exact Nat.zero_le _
      obtain ⟨s', hrest, hend⟩ := ih hi' (hrel.canonical hc) (fun q hq => by
          have hqp : q ≠ p := fun h => hnot (h ▸ hq)
          rw [htally, if_neg hqp]
          exact hlive q (mem_cons_of_mem _ hq)) (fun q hq => by
          have hqp : q ≠ p := fun h => hnot (h ▸ hq)
          rw [hrel.getRef, pfn_mul, pfn_mul, if_neg (mt covers_zero_iff.mp hqp),
            ← hcount q (mem_cons_of_mem _ hq), count_cons_of_ne hqp.symm])
      refine ⟨s', ?_, hend.wf, hend.canonical, hend.activeMaxOrder.trans hrel.activeMaxOrder,
        hend.le_one, fun q => ?_⟩
      · unfold unrefAll
        rw [foldlM_cons, hun]
        exact hrest
      rw [hend.cover, hrel.cover, htally]
      by_cases hqp : q = p
      · subst hqp
        simp [hnot]
      · simp [hqp]

/-! ### The result -/

/-- A state that some sequence of operations reaches from an allocator built from disjoint
spans, with the blocks held in it. -/
def Reachable (s : State) (live : List Block) : Prop :=
  ∃ (m t : ℕ) (d : Bool) (spans : List (ℕ × ℕ)) (s₀ : State), m ≤ maxOrderLimit ∧
    (∀ span ∈ spans, span.2 ≤ uint64Max) ∧
    (spans.Pairwise fun a b => ∀ p, PageIn a.1 a.2 p → ¬PageIn b.1 b.2 p) ∧
    addSpans (State.empty m t d) spans = .ok s₀ ∧
    ReflTransGen OpStep (s₀, []) (s, live)

theorem Reachable.runInv {live : List Block} (h : Reachable s live) :
    ∃ managed, RunInv managed (s, live) ∧ ∀ p, 0 < managed p → (p + 1) * pageSize ≤ uint64Max := by
  obtain ⟨m, t, d, spans, s0, hm, hend, hdisj, hbuild, hrun⟩ := h
  refine ⟨_, run_invariant hrun (addSpans_runInv hm hend hdisj hbuild)
    fun hr hstep => hstep.runInv hr, fun p hp => ?_⟩
  obtain ⟨span, hspan, -, hle⟩ := managedTally_pos_iff.mp hp
  exact (hle.trans (mappedEnd_le d span.2)).trans (hend span hspan)

/-- Blocks held, each freed with its own size. -/
theorem RunInv.freeAll_ended {live rest : List Block} {frees : List (Block × ℕ)}
    (hr : RunInv managed (s, live)) (hc : Canonical s)
    (hperm : live.Perm (frees.map Prod.fst ++ rest))
    (hx : ∀ x ∈ frees, x.2 ≠ 0 ∧ sizeToOrder x.2 = x.1.order) :
    ∃ s', freeAll s frees = .ok s' ∧ Ended s s' (blocksTally (frees.map Prod.fst)) := by
  refine Pmm.freeAll_ended hr.inv hc (fun x hmem => ?_) fun p => ?_
  · have hlive : x.1 ∈ live := hperm.mem_iff.mpr (mem_append_left _ (mem_map_of_mem hmem))
    exact ⟨(hx x hmem).1, (hx x hmem).2, hr.order_le hlive, hr.aligned hlive, hr.addr_ne hlive⟩
  · have hsum : blocksTally live p = blocksTally (frees.map Prod.fst ++ rest) p :=
      (hperm.map _).sum_eq
    rw [blocksTally_append] at hsum
    simp only
    omega

/-- **Canonicity.** One span gives canonical lists. From a reachable state with canonical lists,
every sequence of operations leaves them canonical, so that the free blocks of each order are a
function of the free pages; freeing blocks held in two orders ends with the same free blocks; and
so do freeing a block and dropping the references of its pages in any order. -/
theorem buddy_canonicity :
    (∀ (m t : ℕ) (d : Bool) (start «end» : ℕ) (s : State), m ≤ maxOrderLimit →
      «end» ≤ uint64Max → addSpan (State.empty m t d) start «end» = .ok s → Canonical s) ∧
    ∀ (s : State) (live : List Block), Reachable s live → Canonical s →
      (∀ s' live', ReflTransGen OpStep (s, live) (s', live') → Canonical s' ∧
        ∀ k a, a ∈ s'.freeLists k ↔ a ∈ canonicalBlocks s'.activeMaxOrder (freePages s') k) ∧
      (∀ frees frees' rest, live.Perm (frees.map Prod.fst ++ rest) → frees.Perm frees' →
        (∀ x ∈ frees, x.2 ≠ 0 ∧ sizeToOrder x.2 = x.1.order) →
        ∃ t t', freeAll s frees = .ok t ∧ freeAll s frees' = .ok t' ∧ SameBlocks t t') ∧
      (∀ b ∈ live, ∀ size pages, size ≠ 0 → sizeToOrder size = b.order →
        (∀ p, p ∈ pages ↔ b.HasPage p) →
        (∀ p ∈ pages, pages.count p = max 1 (getRef s (p * pageSize))) →
        ∃ t t', unrefAll s pages = .ok t ∧ free s b.addr size = .ok t' ∧ SameBlocks t t') := by
  refine ⟨fun m t d start «end» s hm hend h => addSpan_canonical hm hend h,
    fun s live hreach hc => ?_⟩
  obtain ⟨managed, hr, -⟩ := hreach.runInv
  refine ⟨fun s' live' hrun => ?_, ?_, ?_⟩
  · obtain ⟨hr', hc'⟩ : RunInv managed (s', live') ∧ Canonical s' :=
      run_invariant (I := fun st => RunInv managed st ∧ Canonical st.1) hrun ⟨hr, hc⟩
        fun h hstep => ⟨hstep.runInv h.1, hstep.canonical h.1 h.2⟩
    exact ⟨hc', canonical_eq hr'.inv.sound.wf hr'.inv.freeTally_le_one hc'⟩
  · intro frees frees' rest hlive hperm hx
    have hperm' := hperm.map Prod.fst
    obtain ⟨t, ht, hend⟩ := hr.freeAll_ended hc hlive hx
    obtain ⟨t', ht', hend'⟩ := hr.freeAll_ended hc (hlive.trans (hperm'.append_right rest))
      fun x hmem => hx x (hperm.mem_iff.mpr hmem)
    exact ⟨t, t', ht, ht', hend.sameBlocks hend' fun p => (hperm'.map _).sum_eq⟩
  intro b hb size pages hsize horder hpages hcount
  have hfrees : live.Perm ([(b, size)].map Prod.fst ++ live.erase b) := perm_cons_erase hb
  obtain ⟨t', ht', hend'⟩ := hr.freeAll_ended hc hfrees (by simpa using ⟨hsize, horder⟩)
  have hlive : ∀ p ∈ pages, blocksTally live p = 1 ∧ p ≠ 0 := by
    intro p hp
    have hbp := (hpages p).mp hp
    refine ⟨?_, fun h0 => hr.page_ne_zero hb hbp (by rw [h0, zero_mul])⟩
    have h1 := hr.tally_le_one p
    have h2 : 0 < blocksTally live p := blocksTally_pos_iff.mpr ⟨b, hb, hbp⟩
    omega
  obtain ⟨t, ht, hend⟩ := unrefAll_ended hr.inv hc hlive hcount
  refine ⟨t, t', ht, ?_, hend.sameBlocks hend' fun p => ?_⟩
  · unfold freeAll at ht'
    obtain ⟨u, hu, hret⟩ := ok_bind ht'
    cases hret
    exact hu
  · rw [map_singleton, blocksTally_cons, blocksTally_nil, add_zero]
    split_ifs with hp
    · rw [tally_eq_one ((hpages p).mp hp)]
    · rw [tally_eq_zero (mt (hpages p).mpr hp)]

/-- Two pages handed out as one block, and given back one by one, the second page first. -/
theorem buddy_canonicity_two_pages :
    ∃ s t t', Reachable s [⟨8192, 1⟩] ∧ Canonical s ∧ unrefAll s [3, 2] = .ok t ∧
      free s 8192 8192 = .ok t' ∧ SameBlocks t t' := by
  have heval : (do
      let s ← addSpan (State.empty 2 32 false) 4096 65536
      let r ← alloc s 8192
      pure (r.1, getRef r.2 8192, getRef r.2 12288) :
        Except String (ℕ × ℕ × ℕ)).toOption = some (8192, 1, 1) := by
    decide +kernel
  obtain ⟨s₀, h0, h⟩ := ok_bind (ok_of_toOption heval)
  obtain ⟨⟨phys, s⟩, h1, h⟩ := ok_bind h
  obtain ⟨rfl, hrefs⟩ := Prod.mk.inj (Except.ok.inj h)
  obtain ⟨href, href'⟩ := Prod.mk.inj hrefs
  have hadd : addSpans (State.empty 2 32 false) [(4096, 65536)] = .ok s₀ := by
    unfold addSpans
    rw [foldlM_cons, h0]
    rfl
  have hreach : ∀ {s live}, ReflTransGen OpStep (s₀, []) (s, live) →
      Reachable s live := fun hrun =>
    ⟨2, 32, false, [(4096, 65536)], s₀, by decide, by simp [uint64Max], by simp, hadd, hrun⟩
  have hrun : ReflTransGen OpStep (s₀, []) (s, [⟨8192, 1⟩]) := .single (.alloc h1)
  have hc0 := buddy_canonicity.1 2 32 false 4096 65536 s₀ (by decide) (by decide) h0
  have hc := ((buddy_canonicity.2 s₀ [] (hreach .refl) hc0).1 s _ hrun).1
  obtain ⟨t, t', ht, ht', hsame⟩ := (buddy_canonicity.2 s _ (hreach hrun) hc).2.2 ⟨8192, 1⟩
    mem_cons_self 8192 [3, 2] (by decide) (by decide)
    (fun p => by
      have hiff : (⟨8192, 1⟩ : Block).HasPage p ↔ 2 ≤ p ∧ p < 4 := Iff.rfl
      rw [hiff]
      simp only [mem_cons, not_mem_nil, or_false]
      omega)
    (fun p hp => by
      simp only [mem_cons, not_mem_nil, or_false] at hp
      rcases hp with rfl | rfl
      · rw [show 3 * pageSize = 12288 from rfl, href']
        decide
      · rw [show 2 * pageSize = 8192 from rfl, href]
        decide)
  exact ⟨s, t, t', hreach hrun, hc, ht, ht', hsame⟩

end RHKernel.Pmm
