import RHKernel.Lib.Radix
import RHKernel.Memory.Pmm.Carve

/-!
# The reference-count tree

The counts live in a radix tree whose nodes are pages of the allocator itself. `refNext` reads
the model's table of entries as a successor function, so the general facts on radix trees apply:
two pages never share a slot, and a node added on demand changes no count that was there before.

`Metadata s s'` collects what an operation may do that only adds nodes to the tree: pages move
from the free lists into the tree, and everything else stays.
-/

namespace RHKernel.Pmm

open Bits DyadicBlock Function List Option Radix Step State

variable {level phys a n idx page c d chunk b block order : ℕ} {slot : ℕ × ℕ} {s' s t u : State}
  {node x : RefNode}

/-- Entry `idx` of a node. -/
def refNext (s : State) (node : RefNode) (idx : ℕ) : Option RefNode :=
  (s.refEntries.lookup (node, idx)).map .page

/-- The indices a chunk selects on its way down `level` levels. -/
def refDigits (chunk : ℕ) : ℕ → List ℕ
  | 0 => []
  | level + 1 => ((chunk >>> (level * refRadixBits)) &&& refRadixMask) :: refDigits chunk level

/-- The slot that holds the count of a page, if the tree has one. -/
def refSlot (s : State) (phys : ℕ) : Option (ℕ × ℕ) :=
  if s.totalPages ≤ pfn phys then none
  else if (pfn phys / refcountsPerLeaf) >>> (refRadixBits * refRadixLevels) ≠ 0 then none
  else
    match follow (refNext s) (refDigits (pfn phys / refcountsPerLeaf) refRadixLevels) .root with
    | some (.page leaf) => some (leaf, pfn phys % refcountsPerLeaf)
    | _ => none

theorem refNext_eq_some :
    refNext s node idx = some x ↔
      ∃ page, s.refEntries.lookup (node, idx) = some page ∧ x = .page page := by
  rw [refNext, map_eq_some_iff]
  exact exists_congr fun _ => and_congr_right fun _ => eq_comm

theorem length_refDigits (chunk level : ℕ) : (refDigits chunk level).length = level := by
  induction level with
  | zero => rfl
  | succ level ih => rw [refDigits, length_cons, ih]

/-- The indices determine the low bits of a chunk. -/
theorem mod_eq_of_refDigits_eq (h : refDigits c level = refDigits d level) :
    c % 2 ^ (refRadixBits * level) = d % 2 ^ (refRadixBits * level) := by
  induction level with
  | zero => simp [Nat.mod_one]
  | succ level ih =>
    rw [refDigits, refDigits, List.cons.injEq] at h
    have hhead := h.1
    rw [refRadixMask, Nat.and_two_pow_sub_one_eq_mod, Nat.and_two_pow_sub_one_eq_mod,
      Nat.shiftRight_eq_div_pow, Nat.shiftRight_eq_div_pow, mul_comm level] at hhead
    rw [Nat.mul_succ, pow_add, Nat.mod_mul, Nat.mod_mul, hhead, ih h.2]

theorem refSlot_eq_some :
    refSlot s phys = some slot ↔ pfn phys < s.totalPages ∧
      (pfn phys / refcountsPerLeaf) >>> (refRadixBits * refRadixLevels) = 0 ∧
      follow (refNext s) (refDigits (pfn phys / refcountsPerLeaf) refRadixLevels) .root =
        some (.page slot.1) ∧ slot.2 = pfn phys % refcountsPerLeaf := by
  unfold refSlot
  split
  case isTrue h =>
    simp only [reduceCtorEq, false_iff]
    omega
  case isFalse h =>
    split
    case isTrue h' => simp [h']
    case isFalse h' =>
      have hlt : pfn phys < s.totalPages := by omega
      simp only [hlt, true_and]
      rw [not_not] at h'
      simp only [h', true_and]
      split
      case h_1 leaf heq =>
        rw [heq]
        simp only [Option.some.injEq, RefNode.page.injEq]
        exact ⟨fun e => by rw [← e]; exact ⟨rfl, rfl⟩, fun e => by rw [e.1, ← e.2]⟩
      case h_2 hnone =>
        simp only [reduceCtorEq, false_iff]
        rintro ⟨e, -⟩
        exact hnone _ e

theorem refDescend_eq {create : Bool}
    (h : create = true → follow (refNext s) (refDigits chunk level) node ≠ none) :
    refDescend chunk create level node s =
      .ok (follow (refNext s) (refDigits chunk level) node, s) := by
  induction level generalizing node with
  | zero => rfl
  | succ level ih =>
    rw [refDigits, follow, refNext] at h ⊢
    rw [refDescend]
    unfold refChild
    cases hl : s.refEntries.lookup (node, (chunk >>> (level * refRadixBits)) &&& refRadixMask) with
    | none =>
      cases create with
      | false => rfl
      | true => simp [hl] at h
    | some page =>
      rw [hl] at h
      exact ih h

/-- Without `create`, and where the slot is there already, the walk only reads. -/
theorem getRefSlotLocked_eq {create : Bool} (h : create = true → refSlot s phys ≠ none) :
    getRefSlotLocked s phys create = .ok (refSlot s phys, s) := by
  unfold getRefSlotLocked refSlot at *
  rw [← pfn]
  by_cases hlt : s.totalPages ≤ pfn phys
  · simp only [if_pos hlt]
  by_cases hchunk : (pfn phys / refcountsPerLeaf) >>> (refRadixBits * refRadixLevels) ≠ 0
  · simp only [if_neg hlt, if_pos hchunk]
  simp only [if_neg hlt, if_neg hchunk] at h ⊢
  rw [refDescend_eq fun hc hnone => h hc (by rw [hnone])]
  cases follow (refNext s) (refDigits (pfn phys / refcountsPerLeaf) refRadixLevels) .root with
  | none => rfl
  | some node => cases node <;> rfl

theorem getRefSlotLocked_false (s : State) (phys : ℕ) :
    getRefSlotLocked s phys false = .ok (refSlot s phys, s) := getRefSlotLocked_eq nofun

theorem getRef_eq (s : State) (phys : ℕ) :
    getRef s phys = ((refSlot s phys).map fun slot => s.refLeaf slot.1 slot.2).getD 0 := by
  unfold getRef
  rw [getRefSlotLocked_false]
  cases refSlot s phys <;> rfl

theorem getRef_of_slot (h : refSlot s phys = some slot) :
    getRef s phys = s.refLeaf slot.1 slot.2 := by
  rw [getRef_eq, h]
  rfl

theorem getRef_of_none (h : refSlot s phys = none) : getRef s phys = 0 := by
  rw [getRef_eq, h]
  rfl

theorem refSlot_congr (h : pfn a = pfn b) : refSlot s a = refSlot s b := by
  unfold refSlot
  rw [h]

theorem pfn_eq_of_refSlot_eq (ht : IsTree (refNext s) .root) (ha : refSlot s a = some slot)
    (hb : refSlot s b = some slot) : pfn a = pfn b := by
  obtain ⟨-, ha1, ha2, ha3⟩ := refSlot_eq_some.mp ha
  obtain ⟨-, hb1, hb2, hb3⟩ := refSlot_eq_some.mp hb
  have hlen : (refDigits (pfn a / refcountsPerLeaf) refRadixLevels).length =
      (refDigits (pfn b / refcountsPerLeaf) refRadixLevels).length := by
    rw [length_refDigits, length_refDigits]
  have hdig := mod_eq_of_refDigits_eq (ht.follow_inj hlen ha2 hb2).2
  -- the chunks have no bits above those the digits select
  rw [Nat.shiftRight_eq_div_pow] at ha1 hb1
  have hpos := Nat.two_pow_pos (refRadixBits * refRadixLevels)
  rw [Nat.mod_eq_of_lt (Nat.lt_of_div_eq_zero hpos ha1),
    Nat.mod_eq_of_lt (Nat.lt_of_div_eq_zero hpos hb1)] at hdig
  rw [← Nat.div_add_mod (pfn a) refcountsPerLeaf, hdig, ← ha3, hb3, Nat.div_add_mod]

/-! ### Invariants -/

/-- How often the pages of the reference-count tree cover page `p`. -/
def metaTally (s : State) (p : ℕ) : ℕ := (s.refEntries.map fun e => tally (pfn e.2) 0 p).sum

/-- The table of entries is a tree of aligned pages, and a page with entries belongs to it. -/
structure RefWf (s : State) : Prop where
  tree : IsTree (refNext s) .root
  aligned : ∀ {e}, e ∈ s.refEntries → pageSize ∣ e.2
  nodes : ∀ {e a}, e ∈ s.refEntries → e.1.1 = .page a → a ∈ s.refEntries.map Prod.snd

/-- Lists and tree are well formed and share no page. -/
structure Sound (s : State) : Prop where
  wf : Wf s
  refs : RefWf s
  disjoint : ∀ p, freeTally s p + metaTally s p ≤ 1

/-- The free pages shrink, and a block enters a list only when its buddy has a page that is not
free. -/
structure Shrinks (s s' : State) : Prop where
  le : ∀ p, freeTally s' p ≤ freeTally s p
  busy : ∀ {k a}, a ∈ s'.freeLists k →
    a ∈ s.freeLists k ∨ ∃ p, Covers (pfn (buddyOf a k)) k p ∧ freeTally s' p = 0

theorem Shrinks.refl (s : State) : Shrinks s s := ⟨fun _ => le_rfl, .inl⟩

theorem Shrinks.trans (h1 : Shrinks s t) (h2 : Shrinks t u) : Shrinks s u where
  le p := (h2.le p).trans (h1.le p)
  busy ha := by
    rcases h2.busy ha with hold | hnew
    · rcases h1.busy hold with hold | ⟨p, hp, hz⟩
      · exact .inl hold
      · exact .inr ⟨p, hp, by have := h2.le p; omega⟩
    · exact .inr hnew

/-- Taking a block shrinks the free pages: the buddy of a half that is given back contains the
start of the block taken. -/
theorem Taken.shrinks (h : Taken s s' block order)
    (hle : ∀ p, freeTally s p ≤ 1) : Shrinks s s' where
  le p := by
    obtain ⟨lost, -, hcov⟩ := h.cover
    have := hcov p
    omega
  busy {k a} ha := by
    rcases h.halves ha with hold | ⟨hne, hdvd, rfl⟩
    · exact .inl hold
    refine .inr ⟨pfn block, ?_, ?_⟩
    · have hk : blockSize k ∣ block + blockSize k :=
        Nat.dvd_add (Dvd.dvd.trans (blockSize_dvd_blockSize (Nat.le_succ k)) hdvd) dvd_rfl
      rw [pfn_buddyOf hk, pfn_mul, pfn_add_blockSize, (buddy_eq_iff (two_pow_dvd_pfn hdvd)).2]
      exact covers_start _ _
    · obtain ⟨lost, -, hcov⟩ := h.cover
      have h1 := hcov (pfn block)
      have h2 := hle (pfn block)
      rw [if_neg hne, tally_eq_one (covers_start _ _)] at h1
      omega

/-- What an operation may do that only adds nodes to the tree. -/
structure Metadata (s s' : State) : Prop where
  sound : Sound s'
  shrinks : Shrinks s s'
  activeMaxOrder : s'.activeMaxOrder = s.activeMaxOrder
  totalPages : s'.totalPages = s.totalPages
  deferUnmappedSpans : s'.deferUnmappedSpans = s.deferUnmappedSpans
  deferredSpans : s'.deferredSpans = s.deferredSpans
  cover : ∃ lost : ℕ → ℕ, (freeTally s 0 = 0 → ∀ p, lost p = 0) ∧
    ∀ p, freeTally s' p + metaTally s' p + lost p = freeTally s p + metaTally s p
  next : ∀ {n i x}, refNext s n i = some x → refNext s' n i = some x

theorem Metadata.refl (hs : Sound s) : Metadata s s :=
  ⟨hs, .refl s, rfl, rfl, rfl, rfl, ⟨fun _ => 0, fun _ _ => rfl, fun _ => add_zero _⟩, id⟩

theorem Metadata.trans (h1 : Metadata s t) (h2 : Metadata t u) : Metadata s u where
  sound := h2.sound
  shrinks := h1.shrinks.trans h2.shrinks
  activeMaxOrder := h2.activeMaxOrder.trans h1.activeMaxOrder
  totalPages := h2.totalPages.trans h1.totalPages
  deferUnmappedSpans := h2.deferUnmappedSpans.trans h1.deferUnmappedSpans
  deferredSpans := h2.deferredSpans.trans h1.deferredSpans
  cover := by
    obtain ⟨lost, hlost, hcov⟩ := h1.cover
    obtain ⟨lost', hlost', hcov'⟩ := h2.cover
    refine ⟨fun p => lost p + lost' p, fun hz p => ?_, fun p => ?_⟩
    · have hz' : freeTally t 0 = 0 := by have := h1.shrinks.le 0; omega
      simp only [hlost hz, hlost' hz']
    · have h1 := hcov p
      have h2 := hcov' p
      simp only
      omega
  next h := h2.next (h1.next h)

theorem follow_mono (hnext : ∀ {n i x}, refNext s n i = some x → refNext s' n i = some x)
    {p : List ℕ} {n x : RefNode} (h : follow (refNext s) p n = some x) :
    follow (refNext s') p n = some x := by
  induction p generalizing n with
  | nil => exact h
  | cons i p ih =>
    obtain ⟨m, hm, hp⟩ := follow_cons_eq_some.mp h
    exact follow_cons_eq_some.mpr ⟨m, hnext hm, ih hp⟩

theorem Metadata.refSlot (h : Metadata s s') (hs : refSlot s phys = some slot) :
    refSlot s' phys = some slot := by
  obtain ⟨h1, h2, h3, h4⟩ := refSlot_eq_some.mp hs
  exact refSlot_eq_some.mpr ⟨by rwa [h.totalPages], h2, follow_mono h.next h3, h4⟩

/-! ### Adding a node -/

theorem mem_of_refNext (h : refNext s node idx = some (.page page)) :
    ((node, idx), page) ∈ s.refEntries := by
  obtain ⟨_, hl, hp⟩ := refNext_eq_some.mp h
  cases hp
  obtain ⟨l1, l2, heq, -⟩ := lookup_eq_some_iff.mp hl
  rw [heq]
  exact mem_append_right _ mem_cons_self

/-- A path of at least one step ends in a page of the tree. -/
theorem follow_mem_refEntries {path : List ℕ} (hpath : path ≠ [])
    (h : follow (refNext s) path node = some (.page page)) : page ∈ s.refEntries.map Prod.snd := by
  induction path generalizing node with
  | nil => exact absurd rfl hpath
  | cons i path ih =>
    obtain ⟨m, hm, hrest⟩ := follow_cons_eq_some.mp h
    cases path with
    | nil =>
      rw [follow_nil, Option.some.injEq] at hrest
      subst hrest
      exact mem_map.mpr ⟨_, mem_of_refNext hm, rfl⟩
    | cons j path => exact ih (cons_ne_nil _ _) hrest

theorem metaTally_pfn_pos (h : page ∈ s.refEntries.map Prod.snd) : 0 < metaTally s (pfn page) := by
  obtain ⟨e, he, rfl⟩ := mem_map.mp h
  have hle : tally (pfn e.2) 0 (pfn e.2) ≤ metaTally s (pfn e.2) :=
    single_le_sum (by simp) _ (mem_map.mpr ⟨e, he, rfl⟩)
  exact lt_of_lt_of_le (tally_pos_iff.mpr (covers_start _ _)) hle

theorem refNext_congr (h : s'.refEntries = s.refEntries) : refNext s' = refNext s := by
  unfold refNext
  rw [h]

theorem metaTally_congr (h : s'.refEntries = s.refEntries) : metaTally s' = metaTally s := by
  unfold metaTally
  rw [h]

theorem RefWf.congr (hr : RefWf s) (h : s'.refEntries = s.refEntries) : RefWf s' := by
  refine ⟨?_, ?_, ?_⟩
  · rw [refNext_congr h]
    exact hr.tree
  · rw [h]
    exact hr.aligned
  · rw [h]
    exact hr.nodes

theorem ListsOnly.refSlot (h : ListsOnly s s') (phys : ℕ) : refSlot s' phys = refSlot s phys := by
  unfold Pmm.refSlot
  rw [refNext_congr h.refEntries, h.totalPages]

theorem ListsOnly.getRef (h : ListsOnly s s') (phys : ℕ) : getRef s' phys = getRef s phys := by
  rw [getRef_eq, getRef_eq, h.refSlot, h.refLeaf]

/-- A page taken from the lists is not a node of the tree. -/
theorem Taken.not_mem_refEntries (ht : Taken s t page order) (hs : Sound s)
    (hne : page ≠ 0) : page ∉ s.refEntries.map Prod.snd := by
  intro hmem
  obtain ⟨lost, -, hcov⟩ := ht.cover
  have h1 := hcov (pfn page)
  rw [if_neg hne, tally_eq_one (covers_start _ _)] at h1
  have h2 := metaTally_pfn_pos hmem
  have h3 := hs.disjoint (pfn page)
  omega

/-- A metadata page comes off the lists and is cleared; it held no entries, so clearing it
changes none. -/
theorem allocMetadataPageLocked_spec {r : Option ℕ} (h : allocMetadataPageLocked s = .ok (r, s'))
    (hs : Sound s) :
    (r = none ∧ Taken s s' 0 0) ∨ ∃ page t, r = some page ∧ page ≠ 0 ∧ Taken s t page 0 ∧
      s' = { t with refLeaf := update t.refLeaf page fun _ => 0 } := by
  obtain ⟨⟨block, t⟩, htake, hret⟩ := ok_bind h
  have ht := takeBlock_spec htake hs.wf
  by_cases hzero : block = 0
  · subst hzero
    cases hret
    exact .inl ⟨rfl, ht⟩
  simp only [hzero, if_false] at hret
  cases hret
  refine .inr ⟨block, t, rfl, hzero, ht, ?_⟩
  have hfilter : (t.refEntries.filter fun e => e.1.1 ≠ RefNode.page block) = t.refEntries := by
    rw [filter_eq_self]
    intro e he
    rw [ht.frame.refEntries] at he
    have hne : e.1.1 ≠ .page block := fun heq =>
      ht.not_mem_refEntries hs hzero (hs.refs.nodes he heq)
    simp [hne]
  rw [hfilter]

theorem Taken.metadata (ht : Taken s s' 0 0) (hs : Sound s) : Metadata s s' := by
  obtain ⟨lost, hlost, hcov⟩ := ht.cover
  simp only [if_true, add_zero] at hcov
  have hmeta := metaTally_congr ht.frame.refEntries
  have hle : ∀ p, freeTally s p ≤ 1 := fun p => by have := hs.disjoint p; omega
  refine ⟨⟨ht.wf, hs.refs.congr ht.frame.refEntries, fun p => ?_⟩, ht.shrinks hle,
    ht.frame.activeMaxOrder, ht.frame.totalPages, ht.frame.deferUnmappedSpans,
    ht.frame.deferredSpans, ⟨lost, hlost, fun p => ?_⟩, ?_⟩
  · have h1 := hcov p
    have h2 := hs.disjoint p
    rw [hmeta]
    omega
  · have h1 := hcov p
    rw [hmeta]
    omega
  · rw [refNext_congr ht.frame.refEntries]
    exact id

/-- A node reached by the walk: the root or a page of the tree. -/
def IsNode (s : State) (node : RefNode) : Prop :=
  node = .root ∨ ∃ a, node = .page a ∧ a ∈ s.refEntries.map Prod.snd

/-- The state after entry `idx` of `node` has been filled with the cleared page. -/
def State.addRefNode (t : State) (node : RefNode) (idx page : ℕ) : State :=
  { t with
    refLeaf := update t.refLeaf page fun _ => 0
    refEntries := ((node, idx), page) :: t.refEntries }

section AddRefNode

variable {s t : State} {node : RefNode} {idx page : ℕ}

variable (ht : Taken s t page 0)

include ht

/-- In terms of successor functions the tree grows by one fresh node. -/
theorem grows_addRefNode (hs : Sound s) (hne : page ≠ 0)
    (hnode : IsNode s node) (hnull : s.refEntries.lookup (node, idx) = none) :
    Grows (refNext s) (refNext (t.addRefNode node idx page)) node idx (.page page) := by
  have hnot := ht.not_mem_refEntries hs hne
  have hent := ht.frame.refEntries
  refine ⟨?_, ?_, ?_, ?_, ?_, ?_⟩
  · rw [refNext, hnull, map_none]
  · rw [refNext, addRefNode, lookup_cons_self, map_some]
  · intro m j hmj
    have hbeq : ((m, j) == (node, idx)) = false := by simpa using hmj
    rw [refNext, addRefNode, lookup_cons, hbeq, hent, refNext]
  · rcases hnode with rfl | ⟨a, rfl, ha⟩
    · exact RefNode.noConfusion
    · intro heq
      cases heq
      exact hnot ha
  · intro j
    cases hnext : refNext s (.page page) j with
    | none => rfl
    | some x =>
      obtain ⟨q, -, rfl⟩ := refNext_eq_some.mp hnext
      exact absurd (hs.refs.nodes (mem_of_refNext hnext) rfl) hnot
  · intro m j hnext
    exact hnot (mem_map.mpr ⟨_, mem_of_refNext hnext, rfl⟩)

theorem metaTally_addRefNode (p : ℕ) :
    metaTally (t.addRefNode node idx page) p = tally (pfn page) 0 p + metaTally s p := by
  unfold metaTally addRefNode
  rw [map_cons, sum_cons, ht.frame.refEntries]

variable (hs : Sound s) (hne : page ≠ 0) (hnode : IsNode s node)
  (hnull : s.refEntries.lookup (node, idx) = none)

include hs hne hnode hnull

theorem refWf_addRefNode : RefWf (t.addRefNode node idx page) := by
  refine ⟨(grows_addRefNode ht hs hne hnode hnull).isTree hs.refs.tree RefNode.noConfusion, ?_, ?_⟩
  · intro e he
    rcases mem_cons.mp he with rfl | he
    · exact blockSize_zero ▸ ht.aligned hne
    · exact hs.refs.aligned (ht.frame.refEntries ▸ he)
  · intro e a he hea
    rw [addRefNode, map_cons, ht.frame.refEntries]
    refine mem_cons_of_mem _ ?_
    rcases mem_cons.mp he with rfl | he
    · rcases hnode with rfl | ⟨b, rfl, hb⟩
      · cases hea
      · cases hea
        exact hb
    · exact hs.refs.nodes (ht.frame.refEntries ▸ he) hea

theorem metadata_addRefNode : Metadata s (t.addRefNode node idx page) := by
  obtain ⟨lost, hlost, hcov⟩ := ht.cover
  simp only [hne, if_false] at hcov
  have hle : ∀ p, freeTally s p ≤ 1 := fun p => by have := hs.disjoint p; omega
  -- the lists are those of `t`
  have hfree : ∀ p, freeTally (t.addRefNode node idx page) p = freeTally t p := fun _ => rfl
  have hwf : Wf (t.addRefNode node idx page) :=
    ⟨ht.wf.max_le, ht.wf.order_le, ht.wf.aligned, ht.wf.counts, ht.wf.mask, ht.wf.bytes⟩
  have hshr := ht.shrinks hle
  refine ⟨⟨hwf, refWf_addRefNode ht hs hne hnode hnull, fun p => ?_⟩, ⟨hshr.le, hshr.busy⟩,
    ht.frame.activeMaxOrder, ht.frame.totalPages, ht.frame.deferUnmappedSpans,
    ht.frame.deferredSpans, ⟨lost, hlost, fun p => ?_⟩,
    (grows_addRefNode ht hs hne hnode hnull).next_of_old⟩
  · have h1 := hcov p
    have h2 := hs.disjoint p
    rw [hfree, metaTally_addRefNode ht]
    omega
  · have h1 := hcov p
    rw [hfree, metaTally_addRefNode ht]
    omega

/-- A cleared page changes no count: where a slot is new it reads zero, as no slot did. -/
theorem getRef_addRefNode (phys : ℕ) :
    getRef (t.addRefNode node idx page) phys = getRef s phys := by
  have hg := grows_addRefNode ht hs hne hnode hnull
  have hmd := metadata_addRefNode ht hs hne hnode hnull
  have hnot := ht.not_mem_refEntries hs hne
  -- no slot of the old tree lies in the new page
  have hleaf : ∀ {slot}, refSlot s phys = some slot → slot.1 ≠ page := by
    rintro slot hslot rfl
    obtain ⟨-, -, hfol, -⟩ := refSlot_eq_some.mp hslot
    exact hnot (follow_mem_refEntries (by simp [refDigits, refRadixLevels]) hfol)
  rcases hold : refSlot s phys with _ | slot
  swap
  · rw [getRef_of_slot hold, getRef_of_slot (hmd.refSlot hold)]
    simp only [addRefNode, update_of_ne (hleaf hold), ht.frame.refLeaf]
  rw [getRef_of_none hold]
  rcases hnew : refSlot (t.addRefNode node idx page) phys with _ | slot
  · exact getRef_of_none hnew
  obtain ⟨h1, h2, h3, h4⟩ := refSlot_eq_some.mp hnew
  have hpage : slot.1 = page := by
    rcases hg.follow_cases h3 with heq | hfol
    · exact RefNode.page.inj heq
    · rw [refSlot_eq_some.mpr ⟨ht.frame.totalPages ▸ h1, h2, hfol, h4⟩] at hold
      cases hold
  rw [getRef_of_slot hnew, hpage]
  simp only [addRefNode, update_self]

end AddRefNode

/-! ### The walk that creates nodes -/

theorem refChild_spec {child : Option ℕ} (h : refChild s node idx true = .ok (child, s'))
    (hs : Sound s) (hnode : IsNode s node) :
    Metadata s s' ∧ (∀ phys, getRef s' phys = getRef s phys) ∧
      ∀ page, child = some page → refNext s' node idx = some (.page page) := by
  unfold refChild at h
  cases hl : s.refEntries.lookup (node, idx) with
  | some page =>
    rw [hl] at h
    cases h
    refine ⟨.refl hs, fun _ => rfl, ?_⟩
    rintro _ ⟨⟩
    exact refNext_eq_some.mpr ⟨page, hl, rfl⟩
  | none =>
    rw [hl] at h
    obtain ⟨⟨r, t⟩, halloc, hret⟩ := ok_bind h
    rcases allocMetadataPageLocked_spec halloc hs with ⟨rfl, ht⟩ | ⟨page, u, rfl, hne, ht, rfl⟩
    · cases hret
      exact ⟨ht.metadata hs, ht.frame.getRef, fun _ hc => by cases hc⟩
    · cases hret
      refine ⟨metadata_addRefNode ht hs hne hnode hl, getRef_addRefNode ht hs hne hnode hl, ?_⟩
      rintro _ ⟨⟩
      exact (grows_addRefNode ht hs hne hnode hl).filled

theorem refDescend_spec {r : Option RefNode}
    (h : refDescend chunk true level node s = .ok (r, s')) (hs : Sound s) (hnode : IsNode s node) :
    Metadata s s' ∧ (∀ phys, getRef s' phys = getRef s phys) ∧
      ∀ x, r = some x → follow (refNext s') (refDigits chunk level) node = some x := by
  induction level generalizing node s with
  | zero =>
    cases h
    exact ⟨.refl hs, fun _ => rfl, fun x hx => hx⟩
  | succ level ih =>
    obtain ⟨⟨child, t⟩, hchild, hrest⟩ := ok_bind h
    obtain ⟨hmd, hget, hnext⟩ := refChild_spec hchild hs hnode
    cases child with
    | none =>
      cases hrest
      exact ⟨hmd, hget, fun _ hx => by cases hx⟩
    | some page =>
      have hn := hnext page rfl
      have hnode' : IsNode t (.page page) :=
        .inr ⟨page, rfl, mem_map.mpr ⟨_, mem_of_refNext hn, rfl⟩⟩
      obtain ⟨hmd', hget', hfol⟩ := ih hrest hmd.sound hnode'
      refine ⟨hmd.trans hmd', fun phys => (hget' phys).trans (hget phys), fun x hx => ?_⟩
      exact follow_cons_eq_some.mpr ⟨_, hmd'.next hn, hfol x hx⟩

/-- With `create` the walk ends in the slot of the page, or finds no memory for a node. -/
theorem getRefSlotLocked_true {slot : Option (ℕ × ℕ)}
    (h : getRefSlotLocked s phys true = .ok (slot, s')) (hs : Sound s) :
    Metadata s s' ∧ (∀ q, getRef s' q = getRef s q) ∧
      ∀ x, slot = some x → refSlot s' phys = some x := by
  unfold getRefSlotLocked at h
  rw [← pfn] at h
  simp only at h
  split at h
  · cases h
    exact ⟨.refl hs, fun _ => rfl, fun _ hx => by cases hx⟩
  split at h
  · cases h
    exact ⟨.refl hs, fun _ => rfl, fun _ hx => by cases hx⟩
  rename_i hlt hchunk
  obtain ⟨⟨node, t⟩, hdesc, hret⟩ := ok_bind h
  obtain ⟨hmd, hget, hfol⟩ := refDescend_spec hdesc hs (.inl rfl)
  obtain _ | node := node
  · cases hret
    exact ⟨hmd, hget, fun _ hx => by cases hx⟩
  cases node with
  | root =>
    cases hret
    exact ⟨hmd, hget, fun _ hx => by cases hx⟩
  | page leaf =>
    cases hret
    refine ⟨hmd, hget, ?_⟩
    rintro _ ⟨⟩
    rw [refSlot_eq_some, hmd.totalPages]
    exact ⟨by omega, not_not.mp hchunk, hfol _ rfl, rfl⟩

/-! ### Writing counts -/

theorem refSlot_writeRef (s : State) (slot : ℕ × ℕ) (v phys : ℕ) :
    refSlot (s.writeRef slot v) phys = refSlot s phys := rfl

theorem Sound.writeRef (hs : Sound s) (slot : ℕ × ℕ) (v : ℕ) : Sound (s.writeRef slot v) where
  wf := ⟨hs.wf.max_le, hs.wf.order_le, hs.wf.aligned, hs.wf.counts, hs.wf.mask, hs.wf.bytes⟩
  refs := hs.refs.congr rfl
  disjoint := hs.disjoint

theorem metadata_writeRef (hs : Sound s) (slot : ℕ × ℕ) (v : ℕ) : Metadata s (s.writeRef slot v) :=
  ⟨hs.writeRef slot v, ⟨fun _ => le_rfl, .inl⟩, rfl, rfl, rfl, rfl,
    ⟨fun _ => 0, fun _ _ => rfl, fun _ => add_zero _⟩, id⟩

/-- Writing a slot changes the count of its page and of no other. -/
theorem getRef_writeRef (ht : IsTree (refNext s) .root) (h : refSlot s phys = some slot) (v q : ℕ) :
    getRef (s.writeRef slot v) q = if pfn q = pfn phys then v else getRef s q := by
  by_cases hq : pfn q = pfn phys
  · have hslot : refSlot (s.writeRef slot v) q = some slot := by
      rw [refSlot_writeRef, refSlot_congr hq, h]
    rw [if_pos hq, getRef_of_slot hslot]
    simp [writeRef]
  rw [if_neg hq, getRef_eq, getRef_eq, refSlot_writeRef]
  cases hslot : refSlot s q with
  | none => rfl
  | some slot' =>
    have hne : slot' ≠ slot := fun heq => hq (pfn_eq_of_refSlot_eq ht (heq ▸ hslot) h)
    simp only [map_some, getD_some, writeRef]
    by_cases h1 : slot'.1 = slot.1
    · have h2 : slot'.2 ≠ slot.2 := fun h2 => hne (Prod.ext h1 h2)
      rw [h1, update_self, update_of_ne h2]
    · rw [update_of_ne h1]

theorem setRefLocked_one (h : setRefLocked s phys 1 = .ok (true, s')) (hs : Sound s) :
    Metadata s s' ∧ (∃ slot, refSlot s' phys = some slot) ∧
      ∀ q, getRef s' q = if pfn q = pfn phys then 1 else getRef s q := by
  obtain ⟨⟨slot, t⟩, hslot, hret⟩ := ok_bind h
  obtain ⟨hmd, hget, hfound⟩ := getRefSlotLocked_true hslot hs
  cases slot with
  | none => cases hret
  | some slot =>
    cases hret
    have hrs := hfound slot rfl
    refine ⟨hmd.trans (metadata_writeRef hmd.sound slot 1), ⟨slot, hrs⟩, fun q => ?_⟩
    rw [getRef_writeRef hmd.sound.refs.tree hrs, hget]

/-- The same allocator with other counts. -/
def State.withLeaf (s : State) (leaf : ℕ → ℕ → ℕ) : State := { s with refLeaf := leaf }

theorem setRefLocked_zero (ht : IsTree (refNext s) .root) (phys : ℕ) :
    ∃ leaf, setRefLocked s phys 0 = .ok (true, s.withLeaf leaf) ∧
      ∀ q, getRef (s.withLeaf leaf) q = if pfn q = pfn phys then 0 else getRef s q := by
  unfold setRefLocked
  simp only [ne_eq, not_true, decide_false, getRefSlotLocked_false]
  cases hslot : refSlot s phys with
  | none =>
    refine ⟨s.refLeaf, rfl, fun q => ?_⟩
    split
    case isTrue hq => exact getRef_of_none ((refSlot_congr hq).trans hslot)
    case isFalse => rfl
  | some slot => exact ⟨_, rfl, getRef_writeRef ht hslot 0⟩

private theorem ite_range_succ (v b : ℕ) :
    (if a + 1 ≤ c ∧ c < a + 1 + n then v else if c = a then v else b) =
      if a ≤ c ∧ c < a + (n + 1) then v else b := by
  split_ifs <;> first | rfl | omega

theorem initRefcountsLoop_spec (h : initRefcountsLoop n phys s = .ok (true, s')) (hs : Sound s) :
    Metadata s s' ∧
      (∀ q, pfn phys ≤ pfn q → pfn q < pfn phys + n → ∃ slot, refSlot s' q = some slot) ∧
      ∀ q, getRef s' q = if pfn phys ≤ pfn q ∧ pfn q < pfn phys + n then 1 else getRef s q := by
  induction n generalizing phys s with
  | zero =>
    cases h
    refine ⟨.refl hs, fun q h1 h2 => by omega, fun q => ?_⟩
    rw [if_neg (by omega)]
  | succ n ih =>
    obtain ⟨⟨ok, t⟩, hset, hrest⟩ := ok_bind h
    cases ok with
    | false => cases hrest
    | true =>
      obtain ⟨hmd, ⟨slot, hslot⟩, hget⟩ := setRefLocked_one hset hs
      obtain ⟨hmd', hslots, hget'⟩ := ih hrest hmd.sound
      rw [pfn_add_pageSize] at hslots hget'
      refine ⟨hmd.trans hmd', fun q h1 h2 => ?_, fun q => ?_⟩
      · by_cases hq : pfn q = pfn phys
        · exact ⟨slot, hmd'.refSlot ((refSlot_congr hq).trans hslot)⟩
        · exact hslots q (by omega) (by omega)
      · rw [hget', hget, ite_range_succ]

theorem exists_initRefcountsLoop
    (h : ∀ q, pfn phys ≤ pfn q → pfn q < pfn phys + n → refSlot s q ≠ none) :
    ∃ s', initRefcountsLoop n phys s = .ok (true, s') := by
  induction n generalizing phys s with
  | zero => exact ⟨s, rfl⟩
  | succ n ih =>
    obtain ⟨slot, hslot⟩ := ne_none_iff_exists'.mp (h phys le_rfl (by omega))
    have hset : setRefLocked s phys 1 = .ok (true, s.writeRef slot 1) := by
      unfold setRefLocked
      rw [getRefSlotLocked_eq fun _ => by rw [hslot]; exact nofun, hslot]
      rfl
    rw [initRefcountsLoop, hset]
    refine ih fun q h1 h2 => ?_
    rw [pfn_add_pageSize] at h1 h2
    exact h q (by omega) (by omega)

theorem clearRefsLoop_spec (ht : IsTree (refNext s) .root) (n phys : ℕ) :
    ∃ leaf, clearRefsLoop n phys s = .ok (s.withLeaf leaf) ∧
      ∀ q, getRef (s.withLeaf leaf) q =
        if pfn phys ≤ pfn q ∧ pfn q < pfn phys + n then 0 else getRef s q := by
  induction n generalizing phys s with
  | zero =>
    refine ⟨s.refLeaf, rfl, fun q => ?_⟩
    rw [if_neg (by omega)]
    rfl
  | succ n ih =>
    obtain ⟨leaf, hset, hget⟩ := setRefLocked_zero ht phys
    obtain ⟨leaf', hloop, hget'⟩ := ih (s := s.withLeaf leaf) ht (phys + pageSize)
    refine ⟨leaf', ?_, fun q => ?_⟩
    · rw [clearRefsLoop, hset]
      exact hloop
    · have h := hget' q
      rw [pfn_add_pageSize, hget, ite_range_succ] at h
      exact h

end RHKernel.Pmm
