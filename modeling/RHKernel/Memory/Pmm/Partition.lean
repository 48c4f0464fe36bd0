import RHKernel.Memory.Pmm.Ops

/-!
# The partition of physical memory

A run of the allocator starts from the spans that `add_span` was given and goes through any
sequence of operations. Next to the state it carries the list of blocks that callers hold. In
every state reached, the free blocks, the blocks held and the metadata pages are pairwise
disjoint and cover exactly the managed pages, and the counters agree with the lists
(`Partitioned`).

Page `0` must not be managed. `init` reserves the first megabyte, so it never is; an allocator
that is given page `0` loses it (`page_zero_lost`).
-/

namespace RHKernel.Pmm

open Bits DyadicBlock Step Relation Finset

variable {l live rest live' : List Block} {b f : Block} {p phys order m t : ℕ} {managed : ℕ → ℕ}
  {s s' : State}
  {spans : List (ℕ × ℕ)} {d : Bool} {start «end» : ℕ}

/-- A block of `2 ^ order` pages. -/
structure Block where
  addr : ℕ
  order : ℕ
  deriving DecidableEq, Repr

def Block.HasPage (b : Block) (p : ℕ) : Prop := Covers (pfn b.addr) b.order p

/-- How often the blocks cover page `p`. -/
def blocksTally (l : List Block) (p : ℕ) : ℕ :=
  (l.map fun b => tally (pfn b.addr) b.order p).sum

@[simp]
theorem blocksTally_nil (p : ℕ) : blocksTally [] p = 0 := rfl

@[simp]
theorem blocksTally_cons (b : Block) (l : List Block) (p : ℕ) :
    blocksTally (b :: l) p = tally (pfn b.addr) b.order p + blocksTally l p := by
  simp [blocksTally]

@[simp]
theorem blocksTally_append (l l' : List Block) (p : ℕ) :
    blocksTally (l ++ l') p = blocksTally l p + blocksTally l' p := by
  simp [blocksTally]

theorem blocksTally_erase (hb : b ∈ l) (p : ℕ) :
    tally (pfn b.addr) b.order p + blocksTally (l.erase b) p = blocksTally l p := by
  rw [← blocksTally_cons]
  exact ((List.perm_cons_erase hb).map _).sum_eq.symm

theorem blocksTally_pos_iff : 0 < blocksTally l p ↔ ∃ b ∈ l, b.HasPage p := by
  induction l with
  | nil => simp
  | cons b l ih =>
    rw [blocksTally_cons, List.exists_mem_cons_iff, ← ih, Block.HasPage, ← tally_pos_iff]
    omega

/-- Blocks that cover no page twice are pairwise disjoint. -/
theorem pairwise_of_blocksTally_le_one (h : ∀ p, blocksTally l p ≤ 1) :
    l.Pairwise fun a b => ∀ p, a.HasPage p → ¬b.HasPage p := by
  induction l with
  | nil => exact .nil
  | cons b l ih =>
    have h' : ∀ p, blocksTally l p ≤ 1 := fun p => by
      have := h p
      rw [blocksTally_cons] at this
      omega
    refine .cons (fun c hc p hb hcp => ?_) (ih h')
    have h1 := h p
    have h2 : 0 < blocksTally l p := blocksTally_pos_iff.mpr ⟨c, hc, hcp⟩
    rw [blocksTally_cons, tally_eq_one hb] at h1
    omega

def Block.pages (b : Block) : List Block :=
  (List.range (2 ^ b.order)).map fun i => ⟨b.addr + i * pageSize, 0⟩

theorem blocksTally_pages (b : Block) (p : ℕ) :
    blocksTally b.pages p = tally (pfn b.addr) b.order p := by
  have hrange : ∀ n, blocksTally ((List.range n).map fun i => ⟨b.addr + i * pageSize, 0⟩) p =
      if pfn b.addr ≤ p ∧ p < pfn b.addr + n then 1 else 0 := by
    intro n
    induction n with
    | zero => simp
    | succ n ih =>
      have hpfn : pfn (b.addr + n * pageSize) = pfn b.addr + n :=
        Nat.add_mul_div_right _ _ pageSize_pos
      rw [List.range_succ, List.map_append, blocksTally_append, ih, List.map_singleton,
        blocksTally_cons, blocksTally_nil, hpfn, tally_zero]
      split_ifs <;> omega
  exact hrange _

theorem mem_pages (ha : pageSize ∣ b.addr) (h : b.HasPage p) : ⟨p * pageSize, 0⟩ ∈ b.pages := by
  obtain ⟨h1, h2⟩ := h
  refine List.mem_map.mpr ⟨p - pfn b.addr, List.mem_range.mpr (by omega), ?_⟩
  congr 1
  rw [Nat.sub_mul, pfn_mul_pageSize ha]
  have := Nat.mul_le_mul_right pageSize h1
  rw [pfn_mul_pageSize ha] at this
  omega

/-! ### Runs -/

/-- One operation of a caller, with the blocks it holds before and after. Addresses of pages are
given by their number. -/
inductive OpStep : State × List Block → State × List Block → Prop
  | alloc {s s' : State} {live : List Block} {size phys : ℕ}
      (h : alloc s size = .ok (phys, s')) :
      OpStep (s, live) (s', if phys = 0 then live else ⟨phys, sizeToOrder size⟩ :: live)
  | allocConstrained {s s' : State} {live : List Block} {size phys allocated : ℕ}
      {c : AllocConstraints} (h : allocConstrained s size c = .ok ((phys, allocated), s')) :
      OpStep (s, live) (s', if phys = 0 then live else ⟨phys, sizeToOrder size⟩ :: live)
  | free {s s' : State} {live : List Block} {b : Block} {size : ℕ} (hb : b ∈ live)
      (hsize : size ≠ 0) (horder : sizeToOrder size = b.order)
      (h : free s b.addr size = .ok s') : OpStep (s, live) (s', live.erase b)
  | refPage {s s' : State} {live : List Block} {b : Block} {p : ℕ} (hb : b ∈ live)
      (hp : b.HasPage p) (h : refPage s (p * pageSize) = .ok s') : OpStep (s, live) (s', live)
  | unrefPage {s s' : State} {live : List Block} {b : Block} {p : ℕ} (hb : b ∈ live)
      (hp : b.HasPage p) (h : unrefPage s (p * pageSize) = .ok s') :
      OpStep (s, live) (s', if getRef s (p * pageSize) ≤ 1
        then b.pages.erase ⟨p * pageSize, 0⟩ ++ live.erase b else live)

/-- What every state of a run satisfies. -/
structure RunInv (managed : ℕ → ℕ) (st : State × List Block) : Prop where
  inv : Inv managed (blocksTally st.2) st.1
  aligned : ∀ {b}, b ∈ st.2 → blockSize b.order ∣ b.addr
  order_le : ∀ {b}, b ∈ st.2 → b.order ≤ st.1.activeMaxOrder
  addr_ne : ∀ {b}, b ∈ st.2 → b.addr ≠ 0

theorem Allocated.runInv (h : Allocated managed (blocksTally live) s s' phys order)
    (hr : RunInv managed (s, live)) :
    RunInv managed (s', if phys = 0 then live else ⟨phys, order⟩ :: live) := by
  split_ifs with hp
  · exact ⟨(h.inv_zero hp).1, hr.aligned, fun hb => h.activeMaxOrder ▸ hr.order_le hb,
      hr.addr_ne⟩
  refine ⟨?_, ?_, ?_, ?_⟩
  · have hfun : blocksTally (⟨phys, order⟩ :: live) =
        fun p => blocksTally live p + tally (pfn phys) order p := by
      funext p
      rw [blocksTally_cons, add_comm]
    rw [hfun]
    exact h.inv hp
  · intro b hb
    rcases List.mem_cons.mp hb with rfl | hb
    · exact h.aligned
    · exact hr.aligned hb
  · intro b hb
    rw [h.activeMaxOrder]
    rcases List.mem_cons.mp hb with rfl | hb
    · exact h.order_le
    · exact hr.order_le hb
  · intro b hb
    rcases List.mem_cons.mp hb with rfl | hb
    · exact hp
    · exact hr.addr_ne hb

/-- Freeing a block that is held gives its pages back. -/
theorem Released.runInv (h : Released s s' phys order)
    (hr : RunInv managed (s, live))
    (hperm : ∀ p, tally (pfn phys) order p + blocksTally rest p = blocksTally live p)
    (hrest : ∀ {b}, b ∈ rest → blockSize b.order ∣ b.addr ∧ b.order ≤ s.activeMaxOrder ∧
      b.addr ≠ 0) : RunInv managed (s', rest) := by
  refine ⟨?_, fun hb => (hrest hb).1, fun hb => ?_, fun hb => (hrest hb).2.2⟩
  · have hfun : blocksTally rest = fun p => blocksTally live p - tally (pfn phys) order p := by
      funext p
      have := hperm p
      omega
    rw [hfun]
    refine h.inv hr.inv fun p => ?_
    have := hperm p
    omega
  · rw [h.activeMaxOrder]
    exact (hrest hb).2.1

variable (hr : RunInv managed (s, live))

include hr

theorem RunInv.perm (h : live.Perm live') :
    RunInv managed (s, live') where
  inv := by
    have hfun : blocksTally live' = blocksTally live := funext fun p => (h.map _).sum_eq.symm
    rw [hfun]
    exact hr.inv
  aligned hb := hr.aligned (h.mem_iff.mpr hb)
  order_le hb := hr.order_le (h.mem_iff.mpr hb)
  addr_ne hb := hr.addr_ne (h.mem_iff.mpr hb)

theorem RunInv.tally_le_one (p : ℕ) : freeTally s p + blocksTally live p ≤ 1 := by
  obtain ⟨lost, -, hcov⟩ := hr.inv.cover
  have h1 := hcov p
  have h2 := hr.inv.le_one p
  simp only at h1
  omega

theorem RunInv.pairwise :
    live.Pairwise fun a b => ∀ p, a.HasPage p → ¬b.HasPage p :=
  pairwise_of_blocksTally_le_one fun p => (Nat.le_add_left _ _).trans (hr.tally_le_one p)

theorem RunInv.addr_nodup : (live.map Block.addr).Nodup := by
  refine List.pairwise_map.mpr (hr.pairwise.imp fun {a b} hab he => ?_)
  refine hab (pfn a.addr) (covers_start _ _) ?_
  rw [he]
  exact covers_start _ _

theorem RunInv.of_metadata (hm : Metadata s s') :
    RunInv managed (s', live) :=
  ⟨hr.inv.metadata hm, hr.aligned, fun hb => hm.activeMaxOrder ▸ hr.order_le hb, hr.addr_ne⟩

theorem RunInv.page_ne_zero (hb : b ∈ live) (hp : b.HasPage p) :
    p * pageSize ≠ 0 := by
  have h1 := hr.addr_ne hb
  have h2 := pfn_mul_pageSize (pageSize_dvd_of_blockSize_dvd (hr.aligned hb))
  have h3 := hp.1
  intro hzero
  have hp0 : p = 0 := by
    rcases mul_eq_zero.mp hzero with h | h
    · exact h
    · exact absurd h pageSize_pos.ne'
  rw [hp0, Nat.le_zero] at h3
  rw [h3, zero_mul] at h2
  exact h1 h2.symm

theorem RunInv.slot (hb : b ∈ live) (hp : b.HasPage p) :
    ∃ slot, refSlot s (p * pageSize) = some slot := by
  refine hr.inv.slots _ ?_
  rw [pfn_mul]
  exact blocksTally_pos_iff.mpr ⟨b, hb, hp⟩

theorem RunInv.free {size : ℕ} (hb : b ∈ live) (hsize : size ≠ 0)
    (horder : sizeToOrder size = b.order) (h : free s b.addr size = .ok s') :
    Released s s' b.addr b.order := by
  obtain ⟨t, hfree, hrel⟩ := free_released hr.inv.sound.wf hr.inv.sound.refs.tree
    (hr.addr_ne hb) hsize (horder ▸ hr.order_le hb) (horder ▸ hr.aligned hb)
  obtain rfl : t = s' := Except.ok.inj (hfree.symm.trans h)
  rwa [horder] at hrel

/-- Dropping a reference to a page that is held: the last one frees the page. -/
theorem RunInv.unrefPage (hb : b ∈ live) (hp : b.HasPage p)
    (h : unrefPage s (p * pageSize) = .ok s') :
    if getRef s (p * pageSize) ≤ 1 then Released s s' (p * pageSize) 0
    else Metadata s s' ∧ ∀ q, getRef s' q =
      if pfn q = pfn (p * pageSize) then getRef s (p * pageSize) - 1 else getRef s q := by
  split_ifs with hle
  · obtain ⟨slot, hslot⟩ := hr.slot hb hp
    obtain ⟨t, hun, hrel⟩ := unrefPage_of_le_one hr.inv.sound hslot hle
      (hr.page_ne_zero hb hp) (Dvd.intro_left p rfl)
    exact Except.ok.inj (hun.symm.trans h) ▸ hrel
  · obtain ⟨t, hun, hmd, -, -, hget⟩ := unrefPage_of_one_lt hr.inv.sound (not_le.mp hle)
    obtain rfl : t = s' := Except.ok.inj (hun.symm.trans h)
    exact ⟨hmd, hget⟩

omit hr

/-- **Step lemma**: every operation keeps the invariant. -/
theorem OpStep.runInv {st st' : State × List Block} (h : OpStep st st') (hr : RunInv managed st) :
    RunInv managed st' := by
  cases h with
  | alloc h =>
    rcases (alloc_spec h hr.inv).2 with ⟨rfl, hinv, hmax, -⟩ | ⟨hne, -, hal⟩
    · exact ⟨hinv, hr.aligned, fun hb => hmax ▸ hr.order_le hb, hr.addr_ne⟩
    · exact hal.runInv hr
  | allocConstrained h =>
    rcases allocConstrained_spec h hr.inv with ⟨rfl, -, rfl⟩ | ⟨-, -, hal⟩
    · exact hr
    · exact hal.runInv hr
  | @free s s' live b size hb hsize horder h =>
    refine (hr.free hb hsize horder h).runInv hr (blocksTally_erase hb) fun hc => ?_
    have hmem := List.mem_of_mem_erase hc
    exact ⟨hr.aligned hmem, hr.order_le hmem, hr.addr_ne hmem⟩
  | refPage hb hp h => exact hr.of_metadata (refPage_spec h hr.inv.sound).1
  | @unrefPage s s' live b p hb hp h =>
    have hun := hr.unrefPage hb hp h
    by_cases hle : getRef s (p * pageSize) ≤ 1
    · rw [if_pos hle] at hun ⊢
      have hba := pageSize_dvd_of_blockSize_dvd (hr.aligned hb)
      refine hun.runInv hr (fun q => ?_) fun hc => ?_
      · have h1 := blocksTally_erase (mem_pages hba hp) q
        have h2 := blocksTally_erase hb q
        rw [blocksTally_pages] at h1
        rw [blocksTally_append]
        simp only at h1
        omega
      rcases List.mem_append.mp hc with hc | hc
      · obtain ⟨i, -, rfl⟩ := List.mem_map.mp (List.mem_of_mem_erase hc)
        refine ⟨?_, Nat.zero_le _, ?_⟩
        · rw [blockSize_zero]
          exact Nat.dvd_add hba (Dvd.intro_left i rfl)
        · have := hr.addr_ne hb
          simp only
          omega
      · have hmem := List.mem_of_mem_erase hc
        exact ⟨hr.aligned hmem, hr.order_le hmem, hr.addr_ne hmem⟩
    · rw [if_neg hle] at hun ⊢
      exact hr.of_metadata hun.1

/-! ### The initial state -/

/-- The part of a span that `add_span` puts on the free lists: all of it, or what the boot page
tables map when the rest is deferred. -/
def mappedEnd (deferUnmapped : Bool) («end» : ℕ) : ℕ :=
  if deferUnmapped then min «end» earlyDirectMapBytes else «end»

theorem mappedEnd_le (d : Bool) («end» : ℕ) : mappedEnd d «end» ≤ «end» := by
  unfold mappedEnd
  split <;> omega

/-- The pages managed after `add_span` over a list of spans. -/
def managedPages (deferUnmapped : Bool) (spans : List (ℕ × ℕ)) : Set ℕ :=
  {p | ∃ span ∈ spans, PageIn span.1 (mappedEnd deferUnmapped span.2) p}

/-- `add_span` over a list of spans, from the empty allocator. -/
def addSpans (s : State) (spans : List (ℕ × ℕ)) : Except String State :=
  spans.foldlM (fun s span => addSpan s span.1 span.2) s

/-- How often the spans cover page `p`. -/
def managedTally (deferUnmapped : Bool) (spans : List (ℕ × ℕ)) (p : ℕ) : ℕ :=
  (spans.map fun span => spanTally span.1 (mappedEnd deferUnmapped span.2) p).sum

/-- What adding spans leaves alone: there are no counts and no metadata yet. -/
structure Added (s s' : State) : Prop where
  wf : Wf s'
  refEntries : s'.refEntries = s.refEntries
  defer : s'.deferUnmappedSpans = s.deferUnmappedSpans
  activeMaxOrder : s'.activeMaxOrder = s.activeMaxOrder

/-- A range rounded to pages, if it has any. -/
def wholePages (start «end» : ℕ) : List (ℕ × ℕ) :=
  if alignDown «end» pageSize ≤ alignUp start pageSize then []
  else [(alignUp start pageSize, alignDown «end» pageSize)]

/-- What `add_span` puts off: the pages of the span that the boot page tables do not map. -/
def deferredPart (deferUnmapped : Bool) (start «end» : ℕ) : List (ℕ × ℕ) :=
  if deferUnmapped then wholePages (max start earlyDirectMapBytes) «end» else []

/-- Spans are put off as long as the table has room. -/
def putOff (s : State) (spans : List (ℕ × ℕ)) : Except String State :=
  if spans ≠ [] ∧ maxDeferredSpans ≤ s.deferredSpans.length then
    .error "PMM: too many deferred memory-map spans"
  else .ok { s with deferredSpans := s.deferredSpans ++ spans }

theorem putOff_nil (s : State) : putOff s [] = .ok s := by
  rw [putOff, if_neg (fun h => h.1 rfl), List.append_nil]

theorem putOff_ok (h : putOff s spans = .ok s') :
    s' = { s with deferredSpans := s.deferredSpans ++ spans } := by
  unfold putOff at h
  split_ifs at h
  exact (Except.ok.inj h).symm

theorem deferSpanLocked_eq (s : State) (start : ℕ) (hend : «end» ≤ uint64Max) :
    deferSpanLocked s start «end» = putOff s (wholePages start «end») := by
  unfold deferSpanLocked alignUpChecked alignDownChecked wholePages
  simp only [isPowerOfTwo_pageSize, Bool.not_true, Bool.false_eq_true, if_false]
  by_cases hover : uint64Max - (pageSize - 1) < start
  · rw [if_pos hover, if_pos (alignDown_le_alignUp hend hover), putOff_nil]
  · rw [if_neg hover]
    by_cases hnone : alignDown «end» pageSize ≤ alignUp start pageSize
    · simp only [if_pos hnone, putOff_nil]
    · simp only [if_neg hnone, putOff, ne_eq, List.cons_ne_nil, not_false_eq_true, true_and]

/-- `add_span` carves what is mapped of a span and puts off the rest. -/
theorem addSpan_eq (s : State) (start : ℕ) (hend : «end» ≤ uint64Max) :
    addSpan s start «end» = carveRange true s start (mappedEnd s.deferUnmappedSpans «end») >>=
      fun t => putOff t (deferredPart s.deferUnmappedSpans start «end») := by
  unfold addSpan
  by_cases hd : s.deferUnmappedSpans = true ∧ earlyDirectMapBytes < «end»
  · rw [if_pos hd, mappedEnd, deferredPart, if_pos hd.1, if_pos hd.1, min_eq_right hd.2.le]
    simp only [← deferSpanLocked_eq _ _ hend]
    by_cases hlow : start < earlyDirectMapBytes
    · simp only [hlow, if_true, max_eq_right hlow.le]
    -- nothing of the span is mapped
    have hnone : carveRange true s start earlyDirectMapBytes = .ok s := by
      rw [carveRange_eq true s start (by decide), Nat.sub_eq_zero_of_le, Nat.zero_div]
      · rfl
      · exact (alignDown_le _ _).trans ((not_lt.mp hlow).trans (le_alignUp _ (by decide)))
    simp only [hlow, if_false, max_eq_left (not_lt.mp hlow), hnone]
  · have hnone : deferredPart s.deferUnmappedSpans start «end» = [] := by
      unfold deferredPart
      split_ifs with hdef
      · have hle : «end» ≤ earlyDirectMapBytes := not_lt.mp fun hlt => hd ⟨hdef, hlt⟩
        exact if_pos ((alignDown_le _ _).trans (hle.trans ((le_max_right start _).trans
          (le_alignUp _ (by decide)))))
      · rfl
    have hmap : mappedEnd s.deferUnmappedSpans «end» = «end» := by
      unfold mappedEnd
      split
      case isTrue hdef => exact min_eq_left (not_lt.mp fun hlt => hd ⟨hdef, hlt⟩)
      case isFalse => rfl
    simp only [if_neg hd, hmap, hnone, putOff_nil]
    exact (bind_pure _).symm

theorem addSpan_spec (h : addSpan s start «end» = .ok s') (hw : Wf s) (hend : «end» ≤ uint64Max) :
    Added s s' ∧ ∀ p, freeTally s' p =
      freeTally s p + spanTally start (mappedEnd s.deferUnmappedSpans «end») p := by
  rw [addSpan_eq s start hend] at h
  obtain ⟨t, ht, h⟩ := ok_bind h
  obtain ⟨hw', hf, htally⟩ := carveRange_spec ht hw ((mappedEnd_le _ _).trans hend)
  obtain rfl := putOff_ok h
  exact ⟨⟨{ hw' with }, hf.refEntries,
    hf.deferUnmappedSpans, hf.activeMaxOrder⟩, htally⟩

theorem addSpans_spec (h : addSpans s spans = .ok s') (hw : Wf s)
    (hend : ∀ span ∈ spans, span.2 ≤ uint64Max) :
    Added s s' ∧ ∀ p, freeTally s' p =
      freeTally s p + managedTally s.deferUnmappedSpans spans p := by
  induction spans generalizing s with
  | nil =>
    cases h
    exact ⟨⟨hw, rfl, rfl, rfl⟩, fun p => by simp [managedTally]⟩
  | cons span spans ih =>
    obtain ⟨t, ht, hrest⟩ := ok_bind h
    obtain ⟨hadd, htally⟩ := addSpan_spec ht hw (hend span List.mem_cons_self)
    obtain ⟨hadd', htally'⟩ :=
      ih hrest hadd.wf fun x hx => hend x (List.mem_cons_of_mem _ hx)
    refine ⟨⟨hadd'.wf, hadd'.refEntries.trans hadd.refEntries, hadd'.defer.trans hadd.defer,
      hadd'.activeMaxOrder.trans hadd.activeMaxOrder⟩, fun p => ?_⟩
    rw [htally', htally, hadd.defer, managedTally, managedTally, List.map_cons, List.sum_cons,
      add_assoc]

theorem managedTally_pos_iff : 0 < managedTally d spans p ↔ p ∈ managedPages d spans := by
  unfold managedPages
  rw [Set.mem_ofPred_eq]
  induction spans with
  | nil => simp [managedTally]
  | cons span spans ih =>
    rw [List.exists_mem_cons_iff, ← ih, managedTally, managedTally, List.map_cons, List.sum_cons]
    by_cases h : PageIn span.1 (mappedEnd d span.2) p
    · rw [spanTally_eq_one h]
      exact ⟨fun _ => .inl h, fun _ => by omega⟩
    · rw [spanTally_eq_zero h, zero_add]
      exact ⟨.inr, fun hor => hor.resolve_left h⟩

/-- Disjoint spans cover no page twice. -/
theorem managedTally_le_one
    (h : spans.Pairwise fun a b => ∀ p, PageIn a.1 a.2 p → ¬PageIn b.1 b.2 p) (p : ℕ) :
    managedTally d spans p ≤ 1 := by
  have hmapped : ∀ {span : ℕ × ℕ}, PageIn span.1 (mappedEnd d span.2) p →
      PageIn span.1 span.2 p := by
    rintro span ⟨h1, h2⟩
    exact ⟨h1, h2.trans (mappedEnd_le d span.2)⟩
  induction h with
  | nil => simp [managedTally]
  | @cons span spans hhead htail ih =>
    rw [managedTally, List.map_cons, List.sum_cons, ← managedTally]
    by_cases hp : PageIn span.1 (mappedEnd d span.2) p
    · have hnone : managedTally d spans p = 0 := by
        by_contra hne
        obtain ⟨other, hother, hpo⟩ := managedTally_pos_iff.mp (Nat.pos_of_ne_zero hne)
        exact hhead other hother p (hmapped hp) (hmapped hpo)
      rw [spanTally_eq_one hp, hnone]
    · rw [spanTally_eq_zero hp]
      omega

/-- The allocator built from disjoint spans satisfies the invariant with nothing handed out. -/
theorem addSpans_runInv (hm : m ≤ maxOrderLimit)
    (hend : ∀ span ∈ spans, span.2 ≤ uint64Max)
    (hdisj : spans.Pairwise fun a b => ∀ p, PageIn a.1 a.2 p → ¬PageIn b.1 b.2 p)
    (h : addSpans (State.empty m t d) spans = .ok s) : RunInv (managedTally d spans) (s, []) := by
  obtain ⟨hadd, htally⟩ := addSpans_spec h (Wf.empty hm t d) hend
  have hmeta : ∀ p, metaTally s p = 0 := fun p => by
    rw [metaTally_congr hadd.refEntries]
    rfl
  have hfree : ∀ p, freeTally s p = managedTally d spans p := fun p => by
    rw [htally, freeTally_empty, zero_add]
    rfl
  have hnext : ∀ n i, refNext s n i = none := fun n i => by
    rw [refNext_congr hadd.refEntries]
    rfl
  refine ⟨⟨⟨hadd.wf, ⟨⟨?_, ?_⟩, ?_, ?_⟩, fun p => ?_⟩, managedTally_le_one hdisj,
    ⟨fun _ => 0, fun _ _ => rfl, fun p => ?_⟩, fun q hp => ?_⟩, ?_, ?_, ?_⟩
  · intro n n' i i' x hx
    rw [hnext] at hx
    cases hx
  · intro n i hx
    rw [hnext] at hx
    cases hx
  · intro e he
    rw [hadd.refEntries] at he
    exact absurd he List.not_mem_nil
  · intro e a he
    rw [hadd.refEntries] at he
    exact absurd he List.not_mem_nil
  · rw [hmeta, hfree, add_zero]
    exact managedTally_le_one hdisj p
  · rw [hmeta, hfree, blocksTally_nil, add_zero, add_zero, add_zero]
  · simp at hp
  all_goals
    intro b hb
    exact absurd hb List.not_mem_nil

/-! ### The partition -/

/-- The free blocks of all orders. -/
def freeBlocks (s : State) : List Block :=
  (List.range (maxOrderLimit + 1)).flatMap fun k => (s.freeLists k).map fun a => ⟨a, k⟩

/-- The pages of the reference-count tree. -/
def metaBlocks (s : State) : List Block := s.refEntries.map fun e => ⟨e.2, 0⟩

/-- Free blocks, blocks held and metadata pages are pairwise disjoint and cover exactly the
managed pages; free blocks are aligned and of admitted order; byte total, counts and mask agree
with the lists. -/
structure Partitioned (managed : Set ℕ) (s : State) (live : List Block) : Prop where
  disjoint : (freeBlocks s ++ live ++ metaBlocks s).Pairwise
    fun a b => ∀ p, a.HasPage p → ¬b.HasPage p
  cover : ∀ p, p ∈ managed ↔ ∃ b ∈ freeBlocks s ++ live ++ metaBlocks s, b.HasPage p
  aligned : ∀ k, ∀ a ∈ s.freeLists k, blockSize k ∣ a ∧ k ≤ s.activeMaxOrder
  freeBytes : s.freeBytes = ((freeBlocks s).map fun b => blockSize b.order).sum
  counts : ∀ k, s.freeBlockCounts k = (s.freeLists k).length
  mask : ∀ k, s.nonemptyOrderMask.getLsbD k = true ↔ s.freeLists k ≠ []

/-- A sum over the free blocks goes order by order. -/
theorem sum_freeBlocks (s : State) (g : Block → ℕ) :
    ((freeBlocks s).map g).sum =
      ∑ k ∈ range (maxOrderLimit + 1), ((s.freeLists k).map fun a => g ⟨a, k⟩).sum := by
  unfold freeBlocks
  generalize maxOrderLimit + 1 = n
  induction n with
  | zero => rfl
  | succ n ih =>
    rw [List.range_succ, List.flatMap_append, List.map_append, List.sum_append, ih,
      sum_range_succ]
    simp [Function.comp_def]

theorem blocksTally_freeBlocks (s : State) (p : ℕ) :
    blocksTally (freeBlocks s) p = freeTally s p := sum_freeBlocks s _

theorem blocksTally_metaBlocks (s : State) (p : ℕ) :
    blocksTally (metaBlocks s) p = metaTally s p := by
  simp [blocksTally, metaBlocks, metaTally, Function.comp_def]

theorem RunInv.not_free (hr : RunInv managed (s, live)) (hb : b ∈ live)
    (hp : b.HasPage p) (hf : f ∈ freeBlocks s) : ¬f.HasPage p := by
  intro hfp
  have h1 := hr.tally_le_one p
  have h2 : 0 < blocksTally live p := blocksTally_pos_iff.mpr ⟨b, hb, hp⟩
  have h3 : 0 < blocksTally (freeBlocks s) p := blocksTally_pos_iff.mpr ⟨f, hf, hfp⟩
  rw [blocksTally_freeBlocks] at h3
  omega

/-- The invariant of a run without loss is the partition. -/
theorem RunInv.partitioned (hr : RunInv managed (s, live)) (h0 : managed 0 = 0) :
    Partitioned {p | 0 < managed p} s live := by
  obtain ⟨lost, hlost, hcov⟩ := hr.inv.cover
  have hsum : ∀ p, blocksTally (freeBlocks s ++ live ++ metaBlocks s) p = managed p := fun p => by
    have h1 := hcov p
    rw [hlost h0] at h1
    rw [blocksTally_append, blocksTally_append, blocksTally_freeBlocks, blocksTally_metaBlocks]
    simp only at h1
    omega
  have hw := hr.inv.sound.wf
  refine ⟨pairwise_of_blocksTally_le_one fun p => ?_, fun p => ?_, fun k a ha => ?_, ?_,
    hw.counts, hw.mask⟩
  · rw [hsum]
    exact hr.inv.le_one p
  · rw [← blocksTally_pos_iff, hsum, Set.mem_ofPred_eq]
  · exact ⟨hw.aligned ha, hw.order_le ha⟩
  · rw [hw.bytes, sum_freeBlocks]
    refine sum_congr rfl fun k _ => ?_
    simp

/-- **Partition of physical memory.** From disjoint spans that leave out page `0`, every sequence
of operations keeps the free blocks, the blocks held and the metadata pages a partition of the
managed pages. -/
theorem partitioned_of_run {m t : ℕ} {d : Bool} {spans : List (ℕ × ℕ)} {s₀ s : State}
    {live : List Block} (hm : m ≤ maxOrderLimit) (hend : ∀ span ∈ spans, span.2 ≤ uint64Max)
    (hdisj : spans.Pairwise fun a b => ∀ p, PageIn a.1 a.2 p → ¬PageIn b.1 b.2 p)
    (hzero : 0 ∉ managedPages d spans)
    (hbuild : addSpans (State.empty m t d) spans = .ok s₀)
    (hrun : ReflTransGen OpStep (s₀, []) (s, live)) :
    Partitioned (managedPages d spans) s live := by
  have hinv : RunInv (managedTally d spans) (s, live) :=
    run_invariant hrun (addSpans_runInv hm hend hdisj hbuild) fun hr hstep => hstep.runInv hr
  have h0 : managedTally d spans 0 = 0 := by
    by_contra hne
    exact hzero (managedTally_pos_iff.mp (Nat.pos_of_ne_zero hne))
  have hset : managedPages d spans = {p | 0 < managedTally d spans p} :=
    Set.ext fun p => managedTally_pos_iff.symm
  rw [hset]
  exact hinv.partitioned h0

/-- A page handed out and referenced once more, from a span above page `0`. -/
theorem partitioned_of_run_alloc_ref :
    ∃ s₀ s, addSpans (State.empty 2 32 false) [(4096, 65536)] = .ok s₀ ∧
      ReflTransGen OpStep (s₀, []) (s, [⟨4096, 0⟩]) ∧
      Partitioned (managedPages false [(4096, 65536)]) s [⟨4096, 0⟩] := by
  have heval : (do
      let s ← addSpans (State.empty 2 32 false) [(4096, 65536)]
      let r ← alloc s 4096
      let s ← refPage r.2 4096
      pure (r.1, getRef s 4096) : Except String (ℕ × ℕ)).toOption = some (4096, 2) := by
    decide +kernel
  obtain ⟨s₀, h0, h⟩ := ok_bind (ok_of_toOption heval)
  obtain ⟨⟨phys, s₁⟩, h1, h⟩ := ok_bind h
  obtain ⟨s₂, h2, h⟩ := ok_bind h
  obtain ⟨rfl, -⟩ := Prod.mk.inj (Except.ok.inj h)
  have hrun : ReflTransGen OpStep (s₀, []) (s₂, [⟨4096, 0⟩]) :=
    .tail (.single (.alloc h1))
      (.refPage (b := ⟨4096, 0⟩) (p := 1) List.mem_cons_self (covers_start 1 0) h2)
  refine ⟨s₀, s₂, h0, hrun, partitioned_of_run (by decide) ?_ ?_ ?_ h0 hrun⟩
  · simp [uint64Max]
  · simp
  · rintro ⟨span, hspan, hin⟩
    rw [List.mem_singleton] at hspan
    subst hspan
    exact absurd hin.1 (by decide)

/-- With page `0` among the spans the partition fails: the page is popped, its address is taken
for an empty list, and it is neither free nor held. -/
theorem page_zero_lost :
    ¬∀ (m t : ℕ) (d : Bool) (spans : List (ℕ × ℕ)) (s₀ s : State) (live : List Block),
      m ≤ maxOrderLimit → (∀ span ∈ spans, span.2 ≤ uint64Max) →
      (spans.Pairwise fun a b => ∀ p, PageIn a.1 a.2 p → ¬PageIn b.1 b.2 p) →
      addSpans (State.empty m t d) spans = .ok s₀ →
      ReflTransGen OpStep (s₀, []) (s, live) →
      Partitioned (managedPages d spans) s live := by
  intro hall
  have heval : (do
      let s ← addSpans (State.empty 0 1 false) [(0, 4096)]
      let r ← alloc s 4096
      pure (r.1, freeBlocks r.2 ++ [] ++ metaBlocks r.2) :
        Except String (ℕ × List Block)).toOption = some (0, []) := by
    decide
  obtain ⟨s₀, h0, h⟩ := ok_bind (ok_of_toOption heval)
  obtain ⟨⟨phys, s₁⟩, h1, h⟩ := ok_bind h
  obtain ⟨rfl, hblocks⟩ := Prod.mk.inj (Except.ok.inj h)
  have hpart := hall 0 1 false [(0, 4096)] s₀ s₁ [] (by decide) (by simp [uint64Max])
    (List.pairwise_singleton _ _) h0 (.single (.alloc h1))
  have hmem : 0 ∈ managedPages false [(0, 4096)] :=
    ⟨(0, 4096), List.mem_cons_self, by decide, by decide⟩
  obtain ⟨b, hb, -⟩ := (hpart.cover 0).mp hmem
  rw [hblocks] at hb
  exact absurd hb List.not_mem_nil

end RHKernel.Pmm
