import RHKernel.Lib.Ranges
import RHKernel.Memory.Pmm.Carve

/-!
# The spans of the direct map

`add_direct_map_span` keeps the available memory as a table of spans. A new span absorbs the stored
ones that it meets: each of them is taken out, with the last entry moved into its place, and the
scan of the table starts again. It starts again at the second entry, though, because the loop
counts on after the index was reset. The entry that came first in the meantime is not looked at
any more, and this matters if it was the last one before.

As long as no new span meets both the first and the last entry, the spans in the table are apart and
cover the pages of all spans that were added, so that the direct map has every byte of them once.
-/

namespace RHKernel.Pmm

open Bits List Ranges

def maxDirectMapSpans : ℕ := 256

/-- The loop of `add_direct_map_span` over the table `spans` for the span `r`, at the index `i`. -/
def absorb : ℕ → ℕ → List (ℕ × ℕ) → ℕ × ℕ → List (ℕ × ℕ) × (ℕ × ℕ)
  | 0, _, spans, r => (spans, r)
  | fuel + 1, i, spans, r =>
    match spans[i]? with
    | none => (spans, r)
    | some t =>
      if r.2 < t.1 ∨ t.2 < r.1 then absorb fuel (i + 1) spans r
      else
        let r := (if t.1 < r.1 then t.1 else r.1, if r.2 < t.2 then t.2 else r.2)
        let spans := swapRemove spans i
        -- the index is set to 0, and the loop adds one to it
        if spans = [] then (spans, r) else absorb fuel 1 spans r

/-- Rounds enough for the loop: each span that is absorbed starts the scan again. -/
def absorbFuel (n : ℕ) : ℕ := n * (n + 1) + n + 1

def addDirectMapSpan (spans : List (ℕ × ℕ)) (start «end» : ℕ) : Except String (List (ℕ × ℕ)) :=
  match alignDownChecked start pageSize, alignUpChecked «end» pageSize with
  | some start, some «end» =>
    if «end» ≤ start then .ok spans
    else
      let (spans, r) := absorb (absorbFuel spans.length) 0 spans (start, «end»)
      if maxDirectMapSpans ≤ spans.length then .error "PMM: too many direct-map spans"
      else .ok (spans ++ [r])
  | _, _ => .ok spans

section Absorb

variable {spans : List (ℕ × ℕ)} {r t u z : ℕ × ℕ} {fuel i n : ℕ}

/-- The span meets both ends of the table. -/
def MeetsEnds (spans : List (ℕ × ℕ)) (r : ℕ × ℕ) : Prop :=
  1 < spans.length ∧ (∃ t ∈ spans.head?, Meets t r) ∧ ∃ t ∈ spans.getLast?, Meets t r

instance (spans : List (ℕ × ℕ)) (r : ℕ × ℕ) : Decidable (MeetsEnds spans r) :=
  inferInstanceAs (Decidable (_ ∧ _ ∧ _))

theorem absorb_skip (ht : spans[i]? = some t) (h : ¬Meets t r) :
    absorb (fuel + 1) i spans r = absorb fuel (i + 1) spans r := by
  rw [absorb, ht]
  exact if_pos (not_meets_iff.mp h)

theorem absorb_meet (ht : spans[i]? = some t) (h : Meets t r) :
    absorb (fuel + 1) i spans r = if swapRemove spans i = [] then ([], hull r t)
      else absorb fuel 1 (swapRemove spans i) (hull r t) := by
  have hhull : (if t.1 < r.1 then t.1 else r.1, if r.2 < t.2 then t.2 else r.2) = hull r t := by
    refine Prod.ext ?_ ?_
    · change (if t.1 < r.1 then t.1 else r.1) = min r.1 t.1
      split_ifs <;> omega
    · change (if r.2 < t.2 then t.2 else r.2) = max r.2 t.2
      split_ifs <;> omega
  rw [absorb, ht]
  simp only
  rw [if_neg (fun hn => not_meets_iff.mpr hn h), hhull]
  split_ifs with hnil
  · rw [hnil]
  · rfl

theorem length_swapRemove (ht : spans[i]? = some t) :
    (swapRemove spans i).length + 1 = spans.length := by
  rw [(perm_cons_swapRemove ht).length_eq, length_cons]

theorem absorbFuel_step (hi : i ≤ n) (hfuel : absorbFuel (n + 1) ≤ fuel + 1 + i) :
    absorbFuel n ≤ fuel + 1 := by
  unfold absorbFuel at *
  have : (n + 1) * (n + 1 + 1) = n * (n + 1) + n + n + 2 := by ring
  omega

/-- The entry that comes first when an entry is absorbed is not met: it was scanned before, or it
was the last one. -/
theorem first_not_met (ht : spans[i]? = some t) (hmeet : Meets t r)
    (hdone : ∀ t ∈ spans.take i, ¬Meets t r) (hends : i = 0 → ¬MeetsEnds spans r)
    (hu : u ∈ (swapRemove spans i).take 1) : ¬Meets u r := by
  obtain ⟨hi, -⟩ := List.getElem?_eq_some_iff.mp ht
  have hlen := length_swapRemove ht
  have hhead : (swapRemove spans i).head? = some u := by
    cases hs : swapRemove spans i with
    | nil =>
      rw [hs] at hu
      exact absurd hu not_mem_nil
    | cons a l =>
      rw [hs, take_succ_cons, take_zero, mem_singleton] at hu
      rw [hu, head?_cons]
  rcases eq_zero_or_pos i with rfl | hpos
  · have hlong : 1 < spans.length := by
      have := length_pos_iff.mpr (ne_nil_of_mem (mem_of_mem_head? hhead))
      omega
    rw [head?_swapRemove_zero hlong] at hhead
    intro hum
    refine hends rfl ⟨hlong, ⟨t, ?_, hmeet⟩, u, hhead, hum⟩
    rw [head?_eq_getElem?]
    exact ht
  · rw [head?_swapRemove_of_pos hpos hi, head?_eq_getElem?] at hhead
    obtain ⟨h0, hu0⟩ := List.getElem?_eq_some_iff.mp hhead
    exact hdone u (mem_take_iff_getElem.mpr ⟨0, by omega, hu0⟩)

/-- The loop ends with spans that are apart, and nothing is lost or added. -/
theorem absorb_spec (hfuel : absorbFuel spans.length ≤ fuel + i) (hspans : Apart spans)
    (hr : r.1 < r.2) (hdone : ∀ t ∈ spans.take i, ¬Meets t r)
    (hends : i = 0 → ¬MeetsEnds spans r) :
    Apart ((absorb fuel i spans r).2 :: (absorb fuel i spans r).1) ∧
      ∀ x, Covered ((absorb fuel i spans r).2 :: (absorb fuel i spans r).1) x ↔
        Covered (r :: spans) x := by
  induction fuel generalizing i spans r with
  | zero =>
    have hlen : spans.length ≤ i := by
      unfold absorbFuel at hfuel
      omega
    rw [take_of_length_le hlen] at hdone
    exact ⟨apart_cons.mpr ⟨hr, fun t ht => mt Meets.symm (hdone t ht), hspans⟩, fun x => Iff.rfl⟩
  | succ fuel ih =>
    cases ht : spans[i]? with
    | none =>
      have hlen := List.getElem?_eq_none_iff.mp ht
      rw [take_of_length_le hlen] at hdone
      rw [absorb, ht]
      exact ⟨apart_cons.mpr ⟨hr, fun t ht => mt Meets.symm (hdone t ht), hspans⟩, fun x => Iff.rfl⟩
    | some t =>
      obtain ⟨hi, hti⟩ := List.getElem?_eq_some_iff.mp ht
      by_cases hmeet : Meets t r
      · have hperm := perm_cons_swapRemove ht
        have hlen := length_swapRemove ht
        obtain ⟨htpos, htapart, hrest⟩ := apart_cons.mp (hspans.perm hperm.symm)
        have hcover : ∀ x, Covered (hull r t :: swapRemove spans i) x ↔ Covered (r :: spans) x := by
          intro x
          rw [covered_cons, covered_cons, covered_perm hperm, covered_cons, has_hull hmeet.symm,
            or_assoc]
        have hpos : (hull r t).1 < (hull r t).2 := by
          change min r.1 t.1 < max r.2 t.2
          omega
        rw [absorb_meet ht hmeet]
        split_ifs with hnil
        · rw [hnil] at hcover
          refine ⟨apart_cons.mpr ⟨hpos, ?_, hnil ▸ hrest⟩, hcover⟩
          exact nofun
        have hdone' : ∀ u ∈ (swapRemove spans i).take 1, ¬Meets u (hull r t) := by
          intro u hu
          have humem := mem_of_mem_take hu
          exact not_meets_hull (le_of_lt (hrest.pos u humem)) hmeet.symm
            (first_not_met ht hmeet hdone hends hu) (mt Meets.symm (htapart u humem))
        obtain ⟨h1, h2⟩ := ih (i := 1)
          (absorbFuel_step (i := i) (by omega) (by rw [hlen]; exact hfuel)) hrest hpos hdone'
          (fun h => absurd h one_ne_zero)
        exact ⟨h1, fun x => (h2 x).trans (hcover x)⟩
      · rw [absorb_skip ht hmeet]
        refine ih (by omega) hspans hr (fun u hu => ?_) fun h => absurd h (Nat.succ_ne_zero i)
        rw [take_succ_eq_append_getElem hi, mem_append, mem_singleton, hti] at hu
        rcases hu with hu | rfl
        · exact hdone u hu
        · exact hmeet

/-- The first entry stays out of sight once the scan is past it. -/
theorem absorb_keeps_first (fuel i : ℕ) (hz : spans.head? = some z) (hm : Meets z r) :
    (absorb fuel (i + 1) spans r).1.head? = some z ∧ Meets z (absorb fuel (i + 1) spans r).2 := by
  induction fuel generalizing i spans r with
  | zero => exact ⟨hz, hm⟩
  | succ fuel ih =>
    rcases ht : spans[i + 1]? with _ | t
    · rw [absorb, ht]
      exact ⟨hz, hm⟩
    by_cases hmeet : Meets t r
    · obtain ⟨hi, -⟩ := List.getElem?_eq_some_iff.mp ht
      have hz' := (head?_swapRemove_of_pos (Nat.succ_pos i) hi).trans hz
      rw [absorb_meet ht hmeet, if_neg fun hnil : swapRemove spans (i + 1) = [] => by
        rw [hnil] at hz'
        exact Option.some_ne_none z hz'.symm]
      exact ih 0 hz' (hm.hull_left t)
    · rw [absorb_skip ht hmeet]
      exact ih (i + 1) hz hm

/-- A span that meets both ends of the table ends up beside an entry that it meets. -/
theorem absorb_meetsEnds (h : MeetsEnds spans r) :
    ¬Apart ((absorb (fuel + 1) 0 spans r).2 :: (absorb (fuel + 1) 0 spans r).1) := by
  obtain ⟨hlong, ⟨t, ht, htr⟩, z, hz, hzr⟩ := h
  rw [Option.mem_def, head?_eq_getElem?] at ht
  have hfirst := (head?_swapRemove_zero hlong).trans hz
  rw [absorb_meet ht htr, if_neg fun hnil : swapRemove spans 0 = [] => by
    rw [hnil] at hfirst
    exact Option.some_ne_none z hfirst.symm]
  obtain ⟨hkept, hmeets⟩ := absorb_keeps_first fuel 0 hfirst (hzr.hull_left t)
  intro hapart
  exact (apart_cons.mp hapart).2.1 z (mem_of_mem_head? hkept) hmeets.symm

end Absorb

section Call

variable {spans spans' : List (ℕ × ℕ)} {c : ℕ × ℕ}

/-- The pages of a range, including those that it has only in part. -/
def pagesOf (c : ℕ × ℕ) : ℕ × ℕ := (alignDown c.1 pageSize, alignUp c.2 pageSize)

/-- The range ends before the last page of the address space. -/
def EndsInSpace (c : ℕ × ℕ) : Prop := c.2 ≤ uint64Max - (pageSize - 1)

instance (c : ℕ × ℕ) : Decidable (EndsInSpace c) := inferInstanceAs (Decidable (_ ≤ _))

theorem has_pagesOf {x : ℕ} (hc : c.1 < c.2) :
    Has (pagesOf c) x ↔ ∃ y, Has c y ∧ y / pageSize = x / pageSize := by
  unfold Has pagesOf alignDown alignUp pageSize
  constructor
  · rintro ⟨h1, h2⟩
    exact ⟨max c.1 (x / 4096 * 4096), by dsimp only at *; omega, by dsimp only at *; omega⟩
  · rintro ⟨y, ⟨h1, h2⟩, hy⟩
    omega

theorem pagesOf_eq (h : pageSize ∣ c.1 ∧ pageSize ∣ c.2) : pagesOf c = c :=
  Prod.ext (alignDown_of_dvd h.1) (alignUp_of_dvd (by decide) h.2)

theorem addDirectMapSpan_cases (h : addDirectMapSpan spans c.1 c.2 = .ok spans')
    (hc : EndsInSpace c) :
    ((pagesOf c).2 ≤ (pagesOf c).1 ∧ spans' = spans) ∨
      ((pagesOf c).1 < (pagesOf c).2 ∧
        spans' = (absorb (absorbFuel spans.length) 0 spans (pagesOf c)).1 ++
          [(absorb (absorbFuel spans.length) 0 spans (pagesOf c)).2]) := by
  have hdown : alignDownChecked c.1 pageSize = some (pagesOf c).1 := by
    rfl
  have hup : alignUpChecked c.2 pageSize = some (pagesOf c).2 := by
    rw [alignUpChecked, isPowerOfTwo_pageSize, if_neg (by decide), if_neg (not_lt.mpr hc)]
    rfl
  rw [addDirectMapSpan, hdown, hup] at h
  simp only at h
  split_ifs at h with hempty hfull
  · cases h
    exact .inl ⟨hempty, rfl⟩
  · cases h
    exact .inr ⟨not_le.mp hempty, rfl⟩

/-- The table after a call: apart, and with the pages of the new range besides the old ones. -/
def AddsPages (spans spans' : List (ℕ × ℕ)) (c : ℕ × ℕ) : Prop :=
  Apart spans' ∧ ∀ x, Covered spans' x ↔ Covered spans x ∨ Has (pagesOf c) x

variable (h : addDirectMapSpan spans c.1 c.2 = .ok spans') (hc : EndsInSpace c)
  (hspans : Apart spans)

include h hc hspans

/-- **A call does its work if and only if the new span does not meet both ends of the table.** -/
theorem addsPages_iff (hpos : (pagesOf c).1 < (pagesOf c).2) :
    AddsPages spans spans' c ↔ ¬MeetsEnds spans (pagesOf c) := by
  obtain ⟨hle, -⟩ | ⟨-, rfl⟩ := addDirectMapSpan_cases h hc
  · exact absurd hpos (not_lt.mpr hle)
  have hperm := perm_append_singleton (absorb (absorbFuel spans.length) 0 spans (pagesOf c)).2
    (absorb (absorbFuel spans.length) 0 spans (pagesOf c)).1
  constructor
  · intro hadds hends
    exact absorb_meetsEnds hends (hadds.1.perm hperm.symm)
  intro hends
  have hfuel : absorbFuel spans.length ≤ absorbFuel spans.length + 0 := le_rfl
  obtain ⟨hapart, hcover⟩ := absorb_spec hfuel hspans hpos (nofun) fun _ => hends
  refine ⟨hapart.perm hperm, fun x => ?_⟩
  rw [covered_perm hperm, hcover, covered_cons, or_comm]

/-- A range without pages changes nothing. -/
theorem addsPages_of_le (hle : (pagesOf c).2 ≤ (pagesOf c).1) : AddsPages spans spans' c := by
  obtain ⟨-, rfl⟩ | ⟨hlt, -⟩ := addDirectMapSpan_cases h hc
  · refine ⟨hspans, fun x => (or_iff_left ?_).symm⟩
    rintro ⟨h1, h2⟩
    exact not_lt.mpr hle (h1.trans_lt h2)
  · exact absurd hlt (not_lt.mpr hle)

end Call

section Map

variable {spans rest maps : List (ℕ × ℕ)} {window bytes : ℕ}

def lowDirectMapBytes : ℕ := 4 * 1024 * 1024 * 1024

/-- The callback of `init` for one span: the physical ranges mapped so far, and `mapped_bytes`. -/
def mapSpan (window : ℕ) (ctx : List (ℕ × ℕ) × ℕ) (span : ℕ × ℕ) :
    Except String (List (ℕ × ℕ) × ℕ) :=
  if span.2 ≤ lowDirectMapBytes then .ok ctx
  else
    let start := if span.1 < lowDirectMapBytes then lowDirectMapBytes else span.1
    if window < span.2 then .error "VMM: physical direct map window exhausted"
    else .ok (ctx.1 ++ [(start, span.2)], ctx.2 + (span.2 - start))

/-- The direct map that `init` builds in a window of the given size: the physical ranges that are
mapped, and `mapped_direct_map_bytes`. -/
def directMap (window : ℕ) (spans : List (ℕ × ℕ)) : Except String (List (ℕ × ℕ) × ℕ) :=
  if window < lowDirectMapBytes then .error "VMM: physical direct map window exhausted"
  else spans.foldlM (mapSpan window) ([(0, lowDirectMapBytes)], lowDirectMapBytes)

/-- What the direct map has of the spans so far. -/
structure MapsSpans (spans : List (ℕ × ℕ)) (ctx : List (ℕ × ℕ) × ℕ) : Prop where
  cover : ∀ x, Covered ctx.1 x ↔ x < lowDirectMapBytes ∨ Covered spans x
  disjoint : ctx.1.Pairwise NoneShared
  bytes : ctx.2 = (ctx.1.map fun r => r.2 - r.1).sum

theorem mapsSpans_nil : MapsSpans [] ([(0, lowDirectMapBytes)], lowDirectMapBytes) where
  cover x := by
    rw [covered_cons, or_iff_left not_covered_nil, or_iff_left not_covered_nil]
    exact and_iff_right (Nat.zero_le x)
  disjoint := pairwise_singleton _ _
  bytes := rfl

/-- One more span, which shares nothing with those before. -/
theorem MapsSpans.mapSpan {ctx ctx' : List (ℕ × ℕ) × ℕ} {span : ℕ × ℕ} (hm : MapsSpans spans ctx)
    (h : Pmm.mapSpan window ctx span = .ok ctx') (hnew : ∀ t ∈ spans, NoneShared t span) :
    MapsSpans (spans ++ [span]) ctx' := by
  have hcover : ∀ x, (x < lowDirectMapBytes ∨ Covered (spans ++ [span]) x) ↔
      (x < lowDirectMapBytes ∨ Covered spans x) ∨ Has span x := by
    intro x
    rw [covered_append, covered_cons, or_iff_left not_covered_nil, or_assoc]
  have hstart : (if span.1 < lowDirectMapBytes then lowDirectMapBytes else span.1) =
      max span.1 lowDirectMapBytes := by
    split_ifs <;> omega
  unfold Pmm.mapSpan at h
  rw [hstart] at h
  split_ifs at h with hlow hwindow
  · cases h
    refine ⟨fun x => ?_, hm.disjoint, hm.bytes⟩
    rw [hcover, hm.cover]
    exact (or_iff_left_of_imp fun hx => .inl (hx.2.trans_le hlow)).symm
  cases h
  refine ⟨fun x => ?_, ?_, ?_⟩
  · rw [hcover, covered_append, covered_cons, or_iff_left not_covered_nil, hm.cover]
    -- below the boundary the clipped span has nothing, and the low range has everything
    by_cases hx : x < lowDirectMapBytes
    · simp only [hx, true_or]
    · refine or_congr Iff.rfl (and_congr_left fun _ => ?_)
      exact max_le_iff.trans (and_iff_left (not_lt.mp hx))
  · refine pairwise_append.mpr ⟨hm.disjoint, pairwise_singleton _ _, ?_⟩
    intro r hr t ht
    obtain rfl := mem_singleton.mp ht
    rintro x hxr ⟨hx1, hx2⟩
    obtain ⟨hx1, hlow⟩ := max_le_iff.mp hx1
    rcases (hm.cover x).mp ⟨r, hr, hxr⟩ with hx | ⟨t, ht, hxt⟩
    · exact not_lt.mpr hlow hx
    · exact hnew t ht x hxt ⟨hx1, hx2⟩
  · rw [hm.bytes, map_append, sum_append, map_cons, map_nil, sum_singleton]

theorem noneShared_of_not_meets {r t : ℕ × ℕ} (h : ¬Meets r t) : NoneShared r t := by
  rintro x ⟨h1, h2⟩ ⟨h3, h4⟩
  rcases not_meets_iff.mp h with h | h <;> omega

theorem mapsSpans_foldlM {ctx ctx' : List (ℕ × ℕ) × ℕ}
    (hm : MapsSpans spans ctx) (hapart : Apart (spans ++ rest))
    (h : rest.foldlM (mapSpan window) ctx = .ok ctx') : MapsSpans (spans ++ rest) ctx' := by
  induction rest generalizing spans ctx with
  | nil =>
    cases h
    rwa [append_nil]
  | cons span rest ih =>
    obtain ⟨ctx1, h1, h⟩ := Step.ok_bind h
    rw [append_cons] at hapart ⊢
    refine ih (hm.mapSpan h1 fun t ht => noneShared_of_not_meets ?_) hapart h
    have hpair := (pairwise_append.mp (pairwise_append.mp hapart.apart).1).2.2
    exact hpair t ht span (mem_singleton_self span)

/-- **The direct map of spans that are apart** has every byte of them and of the low range once,
and counts it once. -/
theorem directMap_spec (hapart : Apart spans)
    (h : directMap window spans = .ok (maps, bytes)) :
    (∀ x, maps.countP (fun r => decide (Has r x)) =
      if x < lowDirectMapBytes ∨ Covered spans x then 1 else 0) ∧
      bytes = {x | x < lowDirectMapBytes ∨ Covered spans x}.ncard := by
  unfold directMap at h
  split_ifs at h
  obtain ⟨hcover, hdisjoint, hbytes⟩ := mapsSpans_foldlM mapsSpans_nil hapart h
  refine ⟨fun x => ?_, ?_⟩
  · rw [countP_has hdisjoint]
    exact if_congr (hcover x) rfl rfl
  · exact hbytes.trans ((ncard_covered hdisjoint).symm.trans (congrArg Set.ncard (Set.ext hcover)))

end Map

section Runs

variable {spans given : List (ℕ × ℕ)}

/-- The new span has no page at all, or it has a byte and does not meet both ends of the table;
and it ends before the last page of the address space. -/
def Tame (spans : List (ℕ × ℕ)) (c : ℕ × ℕ) : Prop :=
  EndsInSpace c ∧
    ((pagesOf c).2 ≤ (pagesOf c).1 ∨ c.1 < c.2 ∧ ¬MeetsEnds spans (pagesOf c))

instance (spans : List (ℕ × ℕ)) (c : ℕ × ℕ) : Decidable (Tame spans c) :=
  inferInstanceAs (Decidable (_ ∧ _))

/-- A call that returns, on the table and the ranges that were given. -/
def TameCall (σ σ' : List (ℕ × ℕ) × List (ℕ × ℕ)) : Prop :=
  ∃ c, Tame σ.1 c ∧ addDirectMapSpan σ.1 c.1 c.2 = .ok σ'.1 ∧ σ'.2 = c :: σ.2

/-- The table has the pages of the ranges that were given. -/
def HoldsPages (spans given : List (ℕ × ℕ)) : Prop :=
  Apart spans ∧ ∀ x, Covered spans x ↔ ∃ c ∈ given, ∃ y, Has c y ∧ y / pageSize = x / pageSize

theorem pagesOf_lt {c : ℕ × ℕ} (hc : c.1 < c.2) : (pagesOf c).1 < (pagesOf c).2 := by
  unfold pagesOf alignDown alignUp pageSize
  omega

theorem HoldsPages.tameCall {σ σ' : List (ℕ × ℕ) × List (ℕ × ℕ)} (hi : HoldsPages σ.1 σ.2)
    (h : TameCall σ σ') : HoldsPages σ'.1 σ'.2 := by
  obtain ⟨c, ⟨hspace, hc⟩, hadd, hgiven⟩ := h
  rw [HoldsPages, hgiven]
  rcases hc with hle | ⟨hlt, hends⟩
  · obtain ⟨hapart, hcover⟩ := addsPages_of_le hadd hspace hi.1 hle
    refine ⟨hapart, fun x => ?_⟩
    have hnone : ¬∃ y, Has c y ∧ y / pageSize = x / pageSize := by
      rintro ⟨y, ⟨h1, h2⟩, -⟩
      exact not_lt.mpr hle (pagesOf_lt (h1.trans_lt h2))
    have hno : ¬Has (pagesOf c) x := fun ⟨h1, h2⟩ => not_lt.mpr hle (h1.trans_lt h2)
    rw [hcover, hi.2, exists_mem_cons_iff, or_iff_left hno, or_iff_right hnone]
  · obtain ⟨hapart, hcover⟩ := (addsPages_iff hadd hspace hi.1 (pagesOf_lt hlt)).mpr hends
    refine ⟨hapart, fun x => ?_⟩
    rw [hcover, hi.2, has_pagesOf hlt, exists_mem_cons_iff, or_comm]

/-- Ranges of whole pages have the bytes of the pages that they touch. -/
theorem touches_iff_covered {x : ℕ} (h : ∀ c ∈ given, pageSize ∣ c.1 ∧ pageSize ∣ c.2) :
    (∃ c ∈ given, ∃ y, Has c y ∧ y / pageSize = x / pageSize) ↔ Covered given x := by
  refine exists_congr fun c => and_congr_right fun hc => ⟨?_, fun hx => ⟨x, hx, rfl⟩⟩
  rintro ⟨y, hy, hyx⟩
  have hx := (has_pagesOf (x := x) (hy.1.trans_lt hy.2)).mpr ⟨y, hy, hyx⟩
  rwa [pagesOf_eq (h c hc)] at hx

/-- **The table of direct-map spans** after calls whose spans never meet both ends of it: it holds
the pages of the given ranges in spans that are apart, the direct map has each of their bytes once,
and the next call is right under the same condition only. -/
theorem directMapSpans_of_tame_run (hrun : Relation.ReflTransGen TameCall ([], []) (spans, given)) :
    HoldsPages spans given ∧
      ((∀ c ∈ given, pageSize ∣ c.1 ∧ pageSize ∣ c.2) → ∀ x, Covered spans x ↔ Covered given x) ∧
      (∀ window maps bytes, directMap window spans = .ok (maps, bytes) →
        (∀ x, maps.countP (fun r => decide (Has r x)) =
          if x < lowDirectMapBytes ∨ Covered spans x then 1 else 0) ∧
          bytes = {x | x < lowDirectMapBytes ∨ Covered spans x}.ncard) ∧
      ∀ c spans', EndsInSpace c → c.1 < c.2 → addDirectMapSpan spans c.1 c.2 = .ok spans' →
        (AddsPages spans spans' c ↔ ¬MeetsEnds spans (pagesOf c)) := by
  have hstart : HoldsPages [] [] := by
    refine ⟨⟨nofun, List.Pairwise.nil⟩, fun x => ?_⟩
    refine iff_of_false not_covered_nil ?_
    rintro ⟨c, hc, -⟩
    exact not_mem_nil hc
  have hpages := Step.run_invariant (I := fun σ => HoldsPages σ.1 σ.2) hrun hstart fun hi h =>
    hi.tameCall h
  refine ⟨hpages, fun hg x => (hpages.2 x).trans (touches_iff_covered hg),
    fun window maps bytes h => directMap_spec hpages.1 h, fun c spans' hspace hc h => ?_⟩
  exact addsPages_iff h hspace hpages.1 (pagesOf_lt hc)

/-- Two spans above the low range, and one that overlaps the first of them. -/
theorem directMapSpans_of_tame_run_three :
    HoldsPages [(0x100004000, 0x100005000), (0x100000000, 0x100002000)]
      [(0x100000800, 0x100001800), (0x100004000, 0x100005000), (0x100000000, 0x100001000)] := by
  have h1 : TameCall ([], []) ([(0x100000000, 0x100001000)], [(0x100000000, 0x100001000)]) :=
    ⟨_, by decide, Step.ok_of_toOption (by decide), rfl⟩
  have h2 : TameCall ([(0x100000000, 0x100001000)], [(0x100000000, 0x100001000)])
      ([(0x100000000, 0x100001000), (0x100004000, 0x100005000)],
        [(0x100004000, 0x100005000), (0x100000000, 0x100001000)]) :=
    ⟨_, by decide, Step.ok_of_toOption (by decide), rfl⟩
  have h3 : TameCall ([(0x100000000, 0x100001000), (0x100004000, 0x100005000)],
        [(0x100004000, 0x100005000), (0x100000000, 0x100001000)])
      ([(0x100004000, 0x100005000), (0x100000000, 0x100002000)],
        [(0x100000800, 0x100001800), (0x100004000, 0x100005000), (0x100000000, 0x100001000)]) :=
    ⟨_, by decide, Step.ok_of_toOption (by decide), rfl⟩
  exact (directMapSpans_of_tame_run (((Relation.ReflTransGen.single h1).tail h2).tail h3)).1

/-- The third span contains the first two, which are then the ends of the table: the second one
stays beside it, its page is mapped twice by the direct map, and its bytes are counted twice. -/
theorem spanned_ends_mapped_twice :
    ([(0x100000000, 0x100001000), (0x100002000, 0x100003000), (0x100000000, 0x100003000)].foldlM
        (fun spans c => addDirectMapSpan spans c.1 c.2) []).toOption =
        some [(0x100002000, 0x100003000), (0x100000000, 0x100003000)] ∧
      (directMap 0x100000000000 [(0x100002000, 0x100003000), (0x100000000, 0x100003000)]).toOption =
        some ([(0, 0x100000000), (0x100002000, 0x100003000), (0x100000000, 0x100003000)],
          0x100000000 + 0x1000 + 0x3000) := by
  decide

end Runs

end RHKernel.Pmm
