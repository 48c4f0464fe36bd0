import RHKernel.Lib.Tiling
import RHKernel.Memory.VirtualRange.Segments

/-!
# Runs of the allocator of virtual ranges

The segments tile the range, no two free ones are adjacent, and those in use are the ranges that
were handed out and not given back. As free segments are never adjacent, a gap between live ranges
lies inside one segment, so `allocate` only fails if there is no gap.
-/

namespace RHKernel.VirtualRange

open Bits List Pmm Relation Tiling VirtualRangeAllocator

variable {s s' : VirtualRangeAllocator} {l l' l₁ l₂ : List (ℕ × Extent)} {p q base size n addr : ℕ}
  {e d : Extent} {x y : ℕ × Extent}

/-- The two segments are not both free. -/
def NotBothFree (x y : ℕ × Extent) : Prop := ¬(x.2.isFree = true ∧ y.2.isFree = true)

/-- The segments tile the range in pages. -/
structure Laid (base size : ℕ) (l : List (ℕ × Extent)) : Prop where
  tiles : Tiles (fun x => x.2.start) (fun x => x.2.size) base (base + size) l
  aligned : ∀ x ∈ l, pageSize ∣ x.2.start ∧ pageSize ∣ x.2.size
  pos : (size = 0 ∧ l.length = 1) ∨ ∀ x ∈ l, 0 < x.2.size

theorem Laid.bounds (h : Laid base size l) (hx : x ∈ l) :
    base ≤ x.2.start ∧ x.2.start + x.2.size ≤ base + size := h.tiles.bounds hx

/-- Members of a list around a segment, and of the list with other segments in its place. -/
theorem forall_mem_around {P : ℕ × Extent → Prop} :
    (∀ y ∈ l₁ ++ x :: l₂, P y) ↔ (∀ y ∈ l₁, P y) ∧ P x ∧ ∀ y ∈ l₂, P y := by
  rw [forall_mem_append, forall_mem_cons]

theorem Laid.replace (h : Laid base size (l₁ ++ x :: l₂)) (hstart : y.2.start = x.2.start)
    (hsize : y.2.size = x.2.size) : Laid base size (l₁ ++ y :: l₂) where
  tiles := h.tiles.replace hstart hsize
  aligned := by
    have := h.aligned
    rw [forall_mem_around] at this ⊢
    rwa [hstart, hsize]
  pos := by
    have := h.pos
    rw [forall_mem_around, length_append, length_cons] at this ⊢
    rwa [hsize]

theorem Laid.split (h : Laid base size (l₁ ++ (p, e) :: l₂)) (hn : pageSize ∣ n) (hpos : 0 < n)
    (hlt : n < e.size) (hend : base + size ≤ 2 ^ 64) :
    Laid base size (l₁ ++ (p, (e.front n).use) :: (q, e.rest n) :: l₂) := by
  have hmem : (p, e) ∈ l₁ ++ (p, e) :: l₂ := mem_append_right _ mem_cons_self
  obtain ⟨hlow, hhigh⟩ := h.bounds hmem
  dsimp only at hlow hhigh
  have hmod : (e.rest n).start = e.start + n := Nat.mod_eq_of_lt (by omega)
  have hsum : n + (e.rest n).size = e.size := Nat.add_sub_cancel' hlt.le
  obtain ⟨h1, h2, h3⟩ := forall_mem_around.mp h.aligned
  refine ⟨h.tiles.split rfl hmod hsum, ?_, .inr ?_⟩
  · rw [forall_mem_around, forall_mem_cons]
    refine ⟨h1, ⟨h2.1, hn⟩, ⟨?_, Nat.dvd_sub h2.2 hn⟩, h3⟩
    exact (show (e.rest n).start = _ from hmod) ▸ Nat.dvd_add h2.1 hn
  rcases h.pos with ⟨rfl, -⟩ | hall
  · omega
  · rw [forall_mem_around] at hall
    rw [forall_mem_around, forall_mem_cons]
    exact ⟨hall.1, hpos, Nat.sub_pos_of_lt hlt, hall.2.2⟩

theorem Laid.join (h : Laid base size (l₁ ++ x :: y :: l₂)) (hsize : size < 2 ^ 64) :
    Laid base size (l₁ ++ (x.1, x.2.grow y.2) :: l₂) := by
  have hx := h.bounds (x := x) (mem_append_right _ mem_cons_self)
  have hy := h.bounds (x := y)
    (mem_append_right _ (mem_cons_of_mem _ mem_cons_self))
  have hnext : y.2.start = x.2.start + x.2.size := by
    obtain ⟨m, -, rfl, hstart, -⟩ := tiles_append.mp h.tiles
    exact hstart
  have hgrow : (x.2.grow y.2).size = x.2.size + y.2.size := Nat.mod_eq_of_lt (by omega)
  obtain ⟨h1, h2, h3⟩ := forall_mem_around.mp h.aligned
  rw [forall_mem_cons] at h3
  refine ⟨h.tiles.join rfl hgrow, ?_, ?_⟩
  · refine forall_mem_around.mpr ⟨h1, ⟨h2.1, ?_⟩, h3.2⟩
    exact (show (x.2.grow y.2).size = _ from hgrow) ▸ Nat.dvd_add h2.2 h3.1.2
  rcases h.pos with ⟨rfl, hlen⟩ | hall
  · rw [length_append, length_cons, length_cons] at hlen
    omega
  · rw [forall_mem_around, forall_mem_cons] at hall
    refine .inr (forall_mem_around.mpr ⟨hall.1, ?_, hall.2.2.2⟩)
    change 0 < (x.2.grow y.2).size
    omega

/-! ### Free segments are not adjacent -/

theorem isChain_around (h1 : l₁.IsChain NotBothFree) (h2 : l₂.IsChain NotBothFree)
    (hlast : ∀ y ∈ l₁.getLast?, y.2.isFree = false) (hhead : ∀ y ∈ l₂.head?, y.2.isFree = false) :
    (l₁ ++ x :: l₂).IsChain NotBothFree := by
  refine isChain_append.mpr ⟨h1, isChain_cons.mpr ⟨fun y hy hb => ?_, h2⟩, ?_⟩
  · exact Bool.false_ne_true ((hhead y hy).symm.trans hb.2)
  · intro y hy z _ hb
    exact Bool.false_ne_true ((hlast y hy).symm.trans hb.1)

theorem not_free_of_isChain_cons (h : (x :: l).IsChain NotBothFree) (hx : x.2.isFree = true) :
    ∀ y ∈ l.head?, y.2.isFree = false := fun y hy =>
  Bool.eq_false_iff.mpr fun hfree => (isChain_cons.mp h).1 y hy ⟨hx, hfree⟩

theorem JoinNext.isChain (h : JoinNext e l d l') (hl : l.IsChain NotBothFree) :
    l'.IsChain NotBothFree ∧ ∀ y ∈ l'.head?, y.2.isFree = false := by
  cases h with
  | keep h => exact ⟨hl, h⟩
  | join h => exact ⟨(isChain_cons.mp hl).2, not_free_of_isChain_cons hl h⟩

theorem JoinPrev.isChain (h : JoinPrev x l y l') (hl : l.IsChain NotBothFree) :
    l'.IsChain NotBothFree ∧ ∀ y ∈ l'.getLast?, y.2.isFree = false := by
  cases h with
  | keep h => exact ⟨hl, h⟩
  | join h => exact ⟨(isChain_append.mp hl).1, fun y hy => Bool.eq_false_iff.mpr fun hfree =>
      (isChain_append.mp hl).2.2 y hy _ rfl ⟨hfree, h⟩⟩

/-- The segments tile the range, and no two free ones are adjacent. -/
structure Tidy (base size : ℕ) (l : List (ℕ × Extent)) : Prop extends Laid base size l where
  apart : l.IsChain NotBothFree

/-- The extents of the segments in use. -/
def busy (l : List (ℕ × Extent)) : List (ℕ × ℕ) :=
  (l.filter fun x => !x.2.isFree).map fun x => (x.2.start, x.2.size)

theorem busy_append (l₁ l₂ : List (ℕ × Extent)) : busy (l₁ ++ l₂) = busy l₁ ++ busy l₂ := by
  rw [busy, filter_append, map_append, busy, busy]

theorem busy_cons_of_free (h : x.2.isFree = true) (l : List (ℕ × Extent)) :
    busy (x :: l) = busy l := by
  rw [busy, filter_cons_of_neg (by rw [h]; exact Bool.false_ne_true), busy]

theorem busy_cons_of_used (h : x.2.isFree = false) (l : List (ℕ × Extent)) :
    busy (x :: l) = (x.2.start, x.2.size) :: busy l := by
  rw [busy, filter_cons_of_pos (by rw [h]; rfl), map_cons, busy]

theorem mem_busy {r : ℕ × ℕ} :
    r ∈ busy l ↔ ∃ x ∈ l, x.2.isFree = false ∧ (x.2.start, x.2.size) = r := by
  rw [busy, mem_map]
  simp only [mem_filter, Bool.not_eq_true', and_assoc]

theorem Tidy.taken (h : Tidy base size (l₁ ++ (p, e) :: l₂)) (hfree : e.isFree = true)
    (hn : pageSize ∣ n) (hpos : 0 < n) (hle : n ≤ e.size) (hend : base + size ≤ 2 ^ 64) (q : ℕ) :
    Tidy base size (taken l₁ p e l₂ n q) ∧
      (busy (taken l₁ p e l₂ n q)).Perm ((e.start, n) :: busy (l₁ ++ (p, e) :: l₂)) := by
  obtain ⟨h1, h2, h3⟩ := isChain_append.mp h.apart
  have hbusy : busy (l₁ ++ (p, e) :: l₂) = busy l₁ ++ busy l₂ := by
    rw [busy_append, busy_cons_of_free hfree]
  rw [VirtualRange.taken, hbusy]
  split_ifs with hlt
  · refine ⟨⟨h.toLaid.split hn hpos hlt hend, ?_⟩, ?_⟩
    · refine isChain_append.mpr ⟨h1, isChain_cons.mpr ⟨?_, ?_⟩, ?_⟩
      · exact fun y _ hb => Bool.false_ne_true hb.1
      · change (([] : List (ℕ × Extent)) ++ _ :: l₂).IsChain NotBothFree
        refine isChain_around isChain_nil (isChain_cons.mp h2).2 ?_
          (not_free_of_isChain_cons h2 hfree)
        exact fun y hy => absurd hy.symm (Option.some_ne_none y)
      · intro y _ z hz hb
        cases hz
        exact Bool.false_ne_true hb.2
    · rw [busy_append, busy_cons_of_used rfl, busy_cons_of_free rfl]
      exact perm_middle
  · obtain rfl : n = e.size := by omega
    refine ⟨⟨h.toLaid.replace rfl rfl, ?_⟩, ?_⟩
    · have h2' := (isChain_cons.mp h2).2
      refine isChain_append.mpr ⟨h1, isChain_cons.mpr ⟨?_, h2'⟩, ?_⟩
      · exact fun y _ hb => Bool.false_ne_true hb.1
      · intro y _ z hz hb
        cases hz
        exact Bool.false_ne_true hb.2
    · rw [busy_append, busy_cons_of_used rfl]
      exact perm_middle

theorem JoinNext.laid (h : JoinNext e l₂ d l) (hl : Laid base size (l₁ ++ (p, e) :: l₂))
    (hsize : size < 2 ^ 64) : Laid base size (l₁ ++ (p, d) :: l) := by
  cases h with
  | keep => exact hl
  | join => exact hl.join hsize

theorem JoinPrev.laid (h : JoinPrev x l₁ y l) (hl : Laid base size (l₁ ++ x :: l₂))
    (hsize : size < 2 ^ 64) : Laid base size (l ++ y :: l₂) := by
  cases h with
  | keep => exact hl
  | join =>
    rw [append_assoc] at hl
    exact hl.join hsize

/-- What is joined was free, and so is what it is joined to. -/
theorem JoinNext.busy_eq (h : JoinNext e l d l') : busy l' = busy l ∧ d.isFree = e.isFree := by
  cases h with
  | keep => exact ⟨rfl, rfl⟩
  | join h => exact ⟨(busy_cons_of_free h l').symm, rfl⟩

theorem JoinPrev.busy_eq (h : JoinPrev x l y l') (hx : x.2.isFree = true) :
    busy l' = busy l ∧ y.2.isFree = true := by
  cases h with
  | keep => exact ⟨rfl, hx⟩
  | join h =>
    rw [busy_append, busy_cons_of_free h]
    exact ⟨(append_nil _).symm, h⟩

theorem Tidy.freed (h : Tidy base size (l₁ ++ (p, e) :: l₂)) (hsize : size < 2 ^ 64)
    (hl : Freed l₁ p e l₂ l) : Tidy base size l ∧ busy l = busy l₁ ++ busy l₂ := by
  obtain ⟨d, l₂', x, l₁', hnext, hprev, rfl⟩ := hl
  obtain ⟨h1, h2, -⟩ := isChain_append.mp h.apart
  obtain ⟨hchain2, hhead⟩ := hnext.isChain (isChain_cons.mp h2).2
  obtain ⟨hchain1, hlast⟩ := hprev.isChain h1
  obtain ⟨hbusy2, hfree⟩ := hnext.busy_eq
  obtain ⟨hbusy1, hfree⟩ := hprev.busy_eq hfree
  refine ⟨⟨?_, isChain_around hchain1 hchain2 hlast hhead⟩, ?_⟩
  · exact hprev.laid (hnext.laid (h.toLaid.replace (y := (p, e.unuse)) rfl rfl) hsize) hsize
  · rw [busy_append, busy_cons_of_free hfree, hbusy1, hbusy2]

theorem Laid.start_ne (h : Laid base size (l₁ ++ (p, e) :: l₂)) (hx : x ∈ l₁ ∨ x ∈ l₂) :
    x.2.start ≠ e.start := by
  have hall : ∀ y ∈ l₁ ++ (p, e) :: l₂, 0 < y.2.size := by
    refine h.pos.resolve_left fun ⟨_, hlen⟩ => ?_
    rw [length_append, length_cons] at hlen
    have : 0 < l₁.length ∨ 0 < l₂.length := hx.imp length_pos_of_mem length_pos_of_mem
    omega
  rw [forall_mem_around] at hall
  obtain ⟨-, hright, hleft⟩ := pairwise_append.mp h.tiles.pairwise
  rcases hx with hx | hx
  · have := hleft x hx (p, e) mem_cons_self
    have := hall.1 x hx
    dsimp only at *
    omega
  · have := (pairwise_cons.mp hright).1 x hx
    dsimp only at *
    omega

/-! ### Runs -/

/-- The allocator, and the ranges that were handed out and not given back: the address and the
length that was asked for. -/
structure World where
  alloc : VirtualRangeAllocator
  live : List (ℕ × ℕ)

/-- A call that returns. A segment that `kmalloc` hands out is not in use. -/
inductive Call (w : World) : World → Prop
  | allocate {n a : ℕ} {kmalloc : Option ℕ} {s' : VirtualRangeAllocator}
      (hfresh : ∀ q ∈ kmalloc, w.alloc.seg q = none)
      (h : w.alloc.allocate n kmalloc = .ok (a, s')) :
      Call w ⟨s', if a = 0 then w.live else (a, n) :: w.live⟩
  | free {addr : ℕ} {s' : VirtualRangeAllocator} (h : w.alloc.free addr = .ok s') :
      Call w ⟨s', w.live.filter fun r => decide (r.1 ≠ addr)⟩

/-- The pages of a live range. -/
def pages (r : ℕ × ℕ) : ℕ × ℕ := (r.1, alignUp r.2 pageSize)

/-- The list of segments behind the state. -/
structure Inv (base size : ℕ) (w : World) (l : List (ℕ × Extent)) : Prop where
  rep : Rep w.alloc l
  total : w.alloc.totalSize = size
  tidy : Tidy base size l
  live : (w.live.map pages).Perm (busy l)

/-- The live ranges are in the range, on page boundaries, and disjoint. -/
structure LiveRanges (base size : ℕ) (live : List (ℕ × ℕ)) : Prop where
  within : ∀ r ∈ live, pageSize ∣ r.1 ∧ base ≤ r.1 ∧ r.1 + alignUp r.2 pageSize ≤ base + size
  disjoint : live.Pairwise fun r t =>
    r.1 + alignUp r.2 pageSize ≤ t.1 ∨ t.1 + alignUp t.2 pageSize ≤ r.1

variable {w w' : World}

theorem Inv.length_le (h : Inv base size w l) : l.length ≤ w.alloc.rounds := by
  rw [rounds, h.total]
  rcases h.tidy.pos with ⟨-, hlen⟩ | hpos
  · rw [hlen]
    exact Nat.le_add_left 1 _
  have hmin : ∀ x ∈ l, pageSize ≤ x.2.size := fun x hx =>
    Nat.le_of_dvd (hpos x hx) (h.tidy.aligned x hx).2
  have := h.tidy.tiles.length_mul_le hmin
  unfold pageSize at *
  omega

theorem Inv.liveRanges (h : Inv base size w l) : LiveRanges base size w.live := by
  constructor
  · intro r hr
    obtain ⟨x, hx, -, hxr⟩ := mem_busy.mp (h.live.mem_iff.mp (mem_map_of_mem hr))
    obtain ⟨h1, h2⟩ := Prod.ext_iff.mp hxr
    have hbounds := h.tidy.bounds hx
    have haligned := h.tidy.aligned x hx
    dsimp only [pages] at h1 h2
    rw [h1] at hbounds haligned
    rw [h2] at hbounds
    exact ⟨haligned.1, hbounds⟩
  · have hbusy : (busy l).Pairwise fun r t => r.1 + r.2 ≤ t.1 ∨ t.1 + t.2 ≤ r.1 :=
      pairwise_map.mpr ((h.tidy.tiles.pairwise.filter _).imp Or.inl)
    exact pairwise_map.mp ((h.live.pairwise_iff fun hrt => hrt.symm).mpr hbusy)

/-- A range of zero length is never asked for, and rounding up does not wrap. -/
theorem alignUp_page_pos (h : n ≠ 0) : 0 < alignUp n pageSize :=
  (Nat.pos_of_ne_zero h).trans_le (le_alignUp n (by decide))

theorem Inv.allocate {kmalloc : Option ℕ} (h : Inv base size w l) (hpos : 0 < base)
    (hend : base + size ≤ 2 ^ 64) (hfresh : ∀ q ∈ kmalloc, w.alloc.seg q = none) :
    ∃ a s', w.alloc.allocate n kmalloc = .ok (a, s') ∧
      (∃ l', Inv base size ⟨s', if a = 0 then w.live else (a, n) :: w.live⟩ l') ∧
      (a = 0 → n = 0 ∨ uint64Max - (pageSize - 1) < n ∨ kmalloc = none ∨
        ∀ x ∈ l, x.2.isFree → x.2.size < alignUp n pageSize) := by
  by_cases hn : n = 0 ∨ uint64Max - (pageSize - 1) < n
  · refine ⟨0, w.alloc, if_pos hn, ⟨l, ?_⟩, fun _ => hn.imp_right Or.inl⟩
    exact h
  obtain ⟨a, s', hs', hspec⟩ := allocate_spec h.rep h.length_le hn hfresh
  refine ⟨a, s', hs', ?_⟩
  cases hspec with
  | none hnone =>
    exact ⟨⟨l, h⟩, fun _ => .inr (.inr (.inr hnone))⟩
  | noMemory hk =>
    exact ⟨⟨l, h⟩, fun _ => .inr (.inr (.inl hk))⟩
  | @takes l₁ l₂ p e s' q hl hfree hsize hrep htotal =>
    subst hl
    obtain ⟨htidy, hbusy⟩ := h.tidy.taken hfree (dvd_alignUp n pageSize)
      (alignUp_page_pos fun h0 => hn (.inl h0)) hsize hend q
    have hstart : e.start ≠ 0 := by
      have := (h.tidy.bounds (mem_append_right l₁ (mem_cons_self (a := (p, e))))).1
      dsimp only at this
      omega
    rw [if_neg hstart]
    exact ⟨⟨_, hrep, htotal.trans h.total, htidy, (h.live.cons _).trans hbusy.symm⟩,
      fun h0 => absurd h0 hstart⟩

theorem filter_busy_of_ne (h : ∀ x ∈ l, x.2.start ≠ addr) :
    (busy l).filter (fun r => decide (r.1 ≠ addr)) = busy l := by
  refine filter_eq_self.mpr fun r hr => decide_eq_true ?_
  obtain ⟨x, hx, -, rfl⟩ := mem_busy.mp hr
  exact h x hx

theorem filter_busy_around (h : Laid base size (l₁ ++ (p, e) :: l₂)) :
    (busy (l₁ ++ (p, e) :: l₂)).filter (fun r => decide (r.1 ≠ e.start)) =
      busy l₁ ++ busy l₂ := by
  have h1 := filter_busy_of_ne fun x hx => h.start_ne (.inl hx)
  have h2 := filter_busy_of_ne fun x hx => h.start_ne (.inr hx)
  rw [busy_append, filter_append, h1]
  cases he : e.isFree with
  | true => rw [busy_cons_of_free he, h2]
  | false =>
    rw [busy_cons_of_used he, filter_cons_of_neg, h2]
    simp

theorem Inv.free (h : Inv base size w l) (hsize : size < 2 ^ 64) (addr : ℕ) :
    ∃ s', w.alloc.free addr = .ok s' ∧
      ∃ l', Inv base size ⟨s', w.live.filter fun r => decide (r.1 ≠ addr)⟩ l' := by
  obtain ⟨s', hs', htotal, hspec⟩ := free_spec h.rep h.length_le addr
  have hlive : ((w.live.filter fun r => decide (r.1 ≠ addr)).map pages).Perm
      ((busy l).filter fun r => decide (r.1 ≠ addr)) := by
    have := h.live.filter fun r => decide (r.1 ≠ addr)
    rwa [filter_map] at this
  refine ⟨s', hs', ?_⟩
  obtain ⟨hne, rfl⟩ | ⟨l₁, p, e, l₂, l', rfl, rfl, hfreed, hrep⟩ := hspec
  · rw [filter_busy_of_ne hne] at hlive
    exact ⟨l, h.rep, h.total, h.tidy, hlive⟩
  · obtain ⟨htidy, hbusy⟩ := h.tidy.freed hsize hfreed
    rw [filter_busy_around h.tidy.toLaid, ← hbusy] at hlive
    exact ⟨_, hrep, htotal.trans h.total, htidy, hlive⟩

theorem inv_new (hbase : pageSize ∣ base) (hsize : pageSize ∣ size) (p : ℕ) :
    Inv base size ⟨new p base size, []⟩ [(p, ⟨base, size, true⟩)] where
  rep := rep_new p base size
  total := rfl
  tidy := {
    tiles := ⟨rfl, rfl⟩
    aligned := forall_mem_singleton.mpr ⟨hbase, hsize⟩
    pos := (Nat.eq_zero_or_pos size).imp (fun h => ⟨h, rfl⟩) forall_mem_singleton.mpr
    apart := isChain_singleton _ }
  live := List.Perm.refl _

theorem Inv.call (h : Inv base size w l) (hpos : 0 < base) (hend : base + size ≤ 2 ^ 64)
    (hcall : Call w w') : ∃ l', Inv base size w' l' := by
  cases hcall with
  | allocate hfresh hs =>
    obtain ⟨a, s', hs', hinv, -⟩ := h.allocate hpos hend hfresh
    cases hs.symm.trans hs'
    exact hinv
  | free hs =>
    obtain ⟨s', hs', hinv⟩ := h.free (by omega) _
    cases hs.symm.trans hs'
    exact hinv

/-- Every place for `n` bytes on whole pages meets a live range. -/
def NoGap (base size : ℕ) (live : List (ℕ × ℕ)) (n : ℕ) : Prop :=
  ∀ x, base ≤ x → x + alignUp n pageSize ≤ base + size →
    ∃ r ∈ live, r.1 < x + alignUp n pageSize ∧ x < r.1 + alignUp r.2 pageSize

/-- If no free segment is large enough, there is no gap. -/
theorem Inv.noGap (h : Inv base size w l) (hn : n ≠ 0)
    (hnone : ∀ x ∈ l, x.2.isFree → x.2.size < alignUp n pageSize) :
    NoGap base size w.live n := by
  intro x hx hxn
  have hpos := alignUp_page_pos hn
  by_contra hgap
  obtain ⟨y, hy, hfree, h1, h2⟩ := h.tidy.tiles.exists_of_gap h.tidy.apart
    (h.tidy.pos.resolve_left fun h0 => by omega) hx hpos hxn fun y hy hused => by
      have hmem := h.live.mem_iff.mpr (mem_busy.mpr ⟨y, hy, Bool.eq_false_iff.mpr hused, rfl⟩)
      obtain ⟨r, hr, hry⟩ := mem_map.mp hmem
      obtain ⟨hr1, hr2⟩ := Prod.ext_iff.mp hry
      dsimp only [pages] at hr1 hr2
      have hmeet := fun h1 h2 => hgap ⟨r, hr, h1, h2⟩
      by_contra hboth
      exact hmeet (by omega) (by omega)
  have := hnone y hy hfree
  omega

/-- **The allocator of virtual ranges**, for a range that does not start at address zero: the
segments tile it, the live ranges are disjoint pages of it, `allocate` returns 0 only if the size is
no size, if `kmalloc` fails or if there is no gap, and `free` of another address keeps the live
ranges. -/
theorem virtualRange_run (hbase : pageSize ∣ base) (hsize : pageSize ∣ size) (hpos : 0 < base)
    (hend : base + size ≤ 2 ^ 64)
    (hrun : ReflTransGen Call ⟨new p base size, []⟩ w) :
    (∃ l, Rep w.alloc l ∧ Tiles (fun x => x.2.start) (fun x => x.2.size) base (base + size) l ∧
      l.IsChain NotBothFree ∧ (w.live.map pages).Perm (busy l)) ∧
    LiveRanges base size w.live ∧
    (∀ n kmalloc, (∀ q ∈ kmalloc, w.alloc.seg q = none) →
      ∃ a s', w.alloc.allocate n kmalloc = .ok (a, s') ∧
        (a ≠ 0 → n ≠ 0 ∧ LiveRanges base size ((a, n) :: w.live)) ∧
        (a = 0 → n = 0 ∨ uint64Max - (pageSize - 1) < n ∨ kmalloc = none ∨
          NoGap base size w.live n)) ∧
    ∀ addr, ∃ s', w.alloc.free addr = .ok s' ∧
      ((∀ r ∈ w.live, r.1 ≠ addr) → ∃ l', Rep s' l' ∧ (w.live.map pages).Perm (busy l')) := by
  obtain ⟨l, hl⟩ := Step.run_invariant (I := fun w => ∃ l, Inv base size w l) hrun
    ⟨_, inv_new hbase hsize p⟩ fun ⟨l, hl⟩ hcall => hl.call hpos hend hcall
  refine ⟨⟨l, hl.rep, hl.tidy.tiles, hl.tidy.apart, hl.live⟩, hl.liveRanges,
    fun n kmalloc hfresh => ?_, fun addr => ?_⟩
  · obtain ⟨a, s', hs', ⟨l', hl'⟩, hzero⟩ := hl.allocate (n := n) hpos hend hfresh
    refine ⟨a, s', hs', fun ha => ⟨?_, ?_⟩, fun ha => ?_⟩
    · rintro rfl
      cases hs'
      exact ha rfl
    · rw [if_neg ha] at hl'
      exact hl'.liveRanges
    · by_cases hn : n = 0
      · exact .inl hn
      · exact (hzero ha).imp_right fun h => h.imp_right fun h => h.imp_right (hl.noGap hn)
  · obtain ⟨s', hs', l', hl'⟩ := hl.free (by omega) addr
    refine ⟨s', hs', fun hne => ⟨l', hl'.rep, ?_⟩⟩
    have hsame : (w.live.filter fun r => decide (r.1 ≠ addr)) = w.live :=
      filter_eq_self.mpr fun r hr => decide_eq_true (hne r hr)
    rw [← hsame]
    exact hl'.live

/-- A run with one live range of a byte, at the start of two pages. -/
theorem virtualRange_run_two_pages :
    ∃ w, ReflTransGen Call ⟨new 1 4096 8192, []⟩ w ∧ w.live = [(4096, 1)] ∧
      LiveRanges 4096 8192 w.live := by
  obtain ⟨s', hs'⟩ : ∃ s', (new 1 4096 8192).allocate 1 (some 2) = .ok (4096, s') := ⟨_, rfl⟩
  have hcall := Call.allocate (w := ⟨new 1 4096 8192, []⟩) (fun q hq => by cases hq; rfl) hs'
  have hrun := ReflTransGen.single hcall
  exact ⟨_, hrun, rfl, (virtualRange_run (by decide) (by decide) (by decide) (by decide) hrun).2.1⟩

/-- A range that starts at address zero: `allocate` takes its first page and returns 0. -/
theorem allocate_page_zero_returns_zero :
    ((new 1 0 4096).allocate 4096 (some 2)).toOption.map Prod.fst = some 0 ∧
      ((new 1 0 4096).seg 1).map Node.val = some ⟨0, 4096, true⟩ ∧
      ((new 1 0 4096).allocate 4096 (some 2)).toOption.map (fun r => (r.2.seg 1).map Node.val) =
        some (some ⟨0, 4096, false⟩) := by
  decide

end RHKernel.VirtualRange
