import RHKernel.Memory.VirtualRange.Model

/-!
# The segments as a list

The three edits of the pointers, described by the list that they represent: the values of one
segment are written, a segment is inserted behind another one, and a segment is joined to the one
before it. `allocate` and `free` are then functions on lists.
-/

namespace RHKernel.VirtualRange

open Bits Chain List Option Pmm VirtualRangeAllocator Prod Step

variable {s s' : VirtualRangeAllocator} {l l₁ l₂ m r : List (ℕ × Extent)} {p q x n size : ℕ}
  {e d : Extent}

theorem map_fst_around (l₁ l₂ : List (ℕ × Extent)) (p : ℕ) (e : Extent) :
    (l₁ ++ (p, e) :: l₂).map fst = l₁.map fst ++ p :: l₂.map fst := by
  rw [map_append, map_cons]

theorem Rep.seg_isSome (h : Rep s l) {x : ℕ × Extent} (hx : x ∈ l) : s.seg x.1 ≠ none := by
  obtain ⟨nd, hnd, -⟩ := h.joined.exists_at hx
  rw [hnd]
  exact some_ne_none nd

theorem Rep.set (h : Rep s (l₁ ++ (p, e) :: l₂)) (d : Extent) :
    Rep (s.put p (some ⟨d, first l₂ none, last l₁ none⟩)) (l₁ ++ (p, d) :: l₂) where
  head := by
    rw [first_append]
    exact h.head.trans (first_append ..)
  joined := by
    obtain ⟨h1, -, h2⟩ := joined_append.mp h.joined
    refine joined_append.mpr ⟨h1.mono ?_, put_seg_self .., h2.mono ?_⟩
    · exact fun x hx nd hnd => (put_seg_of_ne s (h.ne_left hx) _).trans hnd
    · exact fun x hx nd hnd => (put_seg_of_ne s (h.ne_right hx) _).trans hnd
  nodup := by
    rw [map_fst_around, ← map_fst_around l₁ l₂ p e]
    exact h.nodup
  owned q hq := by
    rw [map_fst_around, ← map_fst_around l₁ l₂ p e]
    by_cases hqp : q = p
    · rw [hqp, map_fst_around]
      exact mem_append_right _ mem_cons_self
    · rw [put_seg_of_ne s hqp] at hq
      exact h.owned q hq

/-- The pointer of the following node is written, if there is one. -/
theorem setPrev_first {prev : Option ℕ}
    (h : Joined (fun p nd => s.seg p = some nd) prev none l) (q : ℕ) :
    ∃ s', s.setPrev (first l none) q = .ok s' ∧ s'.head = s.head ∧ s'.totalSize = s.totalSize ∧
      (∀ p, p ∉ l.head?.map fst → s'.seg p = s.seg p) ∧
      ∀ x ∈ l.head?, ∀ nd, s.seg x.1 = some nd → s'.seg x.1 = some { nd with prev := some q } := by
  cases l with
  | nil =>
    refine ⟨s, rfl, rfl, rfl, fun _ _ => rfl, fun x hx => ?_⟩
    exact absurd hx.symm (some_ne_none x)
  | cons x l =>
    refine ⟨_, modify_of_seg h.1 _, rfl, rfl, fun p hp => put_seg_of_ne s ?_ _, ?_⟩
    · exact fun hpx => hp (congrArg some hpx.symm)
    · intro y hy nd hnd
      cases hy
      cases h.1.symm.trans hnd
      exact put_seg_self ..

theorem mem_of_mem_head_map (h : x ∈ l.head?.map fst) : x ∈ l.map fst := by
  obtain ⟨y, hy, rfl⟩ := map_eq_some_iff.mp h
  exact mem_map_of_mem (mem_of_mem_head? hy)

/-- A stretch `m` of the list is replaced by `r`: the node behind it points back to the new end,
and nothing else changes. -/
theorem Rep.splice (h : Rep s (l₁ ++ (m ++ l₂)))
    (hfirst : first (r ++ l₂) none = first (m ++ l₂) none)
    (hjoined : Joined (fun p nd => s'.seg p = some nd) (last l₁ none) (first l₂ none) r)
    (hnodup : ((l₁ ++ (r ++ l₂)).map fst).Nodup) (hhead : s'.head = s.head)
    (hnext : ∀ x ∈ l₂.head?, ∀ nd, s.seg x.1 = some nd →
      s'.seg x.1 = some { nd with prev := last r (last l₁ none) })
    (hkeep : ∀ x, x ∉ m.map fst → x ∉ r.map fst → x ∉ l₂.head?.map fst → s'.seg x = s.seg x)
    (hgone : ∀ x ∈ m.map fst, s'.seg x ≠ none → x ∈ r.map fst) :
    Rep s' (l₁ ++ (r ++ l₂)) := by
  obtain ⟨h1, hrest⟩ := joined_append.mp h.joined
  obtain ⟨-, h2⟩ := joined_append.mp hrest
  have hold := h.nodup
  have hnew := hnodup
  simp only [map_append, nodup_append, mem_append] at hold hnew
  refine ⟨?_, joined_append.mpr ⟨?_, joined_append.mpr ⟨hjoined, h2.reprev hnext ?_⟩⟩, hnodup, ?_⟩
  · rw [first_append, hfirst, ← first_append]
    exact hhead.trans h.head
  · rw [hfirst]
    refine h1.mono fun x hx nd hnd => ?_
    have hx := mem_map_of_mem (f := fst) hx
    rw [hkeep x.1 (fun hm => hold.2.2 _ hx _ (.inl hm) rfl)
      (fun hm => hnew.2.2 _ hx _ (.inl hm) rfl)
      fun hm => hold.2.2 _ hx _ (.inr (mem_of_mem_head_map hm)) rfl]
    exact hnd
  · intro x hx nd hnd
    have hx2 := mem_map_of_mem (f := fst) (mem_of_mem_tail hx)
    rw [hkeep x.1 (fun hm => hold.2.1.2.2 _ hm _ hx2 rfl)
      (fun hm => hnew.2.1.2.2 _ hm _ hx2 rfl) ?_]
    · exact hnd
    cases l₂ with
    | nil => exact absurd hx not_mem_nil
    | cons y l =>
      intro hxy
      refine (nodup_cons.mp hold.2.1.2.1).1 ?_
      rw [some.inj hxy]
      exact mem_map_of_mem hx
  · intro x hx
    simp only [map_append, mem_append]
    by_cases hm' : x ∈ r.map fst
    · exact .inr (.inl hm')
    by_cases hl2 : x ∈ l₂.head?.map fst
    · exact .inr (.inr (mem_of_mem_head_map hl2))
    have hm : x ∉ m.map fst := fun hm => hm' (hgone x hm hx)
    rw [hkeep x hm hm' hl2] at hx
    have hmem := h.owned x hx
    simp only [map_append, mem_append] at hmem
    exact hmem.imp_right fun h => .inr (h.resolve_left hm)

/-- The first part of a segment, and the rest. -/
def Extent.front (e : Extent) (size : ℕ) : Extent := { e with size := size }

def Extent.rest (e : Extent) (size : ℕ) : Extent :=
  ⟨(e.start + size) % 2 ^ 64, e.size - size, true⟩

theorem Rep.split (h : Rep s (l₁ ++ (p, e) :: l₂)) (hn : s.seg n = none) (size : ℕ) :
    ∃ s', s.split p ⟨e, first l₂ none, last l₁ none⟩ size n = .ok s' ∧
      Rep s' (l₁ ++ (p, e.front size) :: (n, e.rest size) :: l₂) ∧
      s'.totalSize = s.totalSize := by
  obtain ⟨-, hp, h2⟩ := joined_append.mp h.joined
  have hne : n ∉ (l₁ ++ (p, e) :: l₂).map fst := by
    intro hmem
    obtain ⟨x, hx, rfl⟩ := mem_map.mp hmem
    exact h.seg_isSome hx hn
  have hperm : ((l₁ ++ (p, e.front size) :: (n, e.rest size) :: l₂).map fst).Perm
      (n :: (l₁ ++ (p, e) :: l₂).map fst) := by
    rw [map_fst_around, map_fst_around, map_cons]
    exact ((List.Perm.swap n p _).append_left _).trans perm_middle
  have hnodup := hperm.nodup_iff.mpr (nodup_cons.mpr ⟨hne, h.nodup⟩)
  rw [map_fst_around, mem_append, mem_cons, not_or, not_or] at hne
  obtain ⟨-, hnp, hnl2⟩ := hne
  have hl2 : ∀ x ∈ l₂, x.1 ≠ n := fun x hx hxn => hnl2 (hxn ▸ mem_map_of_mem hx)
  obtain ⟨s2, hset, hhead, htotal, hother, hfirst⟩ := setPrev_first
    (s := s.put n (some ⟨e.rest size, first l₂ none, some p⟩)) (h2.mono fun x hx nd hnd =>
      (put_seg_of_ne s (hl2 x hx) _).trans hnd) n
  have hp2 : s2.seg p = some ⟨e, first l₂ none, last l₁ none⟩ := by
    rw [hother p fun hm => ?_, put_seg_of_ne s (Ne.symm hnp)]
    · exact hp
    · obtain ⟨y, hy, hyp⟩ := mem_map.mp (mem_of_mem_head_map hm)
      exact h.ne_right hy hyp
  refine ⟨s2.put p (some ⟨e.front size, some n, last l₁ none⟩), ?_, ?_, htotal⟩
  · change (setPrev (s.put n (some ⟨e.rest size, first l₂ none, some p⟩)) (first l₂ none) n >>=
      _) = _
    rw [hset, bind_of_ok, modify_of_seg hp2]
    rfl
  refine Rep.splice (m := [(p, e)]) (r := [(p, e.front size), (n, e.rest size)]) h rfl
    ⟨put_seg_self .., ?_, trivial⟩ hnodup hhead ?_ ?_ ?_
  · refine (put_seg_of_ne s2 hnp _).trans ?_
    rw [hother n fun hm => hnl2 (mem_of_mem_head_map hm)]
    exact put_seg_self ..
  · intro x hx nd hnd
    have hmem := mem_of_mem_head? hx
    rw [put_seg_of_ne s2 (h.ne_right hmem)]
    exact hfirst x hx nd ((put_seg_of_ne s (hl2 x hmem) _).trans hnd)
  · intro x hm hm' hh
    simp only [map_cons, map_nil, mem_cons, not_mem_nil, or_false, not_or] at hm hm'
    rw [put_seg_of_ne s2 hm, hother x hh, put_seg_of_ne s hm'.2]
  · intro x hx _
    exact mem_cons.mpr (.inl (mem_singleton.mp hx))

/-- The extent of a segment that another one was joined to. -/
def Extent.grow (e d : Extent) : Extent := { e with size := (e.size + d.size) % 2 ^ 64 }

theorem Rep.absorb (h : Rep s (l₁ ++ (p, e) :: (q, d) :: l₂)) :
    ∃ s', s.absorb p q = .ok s' ∧ Rep s' (l₁ ++ (p, e.grow d) :: l₂) ∧
      s'.totalSize = s.totalSize := by
  obtain ⟨-, hp, hq, h2⟩ := joined_append.mp h.joined
  have hperm : ((l₁ ++ (p, e) :: (q, d) :: l₂).map fst).Perm
      (q :: (l₁ ++ (p, e.grow d) :: l₂).map fst) := by
    rw [map_fst_around, map_fst_around, map_cons]
    exact ((List.Perm.swap q p _).append_left _).trans perm_middle
  obtain ⟨hqn, hnodup⟩ := nodup_cons.mp (hperm.nodup_iff.mp h.nodup)
  rw [map_fst_around, mem_append, mem_cons, not_or, not_or] at hqn
  obtain ⟨-, hqp, hql2⟩ := hqn
  have hl₂p : ∀ x ∈ l₂, x.1 ≠ p := fun x hx => h.ne_right (mem_cons_of_mem _ hx)
  obtain ⟨s2, hset, hhead, htotal, hother, hfirst⟩ := setPrev_first
    (s := s.put p (some ⟨e.grow d, first l₂ none, last l₁ none⟩)) (h2.mono fun x hx nd hnd =>
      (put_seg_of_ne s (hl₂p x hx) _).trans hnd) p
  have hq2 : s2.seg q = some ⟨d, first l₂ none, some p⟩ := by
    rw [hother q fun hm => hql2 (mem_of_mem_head_map hm), put_seg_of_ne s hqp]
    exact hq
  refine ⟨s2.put q none, ?_, ?_, htotal⟩
  · rw [VirtualRangeAllocator.absorb, load_of_seg hq, bind_of_ok, modify_of_seg hp, bind_of_ok]
    change (do
      let s ← (s.put p (some ⟨e.grow d, first l₂ none, last l₁ none⟩)).setPrev (first l₂ none) p
      s.kfree q) = _
    rw [hset, bind_of_ok, kfree_of_seg hq2]
  refine Rep.splice (m := [(p, e), (q, d)]) (r := [(p, e.grow d)]) h rfl
    ⟨?_, trivial⟩ hnodup hhead ?_ ?_ ?_
  · refine (put_seg_of_ne s2 (Ne.symm hqp) _).trans ?_
    rw [hother p fun hm => ?_]
    · exact put_seg_self ..
    · obtain ⟨y, hy, hyp⟩ := mem_map.mp (mem_of_mem_head_map hm)
      exact hl₂p y hy hyp
  · intro x hx nd hnd
    have hmem := mem_of_mem_head? hx
    rw [put_seg_of_ne s2 fun hxq : x.1 = q => hql2 (hxq ▸ mem_map_of_mem hmem)]
    exact hfirst x hx nd ((put_seg_of_ne s (hl₂p x hmem) _).trans hnd)
  · intro x hm _ hh
    simp only [map_cons, map_nil, mem_cons, not_mem_nil, or_false, not_or] at hm
    rw [put_seg_of_ne s2 hm.2, hother x hh, put_seg_of_ne s hm.1]
  · intro x hx hsome
    refine (mem_cons.mp hx).elim (fun hxp => mem_singleton.mpr hxp) fun hxq => ?_
    rw [mem_singleton.mp hxq] at hsome
    exact absurd (put_seg_self ..) hsome

/-! ### The operations -/

/-- A segment that is in use. -/
def Extent.use (e : Extent) : Extent := { e with isFree := false }

/-- The list after a segment was found that is large enough: it is taken whole, or its first part
is taken and the rest becomes a segment of its own. -/
def taken (l₁ : List (ℕ × Extent)) (p : ℕ) (e : Extent) (l₂ : List (ℕ × Extent)) (size n : ℕ) :
    List (ℕ × Extent) :=
  if size < e.size then l₁ ++ (p, (e.front size).use) :: (n, e.rest size) :: l₂
  else l₁ ++ (p, e.use) :: l₂

/-- What `allocate` does for a size that it takes. -/
inductive Allocates (s : VirtualRangeAllocator) (l : List (ℕ × Extent)) (size : ℕ)
    (kmalloc : Option ℕ) : ℕ → VirtualRangeAllocator → Prop
  /-- No segment is large enough. -/
  | none (h : ∀ x ∈ l, x.2.isFree → x.2.size < size) : Allocates s l size kmalloc 0 s
  /-- There is no memory for the rest. -/
  | noMemory (h : kmalloc = Option.none) : Allocates s l size kmalloc 0 s
  | takes {l₁ l₂ : List (ℕ × Extent)} {p : ℕ} {e : Extent} {s' : VirtualRangeAllocator} (n : ℕ)
      (hl : l = l₁ ++ (p, e) :: l₂) (hfree : e.isFree) (hsize : size ≤ e.size)
      (hrep : Rep s' (taken l₁ p e l₂ size n)) (htotal : s'.totalSize = s.totalSize) :
      Allocates s l size kmalloc e.start s'

theorem take_spec {kmalloc : Option ℕ} (h : Rep s (l₁ ++ (p, e) :: l₂))
    (hfree : e.isFree) (hle : size ≤ e.size) (hfresh : ∀ n ∈ kmalloc, s.seg n = none) :
    ∃ a s', s.take p size kmalloc = .ok (a, s') ∧
      Allocates s (l₁ ++ (p, e) :: l₂) size kmalloc a s' := by
  rw [VirtualRangeAllocator.take, load_of_seg h.seg_eq, bind_of_ok]
  by_cases hlt : size < e.size
  · simp only [if_pos hlt]
    cases kmalloc with
    | none => exact ⟨0, s, rfl, .noMemory rfl⟩
    | some n =>
      obtain ⟨s', hs', hrep, htotal⟩ := h.split (hfresh n rfl) size
      simp only [hs', bind_of_ok, modify_of_seg hrep.seg_eq]
      refine ⟨e.start, _, rfl, .takes n rfl hfree hle ?_ htotal⟩
      rw [taken, if_pos hlt]
      exact hrep.set _
  · simp only [if_neg hlt, modify_of_seg h.seg_eq]
    refine ⟨e.start, _, rfl, .takes 0 rfl hfree hle ?_ rfl⟩
    rw [taken, if_neg hlt]
    exact h.set _

theorem allocate_spec {kmalloc : Option ℕ} (h : Rep s l)
    (hlen : l.length ≤ s.rounds) (hsize : ¬(size = 0 ∨ uint64Max - (pageSize - 1) < size))
    (hfresh : ∀ n ∈ kmalloc, s.seg n = none) :
    ∃ a s', s.allocate size kmalloc = .ok (a, s') ∧
      Allocates s l (alignUp size pageSize) kmalloc a s' := by
  rw [allocate, if_neg hsize, h.head]
  simp only [find_eq h.joined hlen, bind_of_ok]
  cases hfind : l.find? fun x => x.2.isFree && decide (alignUp size pageSize ≤ x.2.size) with
  | none =>
    refine ⟨0, s, rfl, .none fun x hx hfree => ?_⟩
    have := find?_eq_none.mp hfind x hx
    simp only [hfree, Bool.true_and, decide_eq_true_eq] at this
    exact not_le.mp this
  | some x =>
    obtain ⟨htest, l₁, l₂, rfl, -⟩ := find?_eq_some_iff_append.mp hfind
    obtain ⟨hfree, hle⟩ := Bool.and_eq_true_iff.mp htest
    exact take_spec h hfree (of_decide_eq_true hle) hfresh

/-- `coalesce` looks at the next segment and joins it if it is free. -/
inductive JoinNext (e : Extent) : List (ℕ × Extent) → Extent → List (ℕ × Extent) → Prop
  | keep {l : List (ℕ × Extent)} (h : ∀ y ∈ l.head?, y.2.isFree = false) : JoinNext e l e l
  | join {l : List (ℕ × Extent)} {y : ℕ × Extent} (h : y.2.isFree = true) :
      JoinNext e (y :: l) (e.grow y.2) l

/-- `coalesce` looks at the segment before and joins this one to it if it is free. -/
inductive JoinPrev (x : ℕ × Extent) : List (ℕ × Extent) → ℕ × Extent → List (ℕ × Extent) → Prop
  | keep {l : List (ℕ × Extent)} (h : ∀ y ∈ l.getLast?, y.2.isFree = false) : JoinPrev x l x l
  | join {l : List (ℕ × Extent)} {y : ℕ × Extent} (h : y.2.isFree = true) :
      JoinPrev x (l ++ [y]) (y.1, y.2.grow x.2) l

theorem coalesceNext_spec (h : Rep s (l₁ ++ (p, e) :: l₂)) :
    ∃ s' d l, s.coalesceNext p = .ok s' ∧ s'.totalSize = s.totalSize ∧ JoinNext e l₂ d l ∧
      Rep s' (l₁ ++ (p, d) :: l) := by
  rw [coalesceNext, load_of_seg h.seg_eq, bind_of_ok]
  cases l₂ with
  | nil => exact ⟨s, e, [], rfl, rfl, .keep nofun, h⟩
  | cons x l₂ =>
    have hx : s.load x.1 = .ok ⟨x.2, first l₂ none, some p⟩ :=
      load_of_seg (joined_append.mp h.joined).2.2.1
    simp only [first_cons, VirtualRangeAllocator.isFree, hx, bind_of_ok, elim_some]
    cases hfree : x.2.isFree with
    | true =>
      obtain ⟨s', hs', hrep, htotal⟩ := h.absorb
      exact ⟨s', _, l₂, hs', htotal, .join hfree, hrep⟩
    | false => exact ⟨s, e, x :: l₂, rfl, rfl, .keep fun y hy => some.inj hy ▸ hfree, h⟩

theorem coalescePrev_spec (h : Rep s (l₁ ++ (p, e) :: l₂)) :
    ∃ s' x l, s.coalescePrev p = .ok s' ∧ s'.totalSize = s.totalSize ∧ JoinPrev (p, e) l₁ x l ∧
      Rep s' (l ++ x :: l₂) := by
  rw [coalescePrev, load_of_seg h.seg_eq, bind_of_ok]
  obtain rfl | ⟨l₁, x, rfl⟩ := l₁.eq_nil_or_concat
  · exact ⟨s, _, [], rfl, rfl, .keep nofun, h⟩
  rw [concat_eq_append] at *
  have h' : Rep s (l₁ ++ x :: (p, e) :: l₂) := by rwa [append_assoc] at h
  have hx : s.load x.1 = .ok ⟨x.2, some p, last l₁ none⟩ := load_of_seg h'.seg_eq
  simp only [last_concat, VirtualRangeAllocator.isFree, hx, bind_of_ok, elim_some]
  cases hfree : x.2.isFree with
  | true =>
    obtain ⟨s', hs', hrep, htotal⟩ := h'.absorb
    exact ⟨s', _, l₁, hs', htotal, .join hfree, hrep⟩
  | false =>
    refine ⟨s, _, l₁ ++ [x], rfl, rfl, .keep fun y hy => ?_, h⟩
    rw [getLast?_concat] at hy
    exact some.inj hy ▸ hfree

/-- A segment that is not in use any more. -/
def Extent.unuse (e : Extent) : Extent := { e with isFree := true }

/-- The list after `free` of the segment `(p, e)`. -/
def Freed (l₁ : List (ℕ × Extent)) (p : ℕ) (e : Extent) (l₂ l : List (ℕ × Extent)) : Prop :=
  ∃ d l₂' x l₁', JoinNext e.unuse l₂ d l₂' ∧ JoinPrev (p, d) l₁ x l₁' ∧ l = l₁' ++ x :: l₂'

theorem free_spec (h : Rep s l) (hlen : l.length ≤ s.rounds) (addr : ℕ) :
    ∃ s', s.free addr = .ok s' ∧ s'.totalSize = s.totalSize ∧
      (((∀ x ∈ l, x.2.start ≠ addr) ∧ s' = s) ∨
        ∃ l₁ p e l₂ l', l = l₁ ++ (p, e) :: l₂ ∧ e.start = addr ∧ Freed l₁ p e l₂ l' ∧
          Rep s' l') := by
  rw [VirtualRangeAllocator.free, h.head]
  simp only [find_eq h.joined hlen, bind_of_ok]
  cases hfind : l.find? fun x => decide (x.2.start = addr) with
  | none =>
    refine ⟨s, rfl, rfl, .inl ⟨fun x hx hstart => ?_, rfl⟩⟩
    exact find?_eq_none.mp hfind x hx (decide_eq_true hstart)
  | some x =>
    obtain ⟨p, e⟩ := x
    obtain ⟨htest, l₁, l₂, rfl, -⟩ := find?_eq_some_iff_append.mp hfind
    simp only [map_some, elim_some, modify_of_seg h.seg_eq, bind_of_ok, coalesce]
    obtain ⟨s1, d, l₂', hs1, htotal1, hnext, hrep1⟩ := coalesceNext_spec (h.set e.unuse)
    obtain ⟨s2, x, l₁', hs2, htotal2, hprev, hrep2⟩ := coalescePrev_spec hrep1
    refine ⟨s2, ?_, htotal2.trans htotal1, .inr ⟨l₁, p, e, l₂, _, rfl, of_decide_eq_true htest,
      ⟨d, l₂', x, l₁', hnext, hprev, rfl⟩, hrep2⟩⟩
    change (coalesceNext (s.put p (some ⟨e.unuse, first l₂ none, last l₁ none⟩)) p >>= _) = _
    rw [hs1]
    exact hs2

end RHKernel.VirtualRange
