import RHKernel.Lib.Chain
import RHKernel.Lib.Step
import RHKernel.Memory.Pmm.Model

/-!
# The allocator of virtual ranges

`VirtualRangeAllocator` keeps a range of virtual addresses as a doubly linked list of segments that
`kmalloc` hands out. `allocate` takes the first free segment that is large enough and splits it;
`free` looks for the segment that starts at the address and joins it with its free neighbours.

A pointer of the model is a number, and reading a segment that `kmalloc` has not handed out or that
was given back to `kfree` is a fault.
-/

namespace RHKernel.VirtualRange

open Bits Function List Pmm

/-- What a segment says about the addresses. -/
structure Extent where
  start : ℕ
  size : ℕ
  isFree : Bool
  deriving DecidableEq

abbrev Segment := Node ℕ Extent

/-- `VirtualRangeAllocator`, with the segments that are in use. -/
structure VirtualRangeAllocator where
  totalSize : ℕ
  head : Option ℕ
  seg : ℕ → Option Segment

namespace VirtualRangeAllocator

/-- The segment at a pointer. -/
def load (s : VirtualRangeAllocator) (p : ℕ) : Except String Segment :=
  (s.seg p).elim (.error "page fault") .ok

/-- A segment is stored at a pointer. -/
def put (s : VirtualRangeAllocator) (p : ℕ) (nd : Option Segment) : VirtualRangeAllocator :=
  { s with seg := update s.seg p nd }

/-- Some fields of the segment at a pointer are written. -/
def modify (s : VirtualRangeAllocator) (p : ℕ) (f : Segment → Segment) :
    Except String VirtualRangeAllocator := do
  let nd ← s.load p
  return s.put p (some (f nd))

/-- `kfree` of a segment. -/
def kfree (s : VirtualRangeAllocator) (p : ℕ) : Except String VirtualRangeAllocator := do
  let _ ← s.load p
  return s.put p none

/-- The constructor, with the segment that `kmalloc` returns. -/
def new (p base size : ℕ) : VirtualRangeAllocator where
  totalSize := size
  head := some p
  seg := update (fun _ => none) p (some ⟨⟨base, size, true⟩, none, none⟩)

/-- The loop of `allocate` and `free`: the first segment from `curr` on that passes the test. -/
def find (s : VirtualRangeAllocator) (test : Extent → Bool) :
    ℕ → Option ℕ → Except String (Option ℕ)
  | _, none => .ok none
  | 0, some _ => .error "the list does not end"
  | fuel + 1, some p => do
    let nd ← s.load p
    if test nd.val then return some p else s.find test fuel nd.next

/-- More rounds than there are segments. -/
def rounds (s : VirtualRangeAllocator) : ℕ := s.totalSize / pageSize + 1

/-- `if (seg) seg->prev = p`. -/
def setPrev (s : VirtualRangeAllocator) (seg : Option ℕ) (p : ℕ) :
    Except String VirtualRangeAllocator :=
  match seg with
  | none => .ok s
  | some q => s.modify q fun nd => { nd with prev := some p }

/-- The segment is cut behind its first `size` bytes, and the rest becomes the segment `newSeg`. -/
def split (s : VirtualRangeAllocator) (curr : ℕ) (nd : Segment) (size newSeg : ℕ) :
    Except String VirtualRangeAllocator := do
  let s := s.put newSeg (some ⟨⟨(nd.val.start + size) % 2 ^ 64, nd.val.size - size, true⟩,
    nd.next, some curr⟩)
  let s ← s.setPrev nd.next newSeg
  s.modify curr fun nd => { nd with next := some newSeg, val := { nd.val with size := size } }

/-- The body of the loop of `allocate` for the segment that is taken: its address. -/
def take (s : VirtualRangeAllocator) (curr size : ℕ) (kmalloc : Option ℕ) :
    Except String (ℕ × VirtualRangeAllocator) := do
  let nd ← s.load curr
  let markUsed (s : VirtualRangeAllocator) : Except String (ℕ × VirtualRangeAllocator) := do
    let s ← s.modify curr fun nd => { nd with val := { nd.val with isFree := false } }
    return (nd.val.start, s)
  if size < nd.val.size then
    match kmalloc with
    | none => return (0, s)
    | some newSeg => do markUsed (← s.split curr nd size newSeg)
  else markUsed s

/-- `allocate`, where `kmalloc` is what `kmalloc` returns if it is called. -/
def allocate (s : VirtualRangeAllocator) (size : ℕ) (kmalloc : Option ℕ) :
    Except String (ℕ × VirtualRangeAllocator) :=
  if size = 0 ∨ uint64Max - (pageSize - 1) < size then .ok (0, s)
  else
    let size := alignUp size pageSize
    s.find (fun e => e.isFree && decide (size ≤ e.size)) s.rounds s.head >>= fun curr =>
      curr.elim (.ok (0, s)) fun curr => s.take curr size kmalloc

/-- An arm of `coalesce`: the segment `q` behind `p` is joined to it. -/
def absorb (s : VirtualRangeAllocator) (p q : ℕ) : Except String VirtualRangeAllocator := do
  let nd ← s.load q
  let s ← s.modify p fun seg =>
    { seg with val := { seg.val with size := (seg.val.size + nd.val.size) % 2 ^ 64 },
               next := nd.next }
  let s ← s.setPrev nd.next p
  s.kfree q

/-- `seg && seg->is_free`. -/
def isFree (s : VirtualRangeAllocator) (seg : Option ℕ) : Except String Bool :=
  match seg with
  | none => .ok false
  | some q => do
    let nd ← s.load q
    return nd.val.isFree

/-- The first arm of `coalesce`. -/
def coalesceNext (s : VirtualRangeAllocator) (seg : ℕ) : Except String VirtualRangeAllocator := do
  let nd ← s.load seg
  if ← s.isFree nd.next then nd.next.elim (.ok s) fun next => s.absorb seg next else return s

/-- The second arm of `coalesce`. -/
def coalescePrev (s : VirtualRangeAllocator) (seg : ℕ) : Except String VirtualRangeAllocator := do
  let nd ← s.load seg
  if ← s.isFree nd.prev then nd.prev.elim (.ok s) fun prev => s.absorb prev seg else return s

def coalesce (s : VirtualRangeAllocator) (seg : ℕ) : Except String VirtualRangeAllocator := do
  let s ← s.coalesceNext seg
  s.coalescePrev seg

def free (s : VirtualRangeAllocator) (virtAddr : ℕ) : Except String VirtualRangeAllocator :=
  s.find (fun e => decide (e.start = virtAddr)) s.rounds s.head >>= fun curr =>
    curr.elim (.ok s) fun curr => do
      let s ← s.modify curr fun nd => { nd with val := { nd.val with isFree := true } }
      s.coalesce curr

end VirtualRangeAllocator

section Rep

open VirtualRangeAllocator Chain

variable {s s' : VirtualRangeAllocator} {l l₁ l₂ : List (ℕ × Extent)} {p q fuel : ℕ} {e d : Extent}

/-- The segments of the allocator are those of the list `l`, in this order. -/
structure Rep (s : VirtualRangeAllocator) (l : List (ℕ × Extent)) : Prop where
  head : s.head = first l none
  joined : Joined (fun p nd => s.seg p = some nd) none none l
  nodup : (l.map Prod.fst).Nodup
  owned : ∀ p, s.seg p ≠ none → p ∈ l.map Prod.fst

theorem rep_new (p base size : ℕ) : Rep (new p base size) [(p, ⟨base, size, true⟩)] where
  head := rfl
  joined := ⟨by simp only [new, update_self]; rfl, trivial⟩
  nodup := pairwise_singleton _ _
  owned q hq := by
    by_contra hqp
    refine hq ?_
    simp only [new, update_of_ne fun h => hqp (mem_singleton.mpr h)]

theorem load_of_seg {nd : Segment} (h : s.seg p = some nd) : s.load p = .ok nd := by
  rw [load, h]
  rfl

theorem modify_of_seg {nd : Segment} (h : s.seg p = some nd) (f : Segment → Segment) :
    s.modify p f = .ok (s.put p (some (f nd))) := by
  rw [VirtualRangeAllocator.modify, load_of_seg h]
  rfl

theorem kfree_of_seg {nd : Segment} (h : s.seg p = some nd) : s.kfree p = .ok (s.put p none) := by
  rw [kfree, load_of_seg h]
  rfl

@[simp] theorem put_seg_self (s : VirtualRangeAllocator) (p : ℕ) (nd : Option Segment) :
    (s.put p nd).seg p = nd := update_self ..

theorem put_seg_of_ne (s : VirtualRangeAllocator) (h : q ≠ p) (nd : Option Segment) :
    (s.put p nd).seg q = s.seg q := update_of_ne h ..

variable (h : Rep s (l₁ ++ (p, e) :: l₂))

include h

theorem Rep.seg_eq :
    s.seg p = some ⟨e, first l₂ none, last l₁ none⟩ := (joined_append.mp h.joined).2.1

/-- The pointers on both sides of a node are different from it, and from each other. -/
theorem Rep.ne_left {x : ℕ × Extent} (hx : x ∈ l₁) : x.1 ≠ p := by
  have hnd := h.nodup
  rw [map_append, map_cons] at hnd
  intro hxp
  exact (nodup_append.mp hnd).2.2 x.1 (mem_map_of_mem hx) p mem_cons_self hxp

theorem Rep.ne_right {x : ℕ × Extent} (hx : x ∈ l₂) : x.1 ≠ p := by
  have hnd := h.nodup
  rw [map_append, map_cons] at hnd
  intro hxp
  have hp := (nodup_cons.mp (nodup_append.mp hnd).2.1).1
  exact hp (mem_map.mpr ⟨x, hx, hxp⟩)

omit h

theorem find_eq {test : Extent → Bool} {prev : Option ℕ}
    (h : Joined (fun p nd => s.seg p = some nd) prev none l) (hfuel : l.length ≤ fuel) :
    s.find test fuel (first l none) = .ok ((l.find? fun x => test x.2).map Prod.fst) := by
  induction l generalizing fuel prev with
  | nil =>
    rw [first_nil, VirtualRangeAllocator.find]
    rfl
  | cons x l ih =>
    obtain ⟨fuel, rfl⟩ : ∃ k, fuel = k + 1 := ⟨fuel - 1, by
      rw [length_cons] at hfuel
      omega⟩
    rw [first_cons, VirtualRangeAllocator.find, load_of_seg h.1, Step.bind_of_ok, find?_cons]
    cases htest : test x.2 with
    | true => rfl
    | false => exact ih h.2 (Nat.le_of_succ_le_succ hfuel)

end Rep

end RHKernel.VirtualRange
