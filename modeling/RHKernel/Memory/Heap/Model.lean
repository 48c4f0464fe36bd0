import RHKernel.Lib.DList
import RHKernel.Memory.Pmm.Model

/-!
# The kernel slab allocator

`heap.cpp` serves requests of up to 2048 bytes from slabs: single pages of the physical allocator
that start with a `SlabHeader` and are cut into slots of one of eight sizes. Each size has a cache
with two doubly linked lists of slabs, `partial_slabs` and `full_slabs`; a slab that the CPU has
taken for itself is in neither. Larger requests take whole blocks, with a page in front for a
`LargeAllocHeader`.

Pages are named by their physical address; `p2v` adds a constant and is left out. The `next` and
`prev` fields of the headers are pointers, kept in `links`, because it matters which head pointer
an unlinking repairs. The free slots of a slab are a list of addresses. There is one CPU, so
`owner` is a flag, and every call says whether `get_cpu` finds the CPU structure in place.

`slabs` is a history variable that no function reads: the pages that `create_slab` has made and
`kfree` has not given back.
-/

namespace RHKernel.Heap

open Bits DList Function
open Pmm (pageSize uint64Max blockSize sizeToOrder)

def slabMagic : ℕ := 0x534C4142

def largeMagic : ℕ := 0x4C415247

/-- The slot sizes of `caches`. -/
def slotSizes : List ℕ := [16, 32, 64, 128, 256, 512, 1024, 2048]

def cacheCount : ℕ := slotSizes.length

/-- `sizeof(SlabHeader)`. -/
def sizeofSlabHeader : ℕ := 56

/-- Where the slots of a slab start. -/
def headerSize : ℕ := alignUp sizeofSlabHeader 16

/-- `SlabHeader`, without the two links. -/
structure SlabHeader where
  magic : ℕ
  slotSize : ℕ
  cacheIndex : ℕ
  usedSlots : ℕ
  totalSlots : ℕ
  freeList : List ℕ
  owner : Bool

structure LargeAllocHeader where
  magic : ℕ
  totalSize : ℕ
  requestedSize : ℕ

/-- The two lists of a `SlabCache`. -/
inductive SlabList where
  | partialSlabs
  | fullSlabs
  deriving DecidableEq, Repr

/-- The allocator's variables and what it writes into its pages. `heads (i, l)` is the head
pointer of list `l` of cache `i`. -/
@[ext]
structure State where
  pmm : Pmm.State
  heads : ℕ × SlabList → Option ℕ
  links : Links ℕ
  hdr : ℕ → SlabHeader
  large : ℕ → LargeAllocHeader
  heapCache : ℕ → Option ℕ
  slabPageBytes : ℕ
  largeAllocBytes : ℕ
  largeAllocCount : ℕ
  slabs : List ℕ

/-! ### Lists of slabs -/

/-- `slab->next = v`. -/
def State.setNext (s : State) (slab : ℕ) (v : Option ℕ) : State :=
  { s with links := { s.links with next := update s.links.next slab v } }

/-- `slab->prev = v`. -/
def State.setPrev (s : State) (slab : ℕ) (v : Option ℕ) : State :=
  { s with links := { s.links with prev := update s.links.prev slab v } }

/-- `if (slab) slab->next = v`. -/
def State.setNextIf (s : State) (slab v : Option ℕ) : State := slab.elim s fun p => s.setNext p v

/-- `if (slab) slab->prev = v`. -/
def State.setPrevIf (s : State) (slab v : Option ℕ) : State := slab.elim s fun p => s.setPrev p v

def listRemove (s : State) (head : ℕ × SlabList) (slab : ℕ) : State :=
  let s := s.setNextIf (s.links.prev slab) (s.links.next slab)
  let s := s.setPrevIf (s.links.next slab) (s.links.prev slab)
  let s := if s.heads head = some slab
    then { s with heads := update s.heads head (s.links.next slab) } else s
  (s.setPrev slab none).setNext slab none

def listPush (s : State) (head : ℕ × SlabList) (slab : ℕ) : State :=
  let s := s.setNext slab (s.heads head)
  let s := s.setPrevIf (s.heads head) (some slab)
  let s := { s with heads := update s.heads head (some slab) }
  s.setPrev slab none

/-! ### Slabs -/

/-- The addresses of the slots of a slab. -/
def slotsOf (slab slotSize totalSlots : ℕ) : List ℕ :=
  (List.range totalSlots).map fun i => slab + headerSize + i * slotSize

/-- `create_slab`. The cache index is whatever the page held before. -/
def createSlab (s : State) (slotSize : ℕ) : Except String (Option ℕ × State) :=
  if slotSize = 0 then .ok (none, s)
  else do
    let (phys, pmm) ← Pmm.alloc s.pmm pageSize
    let s := { s with pmm := pmm }
    if phys = 0 then .ok (none, s)
    else
      let totalSlots := (pageSize - headerSize) / slotSize
      if totalSlots = 0 then do
        let pmm ← Pmm.free s.pmm phys pageSize
        .ok (none, { s with pmm := pmm })
      else
        let s := (s.setNext phys none).setPrev phys none
        .ok (some phys, { s with
          hdr := update s.hdr phys {
            magic := slabMagic
            slotSize := slotSize
            cacheIndex := (s.hdr phys).cacheIndex
            usedSlots := 0
            totalSlots := totalSlots
            freeList := slotsOf phys slotSize totalSlots
            owner := false }
          slabPageBytes := s.slabPageBytes + pageSize
          slabs := phys :: s.slabs })

def cacheIndexForSize (size : ℕ) : ℕ := slotSizes.findIdx fun slotSize => size ≤ slotSize

def allocFromSlab (s : State) (slab : ℕ) : Option ℕ × State :=
  if (s.hdr slab).magic ≠ slabMagic then (none, s)
  else
    match (s.hdr slab).freeList with
    | [] => (none, s)
    | ptr :: rest =>
      (some ptr, { s with hdr := update s.hdr slab { s.hdr slab with
        freeList := rest
        usedSlots := (s.hdr slab).usedSlots + 1 } })

/-- `slab->owner = owner`. -/
def State.setOwner (s : State) (slab : ℕ) (owner : Bool) : State :=
  { s with hdr := update s.hdr slab { s.hdr slab with owner := owner } }

/-- `retire_full_local_slab`; its callers have checked the CPU. -/
def retireFullLocalSlab (s : State) (slab cacheIdx : ℕ) : State :=
  if (s.hdr slab).usedSlots ≠ (s.hdr slab).totalSlots then s
  else
    let s := listPush (s.setOwner slab false) (cacheIdx, .fullSlabs) slab
    { s with heapCache := update s.heapCache cacheIdx none }

/-! ### The interface -/

def allocLarge (s : State) (size : ℕ) : Except String (Option ℕ × State) :=
  if uint64Max - pageSize < size then .ok (none, s)
  else
    let order := sizeToOrder (size + pageSize)
    if s.pmm.activeMaxOrder < order then .ok (none, s)
    else do
      let actualSize := blockSize order
      let (phys, pmm) ← Pmm.alloc s.pmm actualSize
      let s := { s with pmm := pmm }
      if phys = 0 then .ok (none, s)
      else
        .ok (some (phys + pageSize), { s with
          large := update s.large phys
            { magic := largeMagic, totalSize := actualSize, requestedSize := size }
          largeAllocBytes := s.largeAllocBytes + actualSize
          largeAllocCount := s.largeAllocCount + 1 })

/-- The CPU path of `kmalloc` once the slab is the CPU's own. -/
def allocLocal (s : State) (slab cacheIdx : ℕ) : Option ℕ × State :=
  let (ptr, s) := allocFromSlab s slab
  (ptr, retireFullLocalSlab s slab cacheIdx)

/-- `kmalloc` makes sure that the cache has a partial slab; `none` when there is no memory for
one. -/
def ensurePartial (s : State) (cacheIdx : ℕ) : Except String (Option ℕ × State) :=
  match s.heads (cacheIdx, .partialSlabs) with
  | some slab => .ok (some slab, s)
  | none => do
    let (newSlab, s) ← createSlab s (slotSizes.getD cacheIdx 0)
    match newSlab with
    | none => .ok (none, s)
    | some slab =>
      let s := { s with
        hdr := update s.hdr slab { s.hdr slab with cacheIndex := cacheIdx } }
      let s := listPush s (cacheIdx, .partialSlabs) slab
      .ok (s.heads (cacheIdx, .partialSlabs), s)

/-- `kmalloc` for a cached size on a slab of the partial list. -/
def allocPartial (s : State) (slab cacheIdx : ℕ) (cpu : Bool) : Option ℕ × State :=
  if cpu then
    let s := (listRemove s (cacheIdx, .partialSlabs) slab).setOwner slab true
    let s := { s with heapCache := update s.heapCache cacheIdx (some slab) }
    allocLocal s slab cacheIdx
  else
    let (ptr, s) := allocFromSlab s slab
    if (s.hdr slab).usedSlots = (s.hdr slab).totalSlots then
      (ptr, listPush (listRemove s (cacheIdx, .partialSlabs) slab) (cacheIdx, .fullSlabs) slab)
    else (ptr, s)

/-- `kmalloc`; `cpu` says whether the CPU structure is in place. -/
def kmalloc (s : State) (size : ℕ) (cpu : Bool) : Except String (Option ℕ × State) :=
  if size = 0 then .ok (none, s)
  else
    let cacheIdx := cacheIndexForSize size
    if cacheIdx = cacheCount then allocLarge s size
    else
      match (if cpu then s.heapCache cacheIdx else none).filter
          fun slab => (s.hdr slab).freeList ≠ [] with
      | some slab => .ok (allocLocal s slab cacheIdx)
      | none => do
        let (slab, s) ← ensurePartial s cacheIdx
        match slab with
        | none => .ok (none, s)
        | some slab => .ok (allocPartial s slab cacheIdx cpu)

/-- `kfree` of a large allocation. -/
def kfreeLarge (s : State) (ptr : ℕ) : Except String State :=
  let metadataPage := ptr - pageSize
  if (s.large metadataPage).magic ≠ largeMagic then .error "heap: bad large allocation"
  else do
    let totalSize := (s.large metadataPage).totalSize
    let pmm ← Pmm.free s.pmm metadataPage totalSize
    .ok { s with
      pmm := pmm
      large := update s.large metadataPage { s.large metadataPage with magic := 0 }
      largeAllocBytes := s.largeAllocBytes - totalSize
      largeAllocCount := s.largeAllocCount - 1 }

/-- `kfree` of a slot. -/
def kfreeSlot (s : State) (ptr : ℕ) : Except String State :=
  let slab := alignDown ptr pageSize
  if (s.hdr slab).magic ≠ slabMagic ∨ cacheCount ≤ (s.hdr slab).cacheIndex then
    .error "heap: bad slab free"
  else
    let cacheIdx := (s.hdr slab).cacheIndex
    if (s.hdr slab).usedSlots = 0 then .error "heap: slab double free"
    else
      let wasFull := (s.hdr slab).usedSlots = (s.hdr slab).totalSlots
      let s := { s with hdr := update s.hdr slab { s.hdr slab with
        freeList := ptr :: (s.hdr slab).freeList
        usedSlots := (s.hdr slab).usedSlots - 1 } }
      if (s.hdr slab).usedSlots = 0 then
        if (s.hdr slab).owner then .ok s
        else do
          let s := listRemove s (cacheIdx, .partialSlabs) slab
          let pmm ← Pmm.free s.pmm slab pageSize
          .ok { s with
            hdr := update s.hdr slab { s.hdr slab with magic := 0 }
            slabPageBytes := s.slabPageBytes - pageSize
            pmm := pmm
            slabs := s.slabs.erase slab }
      else if wasFull then
        .ok (listPush (listRemove s (cacheIdx, .fullSlabs) slab) (cacheIdx, .partialSlabs) slab)
      else .ok s

def kfree (s : State) (ptr : Option ℕ) : Except String State :=
  match ptr with
  | none => .ok s
  | some ptr => if ptr % pageSize = 0 then kfreeLarge s ptr else kfreeSlot s ptr

end RHKernel.Heap
