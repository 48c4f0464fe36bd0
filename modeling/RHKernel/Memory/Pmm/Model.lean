import RHKernel.Lib.Bits

/-!
# The physical memory manager

`pmm.cpp` hands out physical pages from a buddy allocator. The free blocks of each order form a
singly linked list threaded through the free pages; a count per order, a mask of non-empty orders
and a byte total are kept next to the lists. Reference counts of single pages live in a sparse
radix tree whose nodes are pages taken from the very same lists, on demand and in the middle of
other operations.

The model keeps the lists as lists of physical addresses, the radix tree as the table of its
non-null entries, and the counters as the code has them. An operation returns the next state, or
stops with the text that `kpanic` prints. The code's own failure value, the address `0`, stays an
address: a block at physical address `0` is popped and then taken for an empty list, as in the
source.
-/

namespace RHKernel.Pmm

open Bits Function

def pageSize : ℕ := 4096

def maxOrderLimit : ℕ := 18

def uint64Max : ℕ := 2 ^ 64 - 1

/-- `EARLY_DIRECT_MAP_BYTES`: what the boot page tables map. -/
def earlyDirectMapBytes : ℕ := 64 * 1024 * 1024 * 1024

def maxDeferredSpans : ℕ := 256

def refcountsPerLeaf : ℕ := 1024

def refRadixBits : ℕ := 9

def refRadixLevels : ℕ := 4

def refRadixMask : ℕ := 2 ^ refRadixBits - 1

/-- A node of the reference-count radix tree: the static array `ref_root`, or a metadata page. -/
inductive RefNode where
  | root
  | page (addr : ℕ)
  deriving DecidableEq, Repr

/-- The allocator's variables. `refEntries` lists the non-null entries `node[idx] = page` of the
radix tree, `refLeaf` holds the counts in the leaf pages. -/
structure State where
  freeLists : ℕ → List ℕ
  freeBlockCounts : ℕ → ℕ
  nonemptyOrderMask : BitVec 64
  freeBytes : ℕ
  managedBytes : ℕ
  activeMaxOrder : ℕ
  totalPages : ℕ
  refEntries : List ((RefNode × ℕ) × ℕ)
  refLeaf : ℕ → ℕ → ℕ
  deferUnmappedSpans : Bool
  deferredSpans : List (ℕ × ℕ)

/-- The state `init` starts from, with the order limit it chooses and the page count it reads off
the memory map. -/
def State.empty (activeMaxOrder totalPages : ℕ) (deferUnmappedSpans : Bool) : State where
  freeLists := fun _ => []
  freeBlockCounts := fun _ => 0
  nonemptyOrderMask := 0
  freeBytes := 0
  managedBytes := 0
  activeMaxOrder := activeMaxOrder
  totalPages := totalPages
  refEntries := []
  refLeaf := fun _ _ => 0
  deferUnmappedSpans := deferUnmappedSpans
  deferredSpans := []

/-! ### Arithmetic helpers -/

def isPowerOfTwo (value : ℕ) : Bool := value ≠ 0 && (value &&& (value - 1)) = 0

/-- `add_overflows`, with the sum when it does not. -/
def addChecked (a b : ℕ) : Option ℕ := if uint64Max - b < a then none else some (a + b)

/-- `align_up_checked`; masking off the low bits is division for a power of two. -/
def alignUpChecked (value align : ℕ) : Option ℕ :=
  if !isPowerOfTwo align then none
  else if uint64Max - (align - 1) < value then none
  else some (alignUp value align)

def alignDownChecked (value align : ℕ) : Option ℕ :=
  if !isPowerOfTwo align then none else some (alignDown value align)

/-- `size_to_order`; `64 - clz (pages - 1)` is one more than the binary logarithm. -/
def sizeToOrder (size : ℕ) : ℕ :=
  if size = 0 then 0
  else if uint64Max - (pageSize - 1) < size then maxOrderLimit + 1
  else
    let pages := (size + pageSize - 1) >>> 12
    if pages ≤ 1 then 0 else Nat.log2 (pages - 1) + 1

def blockSize (order : ℕ) : ℕ := 2 ^ order * pageSize

def buddyOf (addr order : ℕ) : ℕ := addr ^^^ blockSize order

/-! ### The free lists -/

def markOrderNonempty (mask : BitVec 64) (order : ℕ) : BitVec 64 := mask ||| (1#64 <<< order)

def markOrderEmpty (mask : BitVec 64) (order : ℕ) : BitVec 64 := mask &&& ~~~(1#64 <<< order)

def firstNonemptyOrder (s : State) (minOrder : ℕ) : ℕ :=
  let mask := s.nonemptyOrderMask &&& (BitVec.allOnes 64 <<< minOrder)
  if mask = 0#64 then s.activeMaxOrder + 1 else ctz mask.toNat

def pushBlock (s : State) (addr order : ℕ) : Except String State :=
  if s.activeMaxOrder < order ∨ addr &&& (blockSize order - 1) ≠ 0 then
    .error "PMM: invalid free block"
  else
    .ok { s with
      freeLists := update s.freeLists order (addr :: s.freeLists order)
      freeBlockCounts := update s.freeBlockCounts order (s.freeBlockCounts order + 1)
      nonemptyOrderMask := markOrderNonempty s.nonemptyOrderMask order
      freeBytes := s.freeBytes + blockSize order }

/-- The list of one order loses a block: what `pop_block` and `remove_block` both do to the
counters. -/
def dropBlock (s : State) (order : ℕ) (rest : List ℕ) : State :=
  { s with
    freeLists := update s.freeLists order rest
    freeBlockCounts := update s.freeBlockCounts order (s.freeBlockCounts order - 1)
    nonemptyOrderMask :=
      if rest = [] then markOrderEmpty s.nonemptyOrderMask order else s.nonemptyOrderMask
    freeBytes := s.freeBytes - blockSize order }

/-- `pop_block`: the address of the first block of the order, `0` when there is none. -/
def popBlock (s : State) (order : ℕ) : ℕ × State :=
  match s.freeLists order with
  | [] => (0, s)
  | block :: rest => (block, dropBlock s order rest)

/-- `remove_block`: unlinks the block at `physAddr` if the list holds it. -/
def removeBlock (s : State) (physAddr order : ℕ) : Bool × State :=
  if physAddr ∈ s.freeLists order then
    (true, dropBlock s order ((s.freeLists order).erase physAddr))
  else (false, s)

/-- The order of the next block carved off the front of `[curr, last)`. -/
def rangeOrder (maxOrder curr last : ℕ) : ℕ :=
  let alignOrder := if curr = 0 then maxOrder else ctz (curr >>> 12)
  let sizeOrder := Nat.log2 ((last - curr) >>> 12)
  min (min alignOrder sizeOrder) maxOrder

/-- The carving loop of `push_range_locked` and `add_span`; `managed` says whether the bytes are
added to `managed_bytes`. Every round carves at least one page, so `fuel` pages are enough. -/
def carveLoop (managed : Bool) : ℕ → ℕ → ℕ → State → Except String State
  | 0, _, _, s => .ok s
  | fuel + 1, curr, last, s =>
    if curr < last then do
      let order := rangeOrder s.activeMaxOrder curr last
      let s := if managed then { s with managedBytes := s.managedBytes + blockSize order } else s
      let s ← pushBlock s curr order
      carveLoop managed fuel (curr + blockSize order) last s
    else .ok s

/-- The two functions that carve a byte range into blocks share their rounding to pages. -/
def carveRange (managed : Bool) (s : State) (start «end» : ℕ) : Except String State :=
  match alignUpChecked start pageSize, alignDownChecked «end» pageSize with
  | some curr, some last => carveLoop managed ((last - curr) / pageSize) curr last s
  | _, _ => .ok s

def pushRangeLocked (s : State) (start «end» : ℕ) : Except String State :=
  carveRange false s start «end»

/-- The halving loop of `alloc` and `alloc_metadata_page_locked`: gives back the upper halves of
a block of order `i` until the block at `block` has order `order`. -/
def splitDown (block order : ℕ) : ℕ → State → Except String State
  | 0, s => .ok s
  | i + 1, s =>
    if order < i + 1 then do
      let s ← pushBlock s (block + blockSize i) i
      splitDown block order i s
    else .ok s

/-- The search loop of `alloc` and `alloc_metadata_page_locked` from order `i` on. The order
grows in every round, so `activeMaxOrder + 2` rounds are enough. -/
def takeBlockLoop (order : ℕ) : ℕ → ℕ → State → Except String (ℕ × State)
  | 0, _, s => .ok (0, s)
  | fuel + 1, i, s =>
    if s.activeMaxOrder < i then .ok (0, s)
    else
      let (block, s) := popBlock s i
      if block = 0 then takeBlockLoop order fuel (firstNonemptyOrder s (i + 1)) s
      else do
        let s ← splitDown block order i s
        .ok (block, s)

/-- A block of the given order from the lists, `0` when none is found. -/
def takeBlock (s : State) (order : ℕ) : Except String (ℕ × State) :=
  takeBlockLoop order (s.activeMaxOrder + 2) (firstNonemptyOrder s order) s

/-! ### Reference counts -/

/-- `alloc_metadata_page_locked`: a page from the lists, cleared. -/
def allocMetadataPageLocked (s : State) : Except String (Option ℕ × State) := do
  let (block, s) ← takeBlock s 0
  if block = 0 then .ok (none, s)
  else
    .ok (some block, { s with
      refEntries := s.refEntries.filter fun e => e.1.1 ≠ .page block
      refLeaf := update s.refLeaf block fun _ => 0 })

/-- The entry `node[idx]`, filled with a new page when it is null and `create` is set. -/
def refChild (s : State) (node : RefNode) (idx : ℕ) (create : Bool) :
    Except String (Option ℕ × State) :=
  match s.refEntries.lookup (node, idx) with
  | some page => .ok (some page, s)
  | none =>
    if !create then .ok (none, s)
    else do
      let (page, s) ← allocMetadataPageLocked s
      match page with
      | none => .ok (none, s)
      | some page => .ok (some page, { s with refEntries := ((node, idx), page) :: s.refEntries })

/-- The walk from a node down `level` levels of the radix tree. -/
def refDescend (chunk : ℕ) (create : Bool) :
    ℕ → RefNode → State → Except String (Option RefNode × State)
  | 0, node, s => .ok (some node, s)
  | level + 1, node, s => do
    let (child, s) ← refChild s node ((chunk >>> (level * refRadixBits)) &&& refRadixMask) create
    match child with
    | none => .ok (none, s)
    | some page => refDescend chunk create level (.page page) s

/-- `get_ref_slot_locked`: the leaf page and index that hold the count of a page. -/
def getRefSlotLocked (s : State) (phys : ℕ) (create : Bool) :
    Except String (Option (ℕ × ℕ) × State) :=
  let pfn := phys / pageSize
  if s.totalPages ≤ pfn then .ok (none, s)
  else
    let chunk := pfn / refcountsPerLeaf
    if chunk >>> (refRadixBits * refRadixLevels) ≠ 0 then .ok (none, s)
    else do
      let (node, s) ← refDescend chunk create refRadixLevels .root s
      match node with
      | some (.page leaf) => .ok (some (leaf, pfn % refcountsPerLeaf), s)
      | _ => .ok (none, s)

/-- `*slot = value`. -/
def State.writeRef (s : State) (slot : ℕ × ℕ) (value : ℕ) : State :=
  { s with refLeaf :=
      update s.refLeaf slot.1 (update (s.refLeaf slot.1) slot.2 value) }

def setRefLocked (s : State) (phys value : ℕ) : Except String (Bool × State) := do
  let (slot, s) ← getRefSlotLocked s phys (value ≠ 0)
  match slot with
  | none => .ok (value = 0, s)
  | some slot => .ok (true, s.writeRef slot value)

/-- The loop of `init_refcounts_locked` over `n` pages. -/
def initRefcountsLoop : ℕ → ℕ → State → Except String (Bool × State)
  | 0, _, s => .ok (true, s)
  | n + 1, phys, s => do
    let (ok, s) ← setRefLocked s phys 1
    if ok then initRefcountsLoop n (phys + pageSize) s else .ok (false, s)

def initRefcountsLocked (s : State) (phys size : ℕ) : Except String (Bool × State) :=
  initRefcountsLoop (size / pageSize) phys s

/-- The loop of `free` that clears the counts of `n` pages. -/
def clearRefsLoop : ℕ → ℕ → State → Except String State
  | 0, _, s => .ok s
  | n + 1, phys, s => do
    let (_, s) ← setRefLocked s phys 0
    clearRefsLoop n (phys + pageSize) s

/-! ### The interface -/

def deferSpanLocked (s : State) (start «end» : ℕ) : Except String State :=
  match alignUpChecked start pageSize, alignDownChecked «end» pageSize with
  | some start, some «end» =>
    if «end» ≤ start then .ok s
    else if maxDeferredSpans ≤ s.deferredSpans.length then
      .error "PMM: too many deferred memory-map spans"
    else .ok { s with deferredSpans := s.deferredSpans ++ [(start, «end»)] }
  | _, _ => .ok s

def addSpan (s : State) (start «end» : ℕ) : Except String State :=
  if s.deferUnmappedSpans ∧ earlyDirectMapBytes < «end» then do
    let s ← if start < earlyDirectMapBytes then carveRange true s start earlyDirectMapBytes
      else .ok s
    deferSpanLocked s (if start < earlyDirectMapBytes then earlyDirectMapBytes else start) «end»
  else carveRange true s start «end»

def releaseDeferredMemory (s : State) : Except String State := do
  let s ← s.deferredSpans.foldlM (fun s span => addSpan s span.1 span.2)
    { s with deferUnmappedSpans := false }
  .ok { s with deferredSpans := [] }

/-- The merging loop of `free`: joins the block with its buddy as long as the buddy is free. -/
def mergeLoop : ℕ → ℕ → ℕ → State → ℕ × ℕ × State
  | 0, addr, order, s => (addr, order, s)
  | fuel + 1, addr, order, s =>
    if order < s.activeMaxOrder then
      let buddy := buddyOf addr order
      match removeBlock s buddy order with
      | (true, s) => mergeLoop fuel (if addr < buddy then addr else buddy) (order + 1) s
      | (false, s) => (addr, order, s)
    else (addr, order, s)

def free (s : State) (phys size : ℕ) : Except String State :=
  if phys = 0 ∨ size = 0 then .ok s
  else
    let order := sizeToOrder size
    if s.activeMaxOrder < order then .error "PMM: free size exceeds active max order"
    else do
      let s ← clearRefsLoop (blockSize order / pageSize) phys s
      let (addr, order, s) := mergeLoop (s.activeMaxOrder - order) phys order s
      pushBlock s addr order

def alloc (s : State) (size : ℕ) : Except String (ℕ × State) :=
  if size = 0 then .ok (0, s)
  else
    let order := sizeToOrder size
    if s.activeMaxOrder < order then .ok (0, s)
    else do
      let (block, s) ← takeBlock s order
      if block = 0 then .ok (0, s)
      else do
        let (ok, s) ← initRefcountsLocked s block (blockSize order)
        if ok then .ok (block, s) else .error "PMM: failed to allocate refcount metadata"

/-- `AllocConstraints`, without the request to clear the memory. -/
structure AllocConstraints where
  minPhys : ℕ
  maxPhysExclusive : ℕ
  align : ℕ

/-- `range_can_hold`: the first aligned address of the block that leaves room for `size`. -/
def rangeCanHold (block blockEnd size : ℕ) (c : AllocConstraints) : Option ℕ :=
  let minPhys := if block < c.minPhys then c.minPhys else block
  let maxPhys := if c.maxPhysExclusive < blockEnd then c.maxPhysExclusive else blockEnd
  if maxPhys ≤ minPhys ∨ maxPhys - minPhys < size then none
  else
    match alignUpChecked minPhys c.align with
    | none => none
    | some aligned =>
      if aligned < minPhys ∨ maxPhys < aligned ∨ maxPhys - aligned < size then none
      else some aligned

/-- The walk of `alloc_constrained` over one free list: the first block that can hold the
request, with its end and the address found in it. -/
def findHoldIn (order size : ℕ) (c : AllocConstraints) :
    List ℕ → Except String (Option (ℕ × ℕ × ℕ))
  | [] => .ok none
  | block :: rest =>
    match addChecked block (blockSize order) with
    | none => .error "PMM: free block address overflows"
    | some blockEnd =>
      match rangeCanHold block blockEnd size c with
      | some candidate => .ok (some (block, blockEnd, candidate))
      | none => findHoldIn order size c rest

/-- The outer loop of `alloc_constrained` from order `i` on, with the order of the block found. -/
def findHoldLoop (size : ℕ) (c : AllocConstraints) (s : State) :
    ℕ → ℕ → Except String (Option (ℕ × ℕ × ℕ × ℕ))
  | 0, _ => .ok none
  | fuel + 1, i =>
    if s.activeMaxOrder < i then .ok none
    else do
      match ← findHoldIn i size c (s.freeLists i) with
      | some hit => .ok (some (i, hit))
      | none => findHoldLoop size c s fuel (firstNonemptyOrder s (i + 1))

/-- What `alloc_constrained` does with the block it found: unlinks it, gives back what lies
before and after the candidate, and starts the counts. -/
def carveCandidate (s : State) (i block blockEnd candidate allocSize : ℕ) :
    Except String State := do
  let (removed, s) := removeBlock s block i
  if !removed then .error "PMM: constrained free-list removal failed"
  else
    match addChecked candidate allocSize with
    | none => .error "PMM: constrained allocation overflows"
    | some candidateEnd => do
      let s ← pushRangeLocked s block candidate
      let s ← pushRangeLocked s candidateEnd blockEnd
      let (ok, s) ← initRefcountsLocked s candidate allocSize
      if ok then .ok s else .error "PMM: failed to allocate refcount metadata"

/-- `alloc_constrained`: the address and the value stored through `allocated_size`. -/
def allocConstrained (s : State) (size : ℕ) (c : AllocConstraints) :
    Except String ((ℕ × ℕ) × State) :=
  if size = 0 then .ok ((0, 0), s)
  else if uint64Max - (pageSize - 1) < size then .ok ((0, 0), s)
  else if c.maxPhysExclusive ≤ c.minPhys then .ok ((0, 0), s)
  else
    let order := sizeToOrder size
    if s.activeMaxOrder < order then .ok ((0, 0), s)
    else
      let allocSize := blockSize order
      let align := if c.align ≠ 0 then c.align else pageSize
      if !isPowerOfTwo align then .ok ((0, 0), s)
      else
        let align := if align < pageSize then pageSize else align
        let align := if align < allocSize then allocSize else align
        do
          match ← findHoldLoop allocSize { c with align := align } s (s.activeMaxOrder + 2)
              (firstNonemptyOrder s order) with
          | none => .ok ((0, 0), s)
          | some (i, block, blockEnd, candidate) => do
            let s ← carveCandidate s i block blockEnd candidate allocSize
            .ok ((candidate, allocSize), s)

/-- `ref_page`; the count is a `uint32_t`. -/
def refPage (s : State) (phys : ℕ) : Except String State := do
  let (slot, s) ← getRefSlotLocked s phys true
  match slot with
  | none => .error "PMM: failed to allocate refcount metadata"
  | some slot => .ok (s.writeRef slot ((s.refLeaf slot.1 slot.2 + 1) % 2 ^ 32))

def unrefPage (s : State) (phys : ℕ) : Except String State := do
  let (slot, s) ← getRefSlotLocked s phys false
  match slot with
  | none => .ok s
  | some slot =>
    let s := if 0 < s.refLeaf slot.1 slot.2
      then s.writeRef slot (s.refLeaf slot.1 slot.2 - 1) else s
    if s.refLeaf slot.1 slot.2 = 0 then free s phys pageSize else .ok s

def getRef (s : State) (phys : ℕ) : ℕ :=
  match getRefSlotLocked s phys false with
  | .ok (some slot, _) => s.refLeaf slot.1 slot.2
  | _ => 0

end RHKernel.Pmm
