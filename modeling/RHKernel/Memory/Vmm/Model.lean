import RHKernel.Smp.Vma

/-!
# The virtual memory manager

Page tables live in physical memory. The model keeps the contents of memory as the 512 words of
each page, named by the page's physical address, together with the allocator the tables and user
frames come from. A walk goes from a root through the entries that are present; with `allocate`
it fills the missing ones with cleared pages.

The functions below follow `vmm.cpp`. Flushing the translation buffers has no counterpart: a
memory access in the model always goes through the tables. An operation stops with the text of
`kpanic`.
-/

namespace RHKernel.Vmm

open Pmm PageFlags Vma Bits Function

inductive PageSize where
  | size4K
  | size2M
  | size1G
  deriving DecidableEq, Repr

/-- Physical memory with the allocator, and `allocated_page_table_bytes`. `unrefs` records the
calls of `unref_page`, each with the state of the allocator it was made in; nothing reads it. -/
structure State where
  pmm : Pmm.State
  mem : ℕ → ℕ → Pte
  pageTableBytes : ℕ
  unrefs : List (Pmm.State × ℕ)

/-- The allocator after one of its operations. -/
def State.withPmm (s : State) (pmm : Pmm.State) : State := { s with pmm := pmm }

/-- `pmm::unref_page`. -/
def unref (s : State) (phys : ℕ) : Except String State := do
  let pmm ← unrefPage s.pmm phys
  .ok { s with pmm := pmm, unrefs := (s.pmm, phys) :: s.unrefs }

/-- `table[index] = entry`. -/
def State.setWord (s : State) (table index : ℕ) (entry : Pte) : State :=
  { s with mem := update s.mem table (update (s.mem table) index entry) }

/-- `memset(p2v(phys), 0, PAGE_SIZE)`. -/
def State.zeroPage (s : State) (phys : ℕ) : State :=
  { s with mem := update s.mem phys fun _ => 0 }

/-- `memcpy(p2v(dst), p2v(src), PAGE_SIZE)`. -/
def State.copyPage (s : State) (dst src : ℕ) : State :=
  { s with mem := update s.mem dst (s.mem src) }

variable (c : Config)

/-! ### Walking and filling page tables -/

def allocPageTable (s : State) : Except String (ℕ × State) := do
  let (phys, pmm) ← alloc s.pmm pageSize
  if phys = 0 then .ok (0, s.withPmm pmm)
  else .ok (phys, { s with pmm := pmm, pageTableBytes := s.pageTableBytes + pageSize })

/-- The word that points at the page table at `phys`. -/
def tableEntry (phys : ℕ) : Pte :=
  (BitVec.ofNat 64 phys &&& c.physAddrMask) ||| (present ||| write ||| user)

def getNextTable (s : State) (table index : ℕ) (allocate : Bool) :
    Except String (Option ℕ × State) :=
  let entry := s.mem table index
  if entry.has present then
    if entry.has huge then .ok (none, s) else .ok (some (frame c entry), s)
  else if !allocate then .ok (none, s)
  else do
    let (phys, s) ← allocPageTable s
    if phys = 0 then .ok (none, s)
    else
      .ok (some (frame c (BitVec.ofNat 64 phys)),
        (s.zeroPage phys).setWord table index (tableEntry c phys))

def levelShift (level : ℕ) : ℕ := 12 + 9 * (c.levels - 1 - level)

def levelIndex (virt level : ℕ) : ℕ := (virt >>> levelShift c level) &&& 0x1FF

/-- The loop of `walk_to_level` over the next `n` levels. -/
def walkFrom (virt : ℕ) (allocate : Bool) :
    ℕ → ℕ → ℕ → State → Except String (Option ℕ × State)
  | 0, _, table, s => .ok (some table, s)
  | n + 1, level, table, s => do
    let (next, s) ← getNextTable c s table (levelIndex c virt level) allocate
    match next with
    | none => .ok (none, s)
    | some next => walkFrom virt allocate n (level + 1) next s

def walkToLevel (s : State) (root virt target : ℕ) (allocate : Bool) :
    Except String (Option ℕ × State) :=
  walkFrom c virt allocate target 0 (frame c (BitVec.ofNat 64 root)) s

def userAddress (virt : ℕ) : Bool := virt < c.userTop

def makeLeafFlags (flags : Pte) (size : PageSize) : Pte :=
  let hw := (flags ||| present) &&& ~~~writeCombining
  let hw := if size ≠ .size4K then hw ||| huge else hw
  let hw := if !c.supportsNx then hw &&& ~~~nx else hw
  if flags.has writeCombining && c.supportsWc then
    (hw &&& ~~~(writeThrough ||| noCache)) |||
      (if size = .size4K then .twoPow 64 7 else .twoPow 64 12)
  else hw

/-- The level whose entries map pages of the given size. -/
def leafLevel : PageSize → ℕ
  | .size4K => c.levels - 1
  | .size2M => c.levels - 2
  | .size1G => c.levels - 3

/-- `map_page` and `map_page_internal`. -/
def mapPage (s : State) (virt phys : ℕ) (flags : Pte) (size : PageSize) (pagemap : ℕ) :
    Except String State := do
  let (table, s) ← walkToLevel c s pagemap virt (leafLevel c size) true
  match table with
  | none => .error "VMM: failed to allocate page table"
  | some table =>
    if size = .size1G && !c.supports1gb then .error "VMM: 1GB pages unsupported"
    else if size = .size2M && !c.supports2mb then .error "VMM: 2MB pages unsupported"
    else
      .ok (s.setWord table (levelIndex c virt (leafLevel c size))
        ((BitVec.ofNat 64 phys &&& c.physAddrMask) ||| makeLeafFlags c flags size))

/-- The page size `map_range` picks for its next step, with its length in bytes. -/
def stepSize (userMapping : Bool) (virt phys remaining : ℕ) : PageSize × ℕ :=
  if !userMapping && c.supports1gb && 0x40000000 ≤ remaining && virt % 0x40000000 = 0 &&
      phys % 0x40000000 = 0 then (.size1G, 0x40000000)
  else if !userMapping && c.supports2mb && 0x200000 ≤ remaining && virt % 0x200000 = 0 &&
      phys % 0x200000 = 0 then (.size2M, 0x200000)
  else (.size4K, pageSize)

/-- The loop of `map_range`; every round maps at least one page. -/
def mapRangeLoop (flags : Pte) (pagemap : ℕ) :
    ℕ → ℕ → ℕ → ℕ → State → Except String State
  | 0, _, _, _, s => .ok s
  | fuel + 1, virt, phys, remaining, s =>
    if remaining = 0 then .ok s
    else do
      let (size, step) := stepSize c (flags.has user) virt phys remaining
      let s ← mapPage c s virt phys flags size pagemap
      mapRangeLoop flags pagemap fuel (virt + step) (phys + step) (remaining - step) s

def mapRange (s : State) (virt phys size : ℕ) (flags : Pte) (pagemap : ℕ) :
    Except String State :=
  if size = 0 then .ok s
  else if virt % pageSize ≠ 0 || phys % pageSize ≠ 0 then
    .error "VMM: map_range called with unaligned address"
  else if uint64Max - (pageSize - 1) < size then .error "VMM: map_range overflow"
  else
    let rounded := alignUp size pageSize
    if uint64Max - rounded < virt || uint64Max - rounded < phys then
      .error "VMM: map_range overflow"
    else mapRangeLoop c flags pagemap (rounded / pageSize) virt phys rounded s

def makeSoftwarePte (flags state : Pte) : Pte :=
  ((flags ||| state) &&& softwarePteMask) &&& ~~~present

def mapSoftwarePage (s : State) (virt : ℕ) (flags state : Pte) (pagemap : ℕ) :
    Except String State :=
  if virt % pageSize ≠ 0 then .error "VMM: software page is unaligned"
  else do
    let (table, s) ← walkToLevel c s pagemap virt (c.levels - 1) true
    match table with
    | none => .error "VMM: failed to allocate page table"
    | some table =>
      .ok (s.setWord table (levelIndex c virt (c.levels - 1)) (makeSoftwarePte flags state))

def mapGuardPage (s : State) (virt : ℕ) (flags : Pte) (pagemap : ℕ) : Except String State :=
  mapSoftwarePage c s virt flags guard pagemap

/-! ### Removing and reading mappings -/

/-- The entry of a table that maps a large page: only the two levels above the last can. -/
def isHuge1g (level : ℕ) (entry : Pte) : Bool := level + 3 = c.levels && entry.has huge

def isHuge2m (level : ℕ) (entry : Pte) : Bool := level + 2 = c.levels && entry.has huge

/-- The loop of `unmap_page_internal` over the next `n` levels. -/
def unmapFrom (virt : ℕ) : ℕ → ℕ → ℕ → State → Except String State
  | 0, _, _, s => .ok s
  | n + 1, level, table, s =>
    let index := levelIndex c virt level
    let entry := s.mem table index
    let leaf := level + 1 = c.levels
    if !entry.has present then
      if leaf ∧ entry ≠ 0 then .ok (s.setWord table index 0) else .ok s
    else if isHuge1g c level entry then
      if virt % 0x40000000 ≠ 0 then .error "VMM: Attempted to unmap part of a 1GB huge page."
      else .ok (s.setWord table index 0)
    else if isHuge2m c level entry then
      if virt % 0x200000 ≠ 0 then .error "VMM: Attempted to unmap part of a 2MB huge page."
      else .ok (s.setWord table index 0)
    else if leaf then .ok (s.setWord table index 0)
    else if entry.has huge then .ok s
    else unmapFrom virt n (level + 1) (frame c entry) s

/-- `unmap_page` and `unmap_page_internal`. -/
def unmapPage (s : State) (virt pagemap : ℕ) : Except String State :=
  if virt % pageSize ≠ 0 then
    .error "VMM: unmap_page called with unaligned virtual address."
  else unmapFrom c virt c.levels 0 (frame c (BitVec.ofNat 64 pagemap)) s

/-- The loop of `unmap_range` over `n` pages. -/
def unmapRangeLoop (pagemap : ℕ) : ℕ → ℕ → State → Except String State
  | 0, _, s => .ok s
  | n + 1, virt, s => do
    let s ← unmapPage c s virt pagemap
    unmapRangeLoop pagemap n (virt + pageSize) s

def unmapRange (s : State) (virt size pagemap : ℕ) : Except String State :=
  if size = 0 then .ok s
  else if uint64Max - size < virt then .error "VMM: unmap_range overflow"
  else
    let start := alignDown virt pageSize
    let last := alignDown (virt + size - 1) pageSize + pageSize
    if last % 2 ^ 64 < start then .error "VMM: unmap_range overflow"
    else unmapRangeLoop c pagemap ((last - start) / pageSize) start s

/-- The loop of `get_mapping` over the next `n` levels. -/
def mappingFrom (s : State) (virt : ℕ) : ℕ → ℕ → ℕ → ℕ
  | 0, _, _ => 0
  | n + 1, level, table =>
    let entry := s.mem table (levelIndex c virt level)
    if !entry.has present then 0
    else if isHuge1g c level entry then
      alignDown (frame c entry + virt % 0x40000000) pageSize
    else if isHuge2m c level entry then
      alignDown (frame c entry + virt % 0x200000) pageSize
    else if level + 1 = c.levels then alignDown (frame c entry + virt % pageSize) pageSize
    else if entry.has huge then 0
    else mappingFrom s virt n (level + 1) (frame c entry)

def getMapping (s : State) (virt pagemap : ℕ) : ℕ :=
  mappingFrom c s virt c.levels 0 (frame c (BitVec.ofNat 64 pagemap))

/-- `get_pte_ptr`: the table and index of the last entry on the way to `virt`. -/
def getPtePtr (s : State) (virt pagemap : ℕ) : Option (ℕ × ℕ) :=
  match walkToLevel c s pagemap virt (c.levels - 1) false with
  | .ok (some table, _) => some (table, levelIndex c virt (c.levels - 1))
  | _ => none

/-! ### Page faults -/

/-- The bits of a page-fault error code. -/
def pfPresent : BitVec 64 := .twoPow 64 0

def pfWrite : BitVec 64 := .twoPow 64 1

def pfUser : BitVec 64 := .twoPow 64 2

def pfInstr : BitVec 64 := .twoPow 64 4

def stackVmaAllowsFault (t : Task) (page : ℕ) (isWrite : Bool) : Bool :=
  match t.area t.stackVma with
  | none => false
  | some vma =>
    vma.type = .stack && vma.committedStart ≤ page && page < vma.end && vma.has vmaRead &&
      (!isWrite || vma.has vmaWrite)

def handleStackFault (s : State) (t : Task) (faultAddr : ℕ) (err : BitVec 64) :
    Except String (Bool × State) :=
  let page := alignDown faultAddr pageSize
  if Pte.has err pfPresent then .ok (false, s)
  else if Pte.has err pfInstr then .ok (false, s)
  else if !stackVmaAllowsFault t page (Pte.has err pfWrite) then .ok (false, s)
  else if (getPtePtr c s page t.cr3).any fun p =>
      Pte.has (s.mem p.1 p.2) present || Pte.has (s.mem p.1 p.2) guard then .ok (false, s)
  else do
    let (phys, pmm) ← alloc s.pmm pageSize
    let s := s.withPmm pmm
    if phys = 0 then .ok (false, s)
    else do
      let s ← mapPage c (s.zeroPage phys) page phys (write ||| user ||| nx) .size4K t.cr3
      .ok (true, s)

/-- The conditions of `handle_demand_zero_fault` on the entry and the error code. -/
def demandZeroAllows (entry : Pte) (err : BitVec 64) : Bool :=
  entry.has demandZero && !entry.has guard && (!Pte.has err pfUser || entry.has user) &&
    (!Pte.has err pfWrite || entry.has write) && (!Pte.has err pfInstr || !entry.has nx)

/-- The entry `handle_demand_zero_fault` stores. -/
def demandZeroEntry (phys : ℕ) (entry : Pte) : Pte :=
  (BitVec.ofNat 64 phys &&& c.physAddrMask) ||| ((entry &&& softwarePteMask) &&& ~~~demandZero) |||
    present

def handleDemandZeroFault (s : State) (t : Task) (faultAddr : ℕ) (err : BitVec 64) :
    Except String (Bool × State) :=
  if Pte.has err pfPresent then .ok (false, s)
  else
    match getPtePtr c s faultAddr t.cr3 with
    | none => .ok (false, s)
    | some (table, index) =>
      if !demandZeroAllows (s.mem table index) err then .ok (false, s)
      else do
        let (phys, pmm) ← alloc s.pmm pageSize
        let s := s.withPmm pmm
        if phys = 0 then .ok (false, s)
        else
          let s := s.zeroPage phys
          .ok (true, s.setWord table index (demandZeroEntry c phys (s.mem table index)))

/-- The test of `handle_fault` before it makes a page writable: the entry is marked
copy-on-write, or it is a read-only user entry of an area that may be written. -/
def cowAllows (t : Task) (faultAddr : ℕ) (entry : Pte) : Bool :=
  entry.has cow ||
    ((findVma t faultAddr).any fun vma => vma.has vmaWrite) && entry.has user && !entry.has write

/-- The tail of `handle_fault`: a page with one owner becomes writable, any other is copied. -/
def resolveWrite (s : State) (table index : ℕ) : Except String (Bool × State) :=
  let entry := s.mem table index
  let oldPhys := frame c entry
  if getRef s.pmm oldPhys = 1 then
    .ok (true, s.setWord table index ((entry &&& ~~~cow) ||| write))
  else do
    let (newPhys, pmm) ← alloc s.pmm pageSize
    let s := s.withPmm pmm
    if newPhys = 0 then .ok (false, s)
    else do
      let s ← unref (s.copyPage newPhys oldPhys) oldPhys
      .ok (true, s.setWord table index ((BitVec.ofNat 64 newPhys &&& c.physAddrMask) |||
        ((s.mem table index &&& keepFlags) &&& ~~~cow) ||| write))

/-- `handle_fault` after the two handlers for missing pages. -/
def handleWriteFault (s : State) (t : Task) (faultAddr : ℕ) (err : BitVec 64) :
    Except String (Bool × State) :=
  if !Pte.has err pfWrite then .ok (false, s)
  else
    match getPtePtr c s faultAddr t.cr3 with
    | none => .ok (false, s)
    | some (table, index) =>
      if !cowAllows t faultAddr (s.mem table index) then .ok (false, s)
      else resolveWrite c s table index

def handleFault (s : State) (t : Task) (faultAddr : ℕ) (err : BitVec 64) :
    Except String (Bool × State) := do
  let (done, s) ← handleDemandZeroFault c s t faultAddr err
  if done then .ok (true, s)
  else do
    let (done, s) ← handleStackFault c s t faultAddr err
    if done then .ok (true, s) else handleWriteFault c s t faultAddr err

/-! ### Checking user buffers -/

/-- The loop of `user_page_accessible` over the next `n` levels. `stack` tells whether the stack
area of the current task allows the access. -/
def accessibleFrom (s : State) (virt : ℕ) (isWrite stack : Bool) : ℕ → ℕ → ℕ → Bool
  | 0, _, _ => false
  | n + 1, level, table =>
    let entry := s.mem table (levelIndex c virt level)
    let pte := level + 1 = c.levels
    if !entry.has present then
      if pte ∧ entry.has user ∧ !entry.has guard ∧ entry.has demandZero then
        !isWrite || entry.has write
      else stack
    else if !entry.has user then false
    else if isWrite && !entry.has write && !(pte && entry.has cow) then false
    else if isHuge1g c level entry || isHuge2m c level entry || pte then true
    else if entry.has huge then false
    else accessibleFrom s virt isWrite stack n (level + 1) (frame c entry)

/-- `user_page_accessible`, called with the current task of the processor. -/
def userPageAccessible (s : State) (current : Option Task) (virt : ℕ) (isWrite : Bool)
    (pml4 : ℕ) : Bool :=
  if !userAddress c virt then false
  else
    accessibleFrom c s virt isWrite
      (current.any fun t => t.cr3 = pml4 && stackVmaAllowsFault t virt isWrite) c.levels 0
      (frame c (BitVec.ofNat 64 pml4))

/-- The loop of `user_range_mapped` over `n` pages. -/
def userRangeLoop (s : State) (current : Option Task) (isWrite : Bool) (pml4 : ℕ) :
    ℕ → ℕ → Bool
  | 0, _ => true
  | n + 1, page =>
    userPageAccessible c s current page isWrite pml4 &&
      userRangeLoop s current isWrite pml4 n (page + pageSize)

def userRangeMapped (s : State) (current : Option Task) (virt size : ℕ) (isWrite : Bool)
    (pml4 : ℕ) : Bool :=
  if size = 0 then true
  else if virt = 0 || !userAddress c virt then false
  else if c.userTop - virt < size then false
  else
    let start := alignDown virt pageSize
    let last := alignDown (virt + size - 1) pageSize
    userRangeLoop c s current isWrite pml4 ((last - start) / pageSize + 1) start

end RHKernel.Vmm
