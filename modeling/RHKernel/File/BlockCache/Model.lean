import Mathlib.Algebra.Order.Group.Nat

/-!
# The block cache

`fs.cpp` keeps 128 blocks of 4096 bytes of the block devices. An entry that holds a block is in
the hash table and in the list of recently used entries; the others are on the free list. Only
`block_cache_lock` protects them: a read goes through several critical sections, with transfers
from the device between them, and an entry that is being filled is marked `loading` meanwhile.

A `block_read` is a machine whose steps are the critical sections and the transfers; what the call
does between two of them is local and belongs to the step before. Statistics and time stamps, which
nothing reads, are left out, and so are the critical sections that only count. Buffers and block
contents are functions of the index.
-/

namespace RHKernel.BlockCache

open Function

def blockSize : ℕ := 4096

def cacheEntries : ℕ := 128

def hashBuckets : ℕ := 256

def readaheadBlocks : ℕ := 2

def directThreshold : ℕ := blockSize * 8

def directTailMin : ℕ := directThreshold

def batchReadBlocks : ℕ := 16

def batchReadMin : ℕ := 2

def uint64Max : ℕ := 2 ^ 64 - 1

/-- `block_cache_entry`. Whether it is linked into the LRU list or the free list is read off these
lists. -/
structure Entry where
  node : ℕ
  block : ℕ
  valid : Bool
  loading : Bool
  hashed : Bool
  discardAfterLoad : Bool
  data : ℕ → UInt8

/-- The entry is for one of the blocks `firstBlock`, …, `lastBlock` of the device. -/
def Entry.within (x : Entry) (node firstBlock lastBlock : ℕ) : Prop :=
  x.node = node ∧ firstBlock ≤ x.block ∧ x.block ≤ lastBlock

instance (x : Entry) (node firstBlock lastBlock : ℕ) :
    Decidable (x.within node firstBlock lastBlock) := inferInstanceAs (Decidable (_ ∧ _))

/-- The entry with a block copied from `src`. -/
def Entry.filled (x : Entry) (src : ℕ → UInt8) : Entry :=
  { x with
    valid := true, loading := false, discardAfterLoad := false,
    data := fun j => if j < blockSize then src j else x.data j }

/-- The variables of the cache. The entries are numbered; a chain of the hash table is a list, and
so are the LRU list, most recently used first, and the free list. -/
structure Cache where
  entry : ℕ → Entry
  hash : ℕ → List ℕ
  lru : List ℕ
  free : List ℕ
  ready : Bool

namespace Cache

def setEntry (k : Cache) (e : ℕ) (f : Entry → Entry) : Cache :=
  { k with entry := update k.entry e (f (k.entry e)) }

/-- `block_cache_lru_remove_locked`. -/
def lruRemove (k : Cache) (e : ℕ) : Cache := { k with lru := k.lru.erase e }

/-- `block_cache_lru_front_locked`. -/
def lruFront (k : Cache) (e : ℕ) : Cache := { k with lru := e :: k.lru.erase e }

/-- `block_cache_free_push_locked`. -/
def freePush (k : Cache) (e : ℕ) : Cache :=
  if (k.entry e).loading = true ∨ e ∈ k.free then k
  else { k.lruRemove e with free := e :: k.free }

/-- `block_cache_init_locked`. -/
def init (k : Cache) : Cache :=
  if k.ready then k
  else { (List.range cacheEntries).foldl freePush k with ready := true }

def hashIndex (node block : ℕ) : ℕ :=
  let x := (node >>> 4) ^^^ block ^^^ (block >>> 32)
  let x := x ^^^ (x >>> 33)
  let x := (x * 0xff51afd7ed558ccd) % 2 ^ 64
  let x := x ^^^ (x >>> 33)
  x % hashBuckets

/-- The chain an entry belongs to. -/
def slot (k : Cache) (e : ℕ) : ℕ := hashIndex (k.entry e).node (k.entry e).block

/-- `block_cache_unhash_locked`. -/
def unhash (k : Cache) (e : ℕ) : Cache :=
  if (k.entry e).hashed then
    { k.setEntry e fun x => { x with hashed := false } with
      hash := update k.hash (k.slot e) ((k.hash (k.slot e)).erase e) }
  else k

/-- `block_cache_hash_locked`. -/
def hashEntry (k : Cache) (e : ℕ) : Cache :=
  if (k.entry e).hashed then k
  else
    { k.setEntry e fun x => { x with hashed := true } with
      hash := update k.hash (k.slot e) (e :: k.hash (k.slot e)) }

/-- The entry is for this block of this device. -/
def holds (k : Cache) (node block e : ℕ) : Bool :=
  ((k.entry e).valid || (k.entry e).loading) && (k.entry e).node == node &&
    (k.entry e).block == block

/-- `block_cache_find_locked`. -/
def find (k : Cache) (node block : ℕ) : Option ℕ :=
  (k.hash (hashIndex node block)).find? (k.holds node block)

/-- `block_cache_pick_locked`. -/
def pick (k : Cache) : Option ℕ × Cache :=
  let k := k.init
  match k.free with
  | e :: rest => (some e, { k with free := rest })
  | [] => (k.lru.reverse.find? fun e => !(k.entry e).loading, k)

/-! ### Critical sections -/

/-- How the first critical section of `block_cache_load` ends. -/
inductive Claim where
  | hit (e : ℕ)
  | again
  | claimed (e : ℕ)

/-- The first critical section of `block_cache_load`. -/
def claim (k : Cache) (node block : ℕ) : Claim × Cache :=
  match k.find node block with
  | some e => if (k.entry e).loading then (.again, k) else (.hit e, k.lruFront e)
  | none =>
    match k.pick with
    | (none, k) => (.again, k)
    | (some e, k) =>
      let k := k.unhash e
      let k := k.setEntry e fun x => { x with
        valid := false, loading := true, discardAfterLoad := false, node := node, block := block }
      (.claimed e, (k.lruFront e).hashEntry e)

/-- The second critical section of `block_cache_load`, after the transfer into the entry: whether
the block is now there. -/
def settle (k : Cache) (e got : ℕ) : Bool × Cache :=
  let keep := got = blockSize ∧ (k.entry e).discardAfterLoad = false
  let k := k.setEntry e fun x => { x with loading := false }
  if keep then (true, (k.setEntry e fun x => { x with valid := true }).lruFront e)
  else
    let k := k.setEntry e fun x => { x with valid := false, discardAfterLoad := false }
    (false, (k.unhash e).freePush e)

/-- `block_cache_invalidate` on one entry. -/
def drop (node firstBlock lastBlock : ℕ) (k : Cache) (e : ℕ) : Cache :=
  if (k.entry e).within node firstBlock lastBlock then
    let k := k.setEntry e fun x => { x with valid := false }
    if (k.entry e).loading then k.setEntry e fun x => { x with discardAfterLoad := true }
    else (k.unhash e).freePush e
  else k

def invalidate (k : Cache) (node firstBlock lastBlock : ℕ) : Cache :=
  (List.range cacheEntries).foldl (drop node firstBlock lastBlock) k

/-- The loop of `block_cache_uncached_run`, from block `run` on. -/
def uncachedFrom (k : Cache) (node firstBlock run : ℕ) : ℕ → ℕ
  | 0 => run
  | n + 1 =>
    if (k.find node (firstBlock + run)).isSome then run
    else k.uncachedFrom node firstBlock (run + 1) n

def uncachedRun (k : Cache) (node firstBlock maxBlocks : ℕ) : ℕ :=
  k.uncachedFrom node firstBlock 0 (min maxBlocks batchReadBlocks)

/-- A block is put into the entry `e`. -/
def store (k : Cache) (e : ℕ) (src : ℕ → UInt8) : Cache :=
  (k.setEntry e fun x => x.filled src).lruFront e

/-- The loop of `block_cache_install_read_run`, from block `i` on. -/
def installFrom (k : Cache) (node firstBlock : ℕ) (src : ℕ → UInt8) (i : ℕ) : ℕ → Cache
  | 0 => k
  | n + 1 =>
    let block := firstBlock + i
    let here := fun j => src (i * blockSize + j)
    match k.find node block with
    | some e =>
      if (k.entry e).loading then
        (k.setEntry e fun x => { x with discardAfterLoad := true }).installFrom node firstBlock src
          (i + 1) n
      else (k.store e here).installFrom node firstBlock src (i + 1) n
    | none =>
      match k.pick with
      | (none, k) => k
      | (some e, k) =>
        let k := k.unhash e
        let k := k.setEntry e fun x => { x with node := node, block := block, hashed := false }
        ((k.hashEntry e).store e here).installFrom node firstBlock src (i + 1) n

def installReadRun (k : Cache) (node firstBlock blocks : ℕ) (src : ℕ → UInt8) : Cache :=
  k.installFrom node firstBlock src 0 (min blocks batchReadBlocks)

/-- The loop of `block_cache_copy_hot_run`, when `copied` blocks have been copied to `out`. -/
def copyFrom (k : Cache) (node firstBlock copied : ℕ) (out : ℕ → UInt8) :
    ℕ → ℕ × (ℕ → UInt8) × Cache
  | 0 => (copied, out, k)
  | n + 1 =>
    match k.find node (firstBlock + copied) with
    | none => (copied, out, k)
    | some e =>
      if (k.entry e).loading || !(k.entry e).valid then (copied, out, k)
      else
        let out := fun j =>
          if copied * blockSize ≤ j ∧ j < (copied + 1) * blockSize
          then (k.entry e).data (j - copied * blockSize) else out j
        (k.lruFront e).copyFrom node firstBlock (copied + 1) out n

/-- `block_cache_copy_hot_run`: the number of blocks copied. -/
def copyHotRun (k : Cache) (node firstBlock blocks : ℕ) (out : ℕ → UInt8) :
    ℕ × (ℕ → UInt8) × Cache :=
  k.copyFrom node firstBlock 0 out (min blocks 16)

end Cache

/-! ### Devices -/

/-- A node with `read` and `write` callbacks over an array of bytes; `block` is
`VFS_BLOCK_DEVICE`. -/
structure Device where
  block : Bool
  size : ℕ
  byte : ℕ → UInt8

/-- How many bytes a transfer of `n` bytes at `offset` moves. -/
def Device.count (d : Device) (offset n : ℕ) : ℕ := min n (d.size - offset)

/-- The contents after a `write` of `n` bytes of `src` at `offset`. -/
def Device.write (d : Device) (offset n : ℕ) (src : ℕ → UInt8) : Device :=
  { d with byte := fun x =>
      if offset ≤ x ∧ x < offset + d.count offset n then src (x - offset) else d.byte x }

structure Sys where
  cache : Cache
  dev : ℕ → Device

/-- `vfs::read` of `n` bytes at `offset`, to the index `done` of the buffer `out`. -/
def Sys.receive (y : Sys) (node offset n done : ℕ) (out : ℕ → UInt8) : ℕ → UInt8 := fun j =>
  if done ≤ j ∧ j < done + (y.dev node).count offset n
  then (y.dev node).byte (offset + (j - done)) else out j

/-! ### `cached_block_read` -/

/-- What goes on after a `block_cache_load`: the copy of the block that was asked for, or the
read-ahead of `firstBlock + i`, up to `maxBlock`. -/
inductive Goal where
  | single
  | prefetch (firstBlock i maxBlock : ℕ)
  deriving DecidableEq

/-- The critical section or transfer that a read comes to next. -/
inductive Pc where
  | direct (n : ℕ)
  | hotRun
  | uncachedRun
  | batch (run : ℕ)
  | install (got bytes : ℕ)
  | claim (block : ℕ) (goal : Goal)
  | fill (e block : ℕ) (goal : Goal)
  | settle (e block got : ℕ) (goal : Goal)
  | copy (block : ℕ)
  | present (firstBlock i maxBlock : ℕ)
  | done
  deriving DecidableEq

/-- A call of `cached_block_read`. -/
structure Read where
  node : ℕ
  offset : ℕ
  size : ℕ
  done : ℕ
  out : ℕ → UInt8
  pc : Pc

def directIo (offset size : ℕ) : Prop :=
  directThreshold ≤ size ∧ offset % blockSize = 0 ∧ size % blockSize = 0

instance (offset size : ℕ) : Decidable (directIo offset size) :=
  inferInstanceAs (Decidable (_ ∧ _))

def alignedTail (offset size : ℕ) : ℕ :=
  if offset % blockSize ≠ 0 ∨ size < directTailMin then 0 else size / blockSize * blockSize

namespace Read

def abs (r : Read) : ℕ := r.offset + r.done

def left (r : Read) : ℕ := r.size - r.done

def loop (r : Read) : Read :=
  if r.done < r.size then
    if alignedTail r.abs r.left ≠ 0 then { r with pc := .direct (alignedTail r.abs r.left) }
    else if r.abs % blockSize = 0 ∧ blockSize ≤ r.left then { r with pc := .hotRun }
    else { r with pc := .claim (r.abs / blockSize) .single }
  else { r with pc := .done }

/-- `block_cache_prefetch`, from block `i` on. -/
def prefetch (r : Read) (firstBlock i maxBlock : ℕ) : Read :=
  if i < readaheadBlocks ∧ firstBlock ≤ uint64Max - i ∧ firstBlock + i ≤ maxBlock
  then { r with pc := .present firstBlock i maxBlock }
  else r.loop

/-- `block_cache_load` has returned. -/
def loaded (r : Read) (ok : Bool) (block : ℕ) : Goal → Read
  | .single => if ok then { r with pc := .copy block } else { r with pc := .done }
  | .prefetch firstBlock i maxBlock => r.prefetch firstBlock (i + 1) maxBlock

/-- `done += got`, and the loop goes on unless the transfer was short. -/
def advance (r : Read) (got wanted : ℕ) : Read :=
  let r := { r with done := r.done + got }
  if got = wanted then r.loop else { r with pc := .done }

/-- The bytes of the block at `abs` that are asked for. -/
def chunk (r : Read) : ℕ := min (blockSize - r.abs % blockSize) r.left

/-- `cached_block_read` up to its first step. -/
def start (y : Sys) (node offset size : ℕ) (buffer : ℕ → UInt8) : Read :=
  let r : Read := ⟨node, offset, size, 0, buffer, .done⟩
  if (y.dev node).block = false then { r with pc := .direct size }
  else if uint64Max - offset < size then r
  else if directIo offset size then { r with pc := .direct size }
  else r.loop

def step (r : Read) (y : Sys) : Read × Sys :=
  match r.pc with
  | .direct n =>
    let got := (y.dev r.node).count r.abs n
    let r := { r with out := y.receive r.node r.abs n r.done r.out }
    if got = 0 then ({ r with pc := .done }, y) else (r.advance got n, y)
  | .hotRun =>
    let x := y.cache.copyHotRun r.node (r.abs / blockSize) (r.left / blockSize)
      fun j => r.out (r.done + j)
    let y := { y with cache := x.2.2 }
    if x.1 = 0 then ({ r with pc := .uncachedRun }, y)
    else
      (({ r with
          done := r.done + x.1 * blockSize
          out := fun j => if r.done ≤ j then x.2.1 (j - r.done) else r.out j } : Read).loop, y)
  | .uncachedRun =>
    let run := y.cache.uncachedRun r.node (r.abs / blockSize) (r.left / blockSize)
    if batchReadMin ≤ run then ({ r with pc := .batch run }, y)
    else ({ r with pc := .claim (r.abs / blockSize) .single }, y)
  | .batch run =>
    let bytes := run * blockSize
    let got := (y.dev r.node).count r.abs bytes
    let r := { r with out := y.receive r.node r.abs bytes r.done r.out }
    if got = 0 then ({ r with pc := .done }, y)
    else if got / blockSize = 0 then (r.advance got bytes, y)
    else ({ r with pc := .install got bytes }, y)
  | .install got bytes =>
    let cache := y.cache.installReadRun r.node (r.abs / blockSize) (got / blockSize)
      fun j => r.out (r.done + j)
    (r.advance got bytes, { y with cache := cache })
  | .claim block goal =>
    if uint64Max / blockSize < block then (r.loaded false block goal, y)
    else
      match y.cache.claim r.node block with
      | (.hit _, cache) => (r.loaded true block goal, { y with cache := cache })
      | (.again, cache) => (r, { y with cache := cache })
      | (.claimed e, cache) => ({ r with pc := .fill e block goal }, { y with cache := cache })
  | .fill e block goal =>
    let got := (y.dev r.node).count (block * blockSize) blockSize
    let cache := y.cache.setEntry e fun x =>
      { x with data := y.receive r.node (block * blockSize) blockSize 0 x.data }
    ({ r with pc := .settle e block got goal }, { y with cache := cache })
  | .settle e block got goal =>
    let (ok, cache) := y.cache.settle e got
    (r.loaded ok block goal, { y with cache := cache })
  | .copy block =>
    match y.cache.find r.node block with
    | none => (r.loop, y)
    | some e =>
      if (y.cache.entry e).loading then (r.loop, y)
      else
        let inBlock := r.abs % blockSize
        let n := r.chunk
        let r' := { r with
          done := r.done + n
          out := fun j =>
            if r.done ≤ j ∧ j < r.done + n then (y.cache.entry e).data (inBlock + (j - r.done))
            else r.out j }
        let y := { y with cache := y.cache.lruFront e }
        if inBlock + n = blockSize ∧ r'.done < r'.size
        then (r'.prefetch (block + 1) 0 ((r.offset + r.size - 1) / blockSize), y)
        else (r'.loop, y)
  | .present firstBlock i maxBlock =>
    if (y.cache.find r.node (firstBlock + i)).isSome
    then (r.prefetch firstBlock (i + 1) maxBlock, y)
    else ({ r with pc := .claim (firstBlock + i) (.prefetch firstBlock i maxBlock) }, y)
  | .done => (r, y)

end Read

/-! ### `cached_block_write` -/

/-- The step that a write comes to next. -/
inductive WritePc where
  | transfer
  | invalidate (written : ℕ)
  | done (written : ℕ)
  deriving DecidableEq

/-- A call of `cached_block_write`. -/
structure Write where
  node : ℕ
  offset : ℕ
  size : ℕ
  buffer : ℕ → UInt8
  pc : WritePc

namespace Write

/-- `cached_block_write` up to its first step. -/
def start (y : Sys) (node offset size : ℕ) (buffer : ℕ → UInt8) : Write :=
  let w : Write := ⟨node, offset, size, buffer, .transfer⟩
  if (y.dev node).block = true ∧ uint64Max - offset < size then { w with pc := .done 0 } else w

def step (w : Write) (y : Sys) : Write × Sys :=
  match w.pc with
  | .transfer =>
    let d := y.dev w.node
    let written := d.count w.offset w.size
    let y := { y with dev := update y.dev w.node (d.write w.offset w.size w.buffer) }
    if d.block = false ∨ written = 0 then ({ w with pc := .done written }, y)
    else ({ w with pc := .invalidate written }, y)
  | .invalidate written =>
    let first := w.offset / blockSize
    let last := (w.offset + written - 1) / blockSize
    ({ w with pc := .done written }, { y with cache := y.cache.invalidate w.node first last })
  | .done _ => (w, y)

end Write

end RHKernel.BlockCache
