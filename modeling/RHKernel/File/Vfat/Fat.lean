import RHKernel.Lib.Threaded
import Mathlib.Algebra.Order.Group.Nat

/-!
# The clusters of a FAT file

The file allocation table holds for each cluster of a volume the number of the one that follows it
in its file, or a mark for the last one; zero stands for a cluster that is in no file. The functions
here are those that walk along the chain of a file, continue it and cut it off, and the reads and
writes of a file over them.

The table is given by its values, as `fat_get_raw` returns and `fat_set` stores them: the three
widths of the table differ in the marks only. A node is `struct vfat_node` without what does not
change; the directory entry is the part of it that `update_entry` writes. The device does not fail.
-/

namespace RHKernel.Vfat

open Function

inductive FatType
  | fat12
  | fat16
  | fat32

/-- `VFAT_EOC12`, `VFAT_EOC16` and `VFAT_EOC32`. -/
def FatType.eocMin : FatType → ℕ
  | .fat12 => 0x0FF8
  | .fat16 => 0xFFF8
  | .fat32 => 0x0FFFFFF8

def FatType.eocValue : FatType → ℕ
  | .fat12 => 0x0FFF
  | .fat16 => 0xFFFF
  | .fat32 => 0x0FFFFFFF

/-- `VFAT_BAD12`, `VFAT_BAD16` and `VFAT_BAD32`. -/
def FatType.badValue : FatType → ℕ
  | .fat12 => 0x0FF7
  | .fat16 => 0xFFF7
  | .fat32 => 0x0FFFFFF7

/-- The numbers of a volume that its files depend on. -/
structure Volume where
  fatType : FatType
  readonly : Bool
  clusterCount : ℕ
  clusterBytes : ℕ
  clusterBytes_pos : 0 < clusterBytes
  clusterCount_lt : clusterCount + 2 ≤ fatType.badValue

def Volume.valid (v : Volume) (c : ℕ) : Prop := 2 ≤ c ∧ c < v.clusterCount + 2

instance (v : Volume) (c : ℕ) : Decidable (v.valid c) := inferInstanceAs (Decidable (_ ∧ _))

/-- The table, the bytes of the clusters, the cluster and the size in the directory entry of the
file, and what `fat_alloc_cluster` keeps; `freeClusters` is there if `free_count_valid` is set. -/
structure Disk where
  fat : ℕ → ℕ
  data : ℕ → ℕ → UInt8
  entryFirst : ℕ
  entrySize : ℕ
  nextFree : ℕ
  freeClusters : Option ℕ

structure Node where
  firstCluster : ℕ
  size : ℕ
  deriving DecidableEq

/-! ### The table -/

/-- `fat_next`: nothing for `UINT32_MAX`, and `some none` for the zero it returns at the end. -/
def fatNext (v : Volume) (d : Disk) (c : ℕ) : Option (Option ℕ) :=
  if ¬v.valid c then none
  else if d.fat c = v.fatType.badValue then none
  else if v.fatType.eocMin ≤ d.fat c then some none
  else if ¬v.valid (d.fat c) then none
  else some (some (d.fat c))

def fatSet (d : Disk) (c value : ℕ) : Disk := { d with fat := update d.fat c value }

def fatScanFreeRange (d : Disk) (first last : ℕ) : Option ℕ :=
  (List.range' first (last - first)).find? fun c => d.fat c = 0

def fatAllocCluster (v : Volume) (d : Disk) : Option (ℕ × Disk) :=
  if v.readonly = true ∨ d.freeClusters = some 0 then none
  else
    let last := v.clusterCount + 2
    let start := if v.valid d.nextFree then d.nextFree else 2
    match (fatScanFreeRange d start last).or (fatScanFreeRange d 2 start) with
    | none => none
    | some c =>
      some (c,
        { fatSet d c v.fatType.eocValue with
          data := update d.data c fun _ => 0
          nextFree := if c + 1 < last then c + 1 else 2
          freeClusters := d.freeClusters.map (· - 1) })

/-- A cluster that `fat_free_chain` frees. -/
def freeCluster (v : Volume) (d : Disk) (c : ℕ) : Disk :=
  { fatSet d c 0 with
    nextFree := if c < d.nextFree ∨ ¬v.valid d.nextFree then c else d.nextFree
    freeClusters := d.freeClusters.map fun k => if k < v.clusterCount then k + 1 else k }

def fatFreeChain (v : Volume) : ℕ → ℕ → Disk → Disk
  | 0, _, d => d
  | guard + 1, c, d =>
    if v.valid c then
      match fatNext v d c with
      | some (some next) => fatFreeChain v guard next (freeCluster v d c)
      | _ => freeCluster v d c
    else d

/-- `vfat_next_cluster`: the cluster, if there is one, and the disk afterwards. -/
def vfatNextCluster (v : Volume) (d : Disk) (current : ℕ) (alloc : Bool) : Option ℕ × Disk :=
  match fatNext v d current with
  | none => (none, d)
  | some (some next) => (some next, d)
  | some none =>
    if alloc = false then (none, d)
    else
      match fatAllocCluster v d with
      | none => (none, d)
      | some (next, d) => (some next, fatSet d current next)

/-- The loop of `chain_cluster_at`. -/
def clusterAfter (v : Volume) (alloc : Bool) : ℕ → ℕ → Disk → Option ℕ × Disk
  | 0, c, d => (some c, d)
  | steps + 1, c, d =>
    match vfatNextCluster v d c alloc with
    | (none, d) => (none, d)
    | (some next, d) => clusterAfter v alloc steps next d

/-- `chain_cluster_at`: the cluster, the node and the disk afterwards. -/
def chainClusterAt (v : Volume) (d : Disk) (n : Node) (index : ℕ) (alloc : Bool) :
    Option ℕ × Node × Disk :=
  if n.firstCluster = 0 then
    if alloc = false then (none, n, d)
    else
      match fatAllocCluster v d with
      | none => (none, n, d)
      | some (c, d) =>
        if ¬v.valid c then (none, { n with firstCluster := c }, d)
        else
          let (r, d) := clusterAfter v alloc index c d
          (r, { n with firstCluster := c }, d)
  else if ¬v.valid n.firstCluster then (none, n, d)
  else
    let (r, d) := clusterAfter v alloc index n.firstCluster d
    (r, n, d)

/-! ### Files -/

/-- `update_entry`: the entry of a file that is not removed is in use. -/
def updateEntry (d : Disk) (n : Node) : Disk :=
  { d with entryFirst := n.firstCluster, entrySize := n.size }

/-- The loop of `vfat_read`, with `left` bytes to go. -/
def readLoop (v : Volume) (d : Disk) : ℕ → ℕ → ℕ → ℕ → List UInt8
  | 0, _, _, _ => []
  | fuel + 1, c, inCluster, left =>
    if left = 0 then []
    else
      let take := min (v.clusterBytes - inCluster) left
      (List.range take).map (fun i => d.data c (inCluster + i)) ++
        if left - take = 0 then []
        else
          match (vfatNextCluster v d c false).1 with
          | none => []
          | some next => readLoop v d fuel next 0 (left - take)

/-- `vfat_read`: the bytes that are read. -/
def vfatRead (v : Volume) (d : Disk) (n : Node) (off size : ℕ) : List UInt8 :=
  if n.size ≤ off then []
  else
    let size := min size (n.size - off)
    if size = 0 then []
    else if n.firstCluster = 0 then []
    else
      match (chainClusterAt v d n (off / v.clusterBytes) false).1 with
      | none => []
      | some c => readLoop v d size c (off % v.clusterBytes) size

/-- Bytes are written into a cluster. -/
def putBytes (d : Disk) (c off : ℕ) (buf : List UInt8) : Disk :=
  { d with
    data := update d.data c fun i =>
      if off ≤ i ∧ i < off + buf.length then buf.getD (i - off) 0 else d.data c i }

/-- The loop of `vfat_write`: how many bytes are written, and the disk afterwards. -/
def writeLoop (v : Volume) : ℕ → Disk → ℕ → ℕ → List UInt8 → ℕ × Disk
  | 0, d, _, _, _ => (0, d)
  | fuel + 1, d, c, inCluster, buf =>
    if buf.length = 0 then (0, d)
    else
      let take := min (v.clusterBytes - inCluster) buf.length
      let d := putBytes d c inCluster (buf.take take)
      if buf.length - take = 0 then (take, d)
      else
        match vfatNextCluster v d c true with
        | (none, d) => (take, d)
        | (some next, d) =>
          let (done, d) := writeLoop v fuel d next 0 (buf.drop take)
          (take + done, d)

/-- The largest size that an entry can hold. -/
def sizeMax : ℕ := 0xFFFFFFFF

/-- `vfat_write`: the number it returns, the node and the disk afterwards. -/
def vfatWrite (v : Volume) (d : Disk) (n : Node) (off : ℕ) (buf : List UInt8) : ℕ × Node × Disk :=
  if v.readonly = true ∨ sizeMax < off ∨ sizeMax - off < buf.length then (0, n, d)
  else
    match chainClusterAt v d n (off / v.clusterBytes) true with
    | (none, n, d) => (0, n, d)
    | (some c, n, d) =>
      let (done, d) := writeLoop v buf.length d c (off % v.clusterBytes) buf
      let n := if done ≠ 0 ∧ n.size < off + done then { n with size := off + done } else n
      (done, n, if done ≠ 0 then updateEntry d n else d)

def trimChain (v : Volume) (d : Disk) (n : Node) (keep : ℕ) : Bool × Node × Disk :=
  if keep = 0 then
    (true, { n with firstCluster := 0 },
      if n.firstCluster ≠ 0 then fatFreeChain v v.clusterCount n.firstCluster d else d)
  else
    match chainClusterAt v d n (keep - 1) false with
    | (none, n, d) => (false, n, d)
    | (some c, n, d) =>
      let next := fatNext v d c
      let d := fatSet d c v.fatType.eocValue
      match next with
      | some (some next) => (true, n, fatFreeChain v v.clusterCount next d)
      | _ => (true, n, d)

/-- `vfat_truncate`: whether it returns 0, the node and the disk afterwards. -/
def vfatTruncate (v : Volume) (d : Disk) (n : Node) (size : ℕ) : Bool × Node × Disk :=
  if v.readonly = true ∨ sizeMax < size then (false, n, d)
  else
    let need := if size ≠ 0 then (size + v.clusterBytes - 1) / v.clusterBytes else 0
    let (ok, n, d) : Bool × Node × Disk :=
      if need ≠ 0 then
        match chainClusterAt v d n (need - 1) true with
        | (none, n, d) => (false, n, d)
        | (some _, n, d) => (true, n, d)
      else (true, n, d)
    if ok = false then (false, n, d)
    else
      match trimChain v d n need with
      | (false, n, d) => (false, n, d)
      | (true, n, d) =>
        let n := { n with size := size }
        (true, n, updateEntry d n)

end RHKernel.Vfat
