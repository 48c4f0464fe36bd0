import RHKernel.File.Exfat.FileSet

/-!
# Directories of exFAT

A directory is a sequence of entries, in which the file sets stand among entries that are not in use
and entries of other kinds. The entry that marks the end of the directory ends every scan.

A directory is given here by the entries that its clusters hold, `slots`; for a directory other than
the root these are the ones below `data_length`. `free` counts the clusters that `alloc_cluster`
still finds: `ensure_clusters` needs one of them for `cluster_size` more bytes. The volume is read
and written without errors of the device.
-/

namespace RHKernel.Exfat

def attrArchive : UInt16 := 0x0020

/-- The node of a directory. -/
structure Dir where
  attr : UInt16
  isRoot : Bool
  readonly : Bool
  slots : List Entry
  free : ℕ

def Volume.perCluster (fs : Volume) : ℕ := fs.clusterSize / entrySize

/-- `entry_limit` of `scan_dir` and `limit` of `dir_find_free`. -/
def Dir.limit (fs : Volume) (d : Dir) : ℕ :=
  if d.isRoot then fs.clusterCount * fs.perCluster else d.slots.length

/-- `dir_read_entry`. -/
def Dir.read (d : Dir) (i : ℕ) : Except Int Entry :=
  (d.slots[i]?).elim (.error (if d.isRoot then -1 else 1)) .ok

/-- `dir_write_entry`. -/
def Dir.write (d : Dir) (i : ℕ) (e : Entry) : Option Dir :=
  if i < d.slots.length then some { d with slots := d.slots.set i e } else none

def inUse (e : Entry) : Prop := e 0 &&& 0x80 ≠ 0

instance (e : Entry) : Decidable (inUse e) := inferInstanceAs (Decidable (_ ≠ _))

/-! ### Names -/

/-- `name16_eq`. -/
def nameEq (fs : Volume) (a b : List UInt16) : Prop :=
  a.map (upcaseUnit fs) = b.map (upcaseUnit fs)

instance (fs : Volume) (a b : List UInt16) : Decidable (nameEq fs a b) :=
  inferInstanceAs (Decidable (_ = _))

/-- A code point is written behind `n` units, if there is room for it. -/
def putUtf16 (cp n : ℕ) (next : ℕ → Option (List UInt16)) : Option (List UInt16) :=
  if cp < 0x10000 then
    if maxNameUnits ≤ n then none else (next (n + 1)).map (UInt16.ofNat cp :: ·)
  else if maxNameUnits ≤ n + 1 then none
  else
    (next (n + 2)).map fun l =>
      UInt16.ofNat (0xD800 + (cp - 0x10000) / 1024) ::
        UInt16.ofNat (0xDC00 + (cp - 0x10000) % 1024) :: l

/-- A byte that continues a code point. -/
def continues (b : UInt8) : Prop := b &&& 0xC0 = 0x80

instance (b : UInt8) : Decidable (continues b) := inferInstanceAs (Decidable (_ = _))

/-- The code point that `utf8_to_utf16` reads at the start of a string, and its length. A sequence
that the end of the string cuts off is rejected: the zero there continues nothing. -/
def codePoint (s : List UInt8) : Option (ℕ × ℕ) :=
  let c := s.getD 0 0
  let b1 := s.getD 1 0
  let b2 := s.getD 2 0
  let b3 := s.getD 3 0
  if c < 0x80 then some (c.toNat, 1)
  else if c &&& 0xE0 = 0xC0 then
    let cp := c.toNat % 32 * 64 + b1.toNat % 64
    if ¬continues b1 ∨ cp < 0x80 then none else some (cp, 2)
  else if c &&& 0xF0 = 0xE0 then
    let cp := c.toNat % 16 * 4096 + b1.toNat % 64 * 64 + b2.toNat % 64
    if ¬continues b1 ∨ ¬continues b2 ∨ cp < 0x800 ∨ (0xD800 ≤ cp ∧ cp ≤ 0xDFFF) then none
    else some (cp, 3)
  else if c &&& 0xF8 = 0xF0 then
    let cp := c.toNat % 8 * 262144 + b1.toNat % 64 * 4096 + b2.toNat % 64 * 64 + b3.toNat % 64
    if ¬continues b1 ∨ ¬continues b2 ∨ ¬continues b3 ∨ cp < 0x10000 ∨ 0x10FFFF < cp then none
    else some (cp, 4)
  else none

/-- The loop of `utf8_to_utf16`, with `n` units written. -/
def utf16From : ℕ → List UInt8 → ℕ → Option (List UInt16)
  | 0, _, _ => some []
  | fuel + 1, s, n =>
    if s.getD 0 0 = 0 then some []
    else
      match codePoint s with
      | none => none
      | some (cp, k) => putUtf16 cp n (utf16From fuel (s.drop k))

/-- `utf8_to_utf16`, on a string without its zero. -/
def utf8ToUtf16 (s : List UInt8) : Option (List UInt16) :=
  match utf16From s.length s 0 with
  | none => none
  | some l => if l.length = 0 then none else some l

/-! ### Looking a name up -/

/-- The loop of `scan_dir` for a name. -/
def scanFrom (fs : Volume) (d : Dir) (want : List UInt16) : ℕ → ℕ → Option DirEntry
  | 0, _ => none
  | fuel + 1, i =>
    if i < d.limit fs then
      match d.read i with
      | .error _ => none
      | .ok e =>
        if e 0 = entryEod then none
        else if ¬inUse e then scanFrom fs d want fuel (i + 1)
        else if e 0 ≠ entryFile then scanFrom fs d want fuel (i + 1)
        else
          match parseFileSet fs d.read i with
          | .error _ => none
          | .ok (de, consumed) =>
            if nameEq fs de.name16 want then some de else scanFrom fs d want fuel (i + consumed)
    else none

/-- `scan_dir` for a name. -/
def scanDir (fs : Volume) (d : Dir) (want : List UInt16) : Option DirEntry :=
  scanFrom fs d want (d.limit fs) 0

/-! ### Creating a file -/

/-- How the loop of `dir_find_free` ends. -/
inductive FreeScan
  | at (index : ℕ)
  | failed
  | exhausted

/-- The loop of `dir_find_free`; the last `run` entries are not in use, from `start` on. -/
def freeFrom (fs : Volume) (d : Dir) (need : ℕ) : ℕ → ℕ → ℕ → ℕ → FreeScan
  | 0, _, _, _ => .exhausted
  | fuel + 1, i, run, start =>
    if i < d.limit fs then
      match d.read i with
      | .error _ => .failed
      | .ok e =>
        if e 0 = entryEod ∨ ¬inUse e then
          let start := if run = 0 then i else start
          if need ≤ run + 1 then .at start
          else if e 0 = entryEod then .exhausted
          else freeFrom fs d need fuel (i + 1) (run + 1) start
        else freeFrom fs d need fuel (i + 1) 0 start
    else .exhausted

/-- The directory is extended by the entries of one cluster. -/
def Dir.extend (fs : Volume) (d : Dir) : Dir :=
  { d with slots := d.slots ++ List.replicate fs.perCluster zeroEntry, free := d.free - 1 }

/-- `dir_find_free`: where the entries go, and the directory afterwards. -/
def dirFindFree (fs : Volume) (d : Dir) (need : ℕ) : Option ℕ × Dir :=
  match freeFrom fs d need (d.limit fs) 0 0 0 with
  | .at index => (some index, d)
  | .failed => (none, d)
  | .exhausted =>
    if d.isRoot then (none, d)
    else if d.free = 0 then (none, d)
    else (some d.slots.length, d.extend fs)

/-- The loop of `write_new_set` that writes the entries. -/
def writeEntries (d : Dir) : ℕ → List Entry → Bool × Dir
  | _, [] => (true, d)
  | index, e :: set =>
    match d.write index e with
    | none => (false, d)
    | some d => writeEntries d (index + 1) set

def writeNewSet (fs : Volume) (d : Dir) (set : List Entry) : Bool × Dir :=
  match dirFindFree fs d set.length with
  | (none, d) => (false, d)
  | (some index, d) => writeEntries d index set

/-- `exfat_create`: the status and the directory afterwards; `file` says that the type is
`VFS_NODE_FILE`. -/
def exfatCreate (fs : Volume) (d : Dir) (name : List UInt8) (file : Bool) : Int × Dir :=
  if d.attr &&& attrDirectory = 0 ∨ d.readonly = true ∨ file = false then (-1, d)
  else
    match utf8ToUtf16 name with
    | none => (-1, d)
    | some name16 =>
      if validNewName name16 = false then (-1, d)
      else if (scanDir fs d name16).isSome then (-1, d)
      else
        match buildFileSet fs name16 attrArchive 0 0 0 0 with
        | none => (-1, d)
        | some set =>
          match writeNewSet fs d set with
          | (false, d) => (-1, d)
          | (true, d) => if (scanDir fs d name16).isSome then (0, d) else (-1, d)

end RHKernel.Exfat
