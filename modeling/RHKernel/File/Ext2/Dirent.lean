import RHKernel.Lib.LittleEndian

/-!
# Directories of ext2

A directory is a file whose blocks are divided into records: an inode number, the length of the
record, the length of the name, a type, and the name. A record may be longer than its name needs; a
new name is put into such slack, and a name that is removed leaves its record to the one before.

A directory is given by its size and by what its file blocks hold: `block` is `ext2_bmap` followed
by `ext2_read_block`, and is `none` where no block is mapped. What a call meets on the way is in
`Env`: whether the look-up of `ext2_dir_add_entry` gets its buffer and its blocks, whether the call
itself gets its buffer, whether `ext2_get_or_alloc_block` finds a block, and whether the final
`ext2_write_block` succeeds. `ext2_save_node`, which only concerns the inode on disk, is left out.
-/

namespace RHKernel.Ext2

open LittleEndian Function

/-- `EXT2_NAME_LEN`. -/
def nameLenMax : ℕ := 255

/-- The numbers of a mounted file system that its directories depend on; `ext2_mount` accepts these
three block sizes. -/
structure Geometry where
  blockSize : ℕ
  inodesCount : ℕ
  blockSize_mem : blockSize = 1024 ∨ blockSize = 2048 ∨ blockSize = 4096

/-- The bytes of a block. -/
abbrev Block : Type := ℕ → UInt8

/-- A directory entry. -/
structure Rec where
  ino : ℕ
  recLen : ℕ
  fileType : UInt8
  name : List UInt8
  deriving DecidableEq

/-- The entry at the offset `o` of a block. -/
def recAt (b : Block) (o : ℕ) : Rec where
  ino := rd b o 4
  recLen := rd b (o + 4) 2
  fileType := b (o + 7)
  name := (List.range (b (o + 6)).toNat).map fun i => b (o + 8 + i)

def recLenFor (nameLen : ℕ) : ℕ := (8 + nameLen + 3) / 4 * 4

/-- `ext2_dir_file_type_valid`: zero, `EXT2_FT_REG_FILE` or `EXT2_FT_DIR`. -/
def fileTypeValid (type : UInt8) : Prop := type = 0 ∨ type = 1 ∨ type = 2

instance (type : UInt8) : Decidable (fileTypeValid type) := inferInstanceAs (Decidable (_ ∨ _))

/-- `ext2_validate_dirent`, on an entry at the offset `boff` of its block. -/
def Rec.Valid (g : Geometry) (r : Rec) (boff : ℕ) : Prop :=
  ¬(r.recLen < 8 ∨ r.recLen % 4 ≠ 0 ∨ g.blockSize < boff + r.recLen) ∧
    ¬r.recLen - 8 < r.name.length ∧ ¬g.inodesCount < r.ino ∧ fileTypeValid r.fileType ∧
    ¬(r.ino = 0 ∧ r.name.length ≠ 0)

instance (g : Geometry) (r : Rec) (boff : ℕ) : Decidable (r.Valid g boff) :=
  inferInstanceAs (Decidable (_ ∧ _))

/-- The entry is in use and has this name. -/
def Rec.Is (r : Rec) (name : List UInt8) : Prop := r.ino ≠ 0 ∧ r.name.length ≠ 0 ∧ r.name = name

instance (r : Rec) (name : List UInt8) : Decidable (r.Is name) :=
  inferInstanceAs (Decidable (_ ∧ _))

/-- The bytes of an entry, as `ext2_dir_add_entry` writes them. -/
def putRec (b : Block) (o : ℕ) (r : Rec) : Block := fun j =>
  let b := wr b o 4 r.ino
  let b := wr b (o + 4) 2 r.recLen
  let b := wr b (o + 6) 1 r.name.length
  let b := wr b (o + 7) 1 r.fileType.toNat
  if o + 8 ≤ j ∧ j < o + 8 + r.name.length then r.name.getD (j - (o + 8)) 0 else b j

/-- A directory: its size and what its blocks hold. -/
structure Dir where
  size : ℕ
  block : ℕ → Option Block

/-- What a call meets on the way. -/
structure Env where
  lookup : Bool
  buffer : Bool
  alloc : Bool
  write : Bool

/-! ### Looking a name up -/

/-- How the scan of a block for a name ends. -/
inductive Scan
  | found (boff : ℕ) (r : Rec)
  | bad
  | absent

/-- The inner loop of `ext2_dir_find_entry_len`; `left` bytes of the directory are in this block and
behind it. -/
def findIn (g : Geometry) (b : Block) (left : ℕ) (name : List UInt8) : ℕ → ℕ → Scan
  | 0, _ => .absent
  | fuel + 1, boff =>
    if boff + 8 ≤ g.blockSize ∧ boff < left then
      let r := recAt b boff
      if ¬r.Valid g boff then .bad
      else if r.Is name then .found boff r
      else findIn g b left name fuel (boff + r.recLen)
    else .absent

/-- An entry that was found, and where: `ino_out`, `off_out`, and so on. -/
structure Hit where
  fb : ℕ
  boff : ℕ
  entry : Rec

/-- The outer loop of `ext2_dir_find_entry_len`, from the file block `fb` on. -/
def findFrom (g : Geometry) (d : Dir) (name : List UInt8) : ℕ → ℕ → Option Hit
  | 0, _ => none
  | fuel + 1, fb =>
    if fb * g.blockSize < d.size then
      match d.block fb with
      | none => none
      | some b =>
        match findIn g b (d.size - fb * g.blockSize) name g.blockSize 0 with
        | .found boff r => some ⟨fb, boff, r⟩
        | .bad => none
        | .absent => findFrom g d name fuel (fb + 1)
    else none

def nameLenChecked (name : List UInt8) : Prop := name.length ≠ 0 ∧ name.length ≤ nameLenMax

instance (name : List UInt8) : Decidable (nameLenChecked name) :=
  inferInstanceAs (Decidable (_ ∧ _))

/-- `ext2_dir_find_entry`. The blocks are longer than one byte, so that there are fewer than
`size`. -/
def dirFindEntry (g : Geometry) (d : Dir) (name : List UInt8) : Option Hit :=
  if nameLenChecked name then findFrom g d name d.size 0 else none

/-! ### Adding a name -/

/-- The inner loop of `ext2_dir_add_entry`: the block with the new entry in it. -/
def placeIn (g : Geometry) (b : Block) (name : List UInt8) (ino : ℕ) (fileType : UInt8) :
    ℕ → ℕ → Option Block
  | 0, _ => none
  | fuel + 1, boff =>
    if boff + 8 ≤ g.blockSize then
      let r := recAt b boff
      let need := recLenFor name.length
      let ideal := recLenFor r.name.length
      if ¬r.Valid g boff then none
      else if r.ino = 0 ∧ need ≤ r.recLen then some (putRec b boff ⟨ino, r.recLen, fileType, name⟩)
      else if r.ino ≠ 0 ∧ ideal + need ≤ r.recLen then
        some (putRec (wr b (boff + 4) 2 ideal) (boff + ideal)
          ⟨ino, r.recLen - ideal, fileType, name⟩)
      else placeIn g b name ino fileType fuel (boff + r.recLen)
    else none

/-- A new block with one entry in it. -/
def newBlock (g : Geometry) (name : List UInt8) (ino : ℕ) (fileType : UInt8) : Block :=
  putRec (fun _ => 0) 0 ⟨ino, g.blockSize, fileType, name⟩

/-- The outer loop of `ext2_dir_add_entry`: the status and the directory afterwards. -/
def addFrom (g : Geometry) (env : Env) (d : Dir) (name : List UInt8) (ino : ℕ) (fileType : UInt8) :
    ℕ → ℕ → Bool × Dir
  | 0, _ => (false, d)
  | fuel + 1, fb =>
    match d.block fb with
    | none =>
      if env.alloc = false then (false, d)
      else if env.write = false then
        (false, { d with block := update d.block fb (some fun _ => 0) })
      else
        (true,
          { size := if d.size < (fb + 1) * g.blockSize then (fb + 1) * g.blockSize else d.size
            block := update d.block fb (some (newBlock g name ino fileType)) })
    | some b =>
      match placeIn g b name ino fileType g.blockSize 0 with
      | some b' =>
        if env.write = false then (false, d)
        else (true, { d with block := update d.block fb (some b') })
      | none => addFrom g env d name ino fileType fuel (fb + 1)

/-- The number of file blocks below the size. -/
def Dir.blocks (g : Geometry) (d : Dir) : ℕ := (d.size + g.blockSize - 1) / g.blockSize

def dirAddEntry (g : Geometry) (env : Env) (d : Dir) (name : List UInt8) (ino : ℕ)
    (fileType : UInt8) : Bool × Dir :=
  if ino = 0 ∨ ¬nameLenChecked name then (false, d)
  else if env.lookup ∧ (dirFindEntry g d name).isSome then (false, d)
  else if env.buffer = false then (false, d)
  else addFrom g env d name ino fileType (d.blocks g + 1) 0

/-! ### Removing a name -/

/-- The inner loop of `ext2_dir_remove_entry`; `prev` is the offset of the entry before. -/
def cutIn (g : Geometry) (b : Block) (name : List UInt8) : ℕ → ℕ → Option ℕ → Option Block
  | 0, _, _ => none
  | fuel + 1, boff, prev =>
    if boff + 8 ≤ g.blockSize then
      let r := recAt b boff
      if ¬r.Valid g boff then none
      else if r.Is name then
        match prev with
        | some p => some (wr b (p + 4) 2 ((recAt b p).recLen + r.recLen))
        | none => some (wr b boff 4 0)
      else cutIn g b name fuel (boff + r.recLen) (some boff)
    else none

/-- The outer loop of `ext2_dir_remove_entry`. -/
def removeFrom (g : Geometry) (env : Env) (d : Dir) (name : List UInt8) : ℕ → ℕ → Bool × Dir
  | 0, _ => (false, d)
  | fuel + 1, fb =>
    if fb * g.blockSize < d.size then
      match d.block fb with
      | none => (false, d)
      | some b =>
        match cutIn g b name g.blockSize 0 none with
        | some b' =>
          if env.write = false then (false, d)
          else (true, { d with block := update d.block fb (some b') })
        | none => removeFrom g env d name fuel (fb + 1)
    else (false, d)

def dirRemoveEntry (g : Geometry) (env : Env) (d : Dir) (name : List UInt8) : Bool × Dir :=
  if ¬nameLenChecked name then (false, d)
  else if env.buffer = false then (false, d)
  else removeFrom g env d name d.size 0

end RHKernel.Ext2
