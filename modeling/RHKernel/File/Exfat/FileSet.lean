import RHKernel.Lib.LittleEndian

/-!
# File sets of exFAT directories

A file is described by a set of directory entries of 32 bytes: the file entry, with the number of
the entries that follow and a checksum of the set, the stream entry, with the length and the hash of
the name, and entries with 15 units of the name each. `build_file_set` writes such a set and
`parse_file_set` reads and checks one.

The entries of the directory come from `read`, which is `dir_read_entry` on it: an entry, or the
number it returns when there is none. An error is the number that `parse_file_set` returns.
-/

namespace RHKernel.Exfat

open LittleEndian

def maxNameUnits : ℕ := 255

def maxNameUtf8 : ℕ := 1024

def maxSecondaries : ℕ := 18

def maxSetEntries : ℕ := maxSecondaries + 1

def clusterFirst : ℕ := 2

def entrySize : ℕ := 32

def entryEod : UInt8 := 0x00

def entryFile : UInt8 := 0x85

def entryStream : UInt8 := 0xC0

def entryName : UInt8 := 0xC1

def attrDirectory : UInt16 := 0x0010

/-- The read-only, hidden, system, directory and archive bits. -/
def attrKnown : UInt16 := 0x0001 ||| 0x0002 ||| 0x0004 ||| attrDirectory ||| 0x0020

def streamNoFatChain : UInt8 := 0x02

/-- The bytes of a directory entry. -/
abbrev Entry : Type := ℕ → UInt8

def rd16 (p : Entry) (o : ℕ) : UInt16 := .ofNat (rd p o 2)

def rd32 (p : Entry) (o : ℕ) : UInt32 := .ofNat (rd p o 4)

def rd64 (p : Entry) (o : ℕ) : UInt64 := .ofNat (rd p o 8)

def wr16 (p : Entry) (o : ℕ) (v : UInt16) : Entry := wr p o 2 v.toNat

def wr32 (p : Entry) (o : ℕ) (v : UInt32) : Entry := wr p o 4 v.toNat

def wr64 (p : Entry) (o : ℕ) (v : UInt64) : Entry := wr p o 8 v.toNat

/-- The fields of `exfat_fs` that say where the clusters are, and the table of upper-case units. -/
structure Volume where
  clusterCount : ℕ
  clusterSize : ℕ
  sectorsPerCluster : ℕ
  sectorSize : ℕ
  clusterHeapOffset : ℕ
  imageBytes : ℕ
  upcase : Option (UInt16 → UInt16)

def clusterValid (fs : Volume) (c : ℕ) : Prop :=
  clusterFirst ≤ c ∧ c < (fs.clusterCount + clusterFirst) % 2 ^ 32

instance (fs : Volume) (c : ℕ) : Decidable (clusterValid fs c) :=
  inferInstanceAs (Decidable (_ ∧ _))

def clusterOff (fs : Volume) (cluster : ℕ) : ℕ :=
  (fs.clusterHeapOffset + (cluster - clusterFirst) * fs.sectorsPerCluster) * fs.sectorSize % 2 ^ 64

def streamLayoutValid (fs : Volume) (first : UInt32) (dataLength : UInt64) (flags : UInt8) : Bool :=
  if dataLength = 0 then first = 0
  else if ¬clusterValid fs first.toNat then false
  else
    let clusters := (dataLength.toNat + fs.clusterSize - 1) % 2 ^ 64 / fs.clusterSize
    if clusters = 0 ∨ fs.clusterCount < clusters then false
    else if flags &&& streamNoFatChain ≠ 0 then
      first.toNat + clusters ≤ fs.clusterCount + clusterFirst ∧
        clusterOff fs first.toNat + dataLength.toNat < 2 ^ 64 ∧
        clusterOff fs first.toNat + dataLength.toNat ≤ fs.imageBytes
    else true

/-! ### Names -/

def upcaseUnit (fs : Volume) (c : UInt16) : UInt16 := fs.upcase.elim c (· c)

def validNewName (name : List UInt16) : Bool :=
  name.length ≠ 0 ∧ name.length ≤ maxNameUnits ∧
    name.all fun u => ¬(u < 0x20 ∨ u = 0x2F ∨ u = 0x5C)

/-- The bytes that `utf16_to_utf8` writes for a code point. -/
def utf8Bytes (cp : ℕ) : Option (List UInt8) :=
  if cp < 0x80 then some [.ofNat cp]
  else if cp < 0x800 then some [.ofNat (0xC0 + cp / 64), .ofNat (0x80 + cp % 64)]
  else if cp < 0x10000 then
    some [.ofNat (0xE0 + cp / 4096), .ofNat (0x80 + cp / 64 % 64), .ofNat (0x80 + cp % 64)]
  else if cp ≤ 0x10FFFF then
    some [.ofNat (0xF0 + cp / 262144), .ofNat (0x80 + cp / 4096 % 64),
      .ofNat (0x80 + cp / 64 % 64), .ofNat (0x80 + cp % 64)]
  else none

/-- A code point is written at the position `o` of the output, if it leaves room for the zero. -/
def putUtf8 (cp o : ℕ) (next : ℕ → Option (List UInt8)) : Option (List UInt8) :=
  match utf8Bytes cp with
  | none => none
  | some bytes =>
    if maxNameUtf8 ≤ o + bytes.length then none
    else (next (o + bytes.length)).map (bytes ++ ·)

/-- A unit that opens a surrogate pair. -/
def highSurrogate (u : UInt16) : Prop := 0xD800 ≤ u ∧ u ≤ 0xDBFF

instance (u : UInt16) : Decidable (highSurrogate u) := inferInstanceAs (Decidable (_ ∧ _))

/-- A unit that closes a surrogate pair. -/
def lowSurrogate (u : UInt16) : Prop := 0xDC00 ≤ u ∧ u ≤ 0xDFFF

instance (u : UInt16) : Decidable (lowSurrogate u) := inferInstanceAs (Decidable (_ ∧ _))

/-- `utf16_to_utf8`, from the position `o` of the output on; the output ends with a zero. -/
def utf16ToUtf8 : List UInt16 → ℕ → Option (List UInt8)
  | [], _ => some [0]
  | [u], o =>
    if highSurrogate u ∨ lowSurrogate u then none else putUtf8 u.toNat o (utf16ToUtf8 [])
  | u :: v :: rest, o =>
    if highSurrogate u then
      if ¬lowSurrogate v then none
      else putUtf8 (0x10000 + (u.toNat - 0xD800) * 1024 + (v.toNat - 0xDC00)) o (utf16ToUtf8 rest)
    else if lowSurrogate u then none
    else putUtf8 u.toNat o (utf16ToUtf8 (v :: rest))

/-! ### Checksums -/

def checksum16Byte (c : UInt16) (b : UInt8) : UInt16 :=
  (if c &&& 1 ≠ 0 then (0x8000 : UInt16) else 0) + (c >>> 1) + b.toUInt16

def nameHash (fs : Volume) (name : List UInt16) : UInt16 :=
  name.foldl
    (fun h u =>
      let c := upcaseUnit fs u
      checksum16Byte (checksum16Byte h c.toUInt8) (c >>> 8).toUInt8)
    0

/-- The inner loop of `file_set_checksum`, over entry `e` of the set. -/
def entryChecksum (e : ℕ) (entry : Entry) (c : UInt16) : UInt16 :=
  (List.range entrySize).foldl
    (fun c i => if e = 0 ∧ (i = 2 ∨ i = 3) then c else checksum16Byte c (entry i)) c

def fileSetChecksum (set : List Entry) : UInt16 :=
  set.zipIdx.foldl (fun c x => entryChecksum x.2 x.1 c) 0

/-! ### Writing a set -/

def zeroEntry : Entry := fun _ => 0

def setByte (p : Entry) (o : ℕ) (v : UInt8) : Entry := Function.update p o v

/-- The file entry of `build_file_set`, without the checksum. -/
def fileEntry (total : ℕ) (attr : UInt16) : Entry :=
  wr16 (setByte (setByte zeroEntry 0 entryFile) 1 (.ofNat (total - 1))) 4 attr

/-- The stream entry of `build_file_set`. -/
def streamEntry (fs : Volume) (name : List UInt16) (flags : UInt8) (first : UInt32)
    (valid data : UInt64) : Entry :=
  let p := setByte (setByte (setByte zeroEntry 0 entryStream) 1 flags) 3 (.ofNat name.length)
  let p := wr16 p 4 (nameHash fs name)
  let p := wr64 p 8 valid
  let p := wr32 p 20 first
  wr64 p 24 data

/-- The name entry `e` of `build_file_set`; the units behind the name are zero. -/
def nameEntry (name : List UInt16) (e : ℕ) : Entry :=
  (List.range 15).foldl (fun p j => wr16 p (2 + j * 2) (name.getD (15 * e + j) 0))
    (setByte zeroEntry 0 entryName)

def buildFileSet (fs : Volume) (name : List UInt16) (attr : UInt16) (flags : UInt8) (first : UInt32)
    (valid data : UInt64) : Option (List Entry) :=
  if validNewName name = false then none
  else
    let names := (name.length + 14) / 15
    let total := 2 + names
    if maxSetEntries < total then none
    else
      let file := fileEntry total attr
      let rest := streamEntry fs name flags first valid data ::
        (List.range names).map (nameEntry name)
      some (wr16 file 2 (fileSetChecksum (file :: rest)) :: rest)

/-! ### Reading a set -/

structure DirEntry where
  name : List UInt8
  name16 : List UInt16
  attr : UInt16
  flags : UInt8
  firstCluster : UInt32
  dataLength : UInt64
  validLength : UInt64
  dirIndex : ℕ
  secondaryCount : ℕ

/-- The loop of `parse_file_set` that reads the secondary entries. -/
def readSecondaries (read : ℕ → Except Int Entry) (index count : ℕ) : Except Int (List Entry) :=
  (List.range count).mapM fun i =>
    match read (index + (i + 1)) with
    | .error _ => .error (-1)
    | .ok e => if e 0 &&& 0x80 = 0 then .error (-1) else .ok e

/-- What `parse_file_set` has found among the secondary entries. -/
structure Found where
  stream : Option Entry
  nameEntries : ℕ
  name16 : List UInt16

/-- A secondary entry is looked at. -/
def Found.next (x : Found) (e : Entry) : Except Int Found :=
  if e 0 = entryStream then
    if x.stream.isSome then .error (-1) else .ok { x with stream := some e }
  else if e 0 = entryName then
    .ok { x with
      nameEntries := x.nameEntries + 1
      name16 := x.name16 ++
        ((List.range 15).map fun j => rd16 e (2 + j * 2)).take (maxNameUnits - x.name16.length) }
  else .ok x

/-- The checks of `parse_file_set` on the file entry, the stream entry and the name. -/
def checkSet (fs : Volume) (index secondaryCount : ℕ) (file : Entry) (x : Found) :
    Except Int DirEntry :=
  match x.stream with
  | none => .error (-1)
  | some stream =>
    let nameLen := (stream 3).toNat
    if nameLen = 0 ∨ maxNameUnits < nameLen ∨ x.nameEntries ≠ (nameLen + 14) / 15 then .error (-1)
    else if x.name16.length < nameLen then .error (-1)
    else
      let attr := rd16 file 4
      let flags := stream 1
      let valid := rd64 stream 8
      let first := rd32 stream 20
      let data := rd64 stream 24
      let name16 := x.name16.take nameLen
      if data < valid then .error (-1)
      else if attr &&& ~~~attrKnown ≠ 0 then .error (-1)
      else if streamLayoutValid fs first data flags = false then .error (-1)
      else if attr &&& attrDirectory ≠ 0 ∧ (valid ≠ data ∨ data &&& 31 ≠ 0) then .error (-1)
      else if nameHash fs name16 ≠ rd16 stream 4 then .error (-1)
      else
        match utf16ToUtf8 name16 0 with
        | none => .error (-1)
        | some name => .ok ⟨name, name16, attr, flags, first, data, valid, index, secondaryCount⟩

/-- `parse_file_set`: the file and the number of entries of its set. -/
def parseFileSet (fs : Volume) (read : ℕ → Except Int Entry) (index : ℕ) :
    Except Int (DirEntry × ℕ) := do
  let file ← read index
  if file 0 = entryEod then .error 1
  else if file 0 ≠ entryFile then .error (-2)
  else
    let secondaryCount := (file 1).toNat
    if secondaryCount < 2 ∨ maxSecondaries < secondaryCount then .error (-1)
    else
      let rest ← readSecondaries read index secondaryCount
      if fileSetChecksum (file :: rest) ≠ rd16 file 2 then .error (-1)
      else
        let x ← rest.foldlM Found.next ⟨none, 0, []⟩
        let de ← checkSet fs index secondaryCount file x
        .ok (de, secondaryCount + 1)

end RHKernel.Exfat
