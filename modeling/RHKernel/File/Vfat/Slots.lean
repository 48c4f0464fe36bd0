import RHKernel.File.Vfat.Names
import RHKernel.Lib.LittleEndian

/-!
# Directory slots of vfat

A directory is a row of slots of 32 bytes. The first byte of a slot says whether it is in use,
deleted, or never used; behind a slot that was never used the scanner does not look. A file has one
slot with its short name, and before it the slots with its long name, the last part first, each with
the checksum of the short name. The scanner collects the parts (`lfn_take`) and gives the name to
the next short entry if they are complete (`lfn_emit`).

A position is the place of a slot in the volume, in units of slots.
-/

namespace RHKernel.Vfat

open Function List LittleEndian

/-- The bytes of a slot. -/
abbrev Slot : Type := ℕ → UInt8

def attrLabel : UInt8 := 0x08

def attrDir : UInt8 := 0x10

def attrArchive : UInt8 := 0x20

def attrLfn : UInt8 := 0x0F

def maxLfnSlots : ℕ := 20

/-- The slot is deleted or was never used. -/
def slotFree (e : Slot) : Prop := e 0 = 0 ∨ e 0 = 0xE5

instance (e : Slot) : Decidable (slotFree e) := inferInstanceAs (Decidable (_ ∨ _))

/-! ### Reading -/

structure LfnState where
  chars : ℕ → ℕ
  mask : ℕ
  firstAbs : ℕ
  checksum : UInt8
  total : ℕ
  active : Bool
  invalid : Bool

def lfnReset : LfnState := ⟨fun _ => 0, 0, 0, 0, 0, false, false⟩

/-- The state after a part that does not fit. -/
def lfnInvalid : LfnState := { lfnReset with invalid := true }

def shortChecksum (sfn : ℕ → UInt8) : UInt8 :=
  (List.range 11).foldl
    (fun sum i => (if sum &&& 1 = 0 then (0 : UInt8) else 0x80) + (sum >>> 1) + sfn i) 0

/-- Where a slot has the characters of its part. -/
def lfnOffset (i : ℕ) : ℕ := [1, 3, 5, 7, 9, 14, 16, 18, 20, 22, 24, 28, 30].getD i 0

def lfnCharAt (e : Slot) (i : ℕ) : ℕ := rd e (lfnOffset i) 2

/-- The number of a part. -/
def lfnOrd (e : Slot) : ℕ := (e 0 &&& 0x1F).toNat

/-- The characters of a part are stored and the part is marked. -/
def LfnState.put (st : LfnState) (e : Slot) : LfnState :=
  { st with
    chars := fun j =>
      if (lfnOrd e - 1) * 13 ≤ j ∧ j < (lfnOrd e - 1) * 13 + 13 ∧ j < maxLfnChars then
        lfnCharAt e (j - (lfnOrd e - 1) * 13)
      else st.chars j
    mask := st.mask ||| 1 <<< (lfnOrd e - 1) }

def lfnTake (st : LfnState) (e : Slot) (abs : ℕ) : LfnState :=
  if lfnOrd e = 0 ∨ maxLfnSlots < lfnOrd e ∨ e 12 ≠ 0 ∨ rd e 26 2 ≠ 0 then lfnInvalid
  else if e 0 &&& 0x40 ≠ 0 then
    LfnState.put
      { lfnReset with active := true, total := lfnOrd e, checksum := e 13, firstAbs := abs } e
  else if st.active = false ∨ st.checksum ≠ e 13 ∨ st.total ≤ lfnOrd e ∨
      abs ≠ st.firstAbs + (st.total - lfnOrd e) then lfnInvalid
  else st.put e

def lfnEmit (st : LfnState) (sfn : Slot) : Option (List UInt8) :=
  if st.active = false ∨ st.invalid = true ∨ st.checksum ≠ shortChecksum sfn then none
  else if st.total = 0 ∨ maxLfnSlots < st.total then none
  else if st.mask &&& (2 ^ st.total - 1) ≠ 2 ^ st.total - 1 then none
  else utf16ToUtf8 st.chars

def shortName (e : Slot) : List UInt8 :=
  let base := ((List.range 8).map e).takeWhile (· != 0x20)
  let ext :=
    if e 8 = 0x20 then [] else 0x2E :: ((List.range' 8 3).map e).takeWhile (· != 0x20)
  let out := (base ++ ext).takeWhile (· != 0)
  let out :=
    if e 12 &&& 0x08 ≠ 0 then
      (out.takeWhile (· != 0x2E)).map asciiToLower ++ out.dropWhile (· != 0x2E)
    else out
  if e 12 &&& 0x10 ≠ 0 then
    out.takeWhile (· != 0x2E) ++ (out.dropWhile (· != 0x2E)).map asciiToLower
  else out

/-- `vfat_dir_entry`; `longName` is what `lfn_emit` gave. -/
structure DirEnt where
  name : List UInt8
  longName : Option (List UInt8)
  attr : UInt8
  firstCluster : ℕ
  size : ℕ
  pos : ℕ
  lfnAbs : ℕ
  lfnSlots : ℕ
  deriving DecidableEq

def decodeEntry (e : Slot) (lfn : LfnState) (pos : ℕ) : DirEnt where
  name := (lfnEmit lfn e).getD (shortName e)
  longName := lfnEmit lfn e
  attr := e 11
  firstCluster := (rd e 20 2 * 2 ^ 16 + rd e 26 2) % 2 ^ 28
  size := rd e 28 4
  pos := pos
  lfnAbs := if lfn.active = true then lfn.firstAbs else pos
  lfnSlots := if lfn.active = true then lfn.total else 0

def entryUsable (e : Slot) : Prop :=
  ¬slotFree e ∧ e 11 ≠ attrLfn ∧ ¬(e 11 &&& attrLabel ≠ 0 ∧ e 11 &&& attrDir = 0)

instance (e : Slot) : Decidable (entryUsable e) := inferInstanceAs (Decidable (_ ∧ _))

/-- `scan_entries` for a name. -/
def scanEntries (slot : ℕ → Slot) (want : List UInt8) : List ℕ → LfnState → Option DirEnt
  | [], _ => none
  | p :: ps, lfn =>
    if slot p 0 = 0 then none
    else if slot p 0 = 0xE5 then scanEntries slot want ps lfnReset
    else if slot p 11 = attrLfn then scanEntries slot want ps (lfnTake lfn (slot p) p)
    else if ¬entryUsable (slot p) then scanEntries slot want ps lfnReset
    else
      let de := decodeEntry (slot p) lfn p
      if de.name = [] ∨ dotName de.name then scanEntries slot want ps lfnReset
      else if nameEq de.name want then some de
      else scanEntries slot want ps lfnReset

/-- `sfn_exists` over the slots of a directory. -/
def sfnExists (slot : ℕ → Slot) (ps : List ℕ) (sfn : List UInt8) : Bool :=
  (ps.takeWhile (slot · 0 != 0)).any fun p =>
    slot p 0 != 0xE5 && slot p 11 != attrLfn && (List.range 11).map (slot p) == sfn

/-! ### Writing -/

/-- The character `idx` of a long name in its slots: a zero behind the last one, and then ones. -/
def lfnUnit (units : List ℕ) (idx : ℕ) : ℕ :=
  if idx < units.length then units.getD idx 0 else if idx = units.length then 0 else 0xFFFF

def buildLfnSlot (ord total : ℕ) (sum : UInt8) (units : List ℕ) : Slot :=
  let e : Slot := fun _ => 0xFF
  let e := update e 0 (UInt8.ofNat (ord ||| if ord = total then 0x40 else 0))
  let e := update e 11 attrLfn
  let e := update e 12 0
  let e := update e 13 sum
  let e := wr e 26 2 0
  wrAll 2 e ((List.range 13).map fun i => (lfnOffset i, lfnUnit units ((ord - 1) * 13 + i)))

/-- The slot with the short name that `build_name_entries` makes. -/
def buildSfnSlot (sfn : List UInt8) (attr : UInt8) (firstCluster size : ℕ) : Slot :=
  let e : Slot := fun i => if i < 11 then sfn.getD i 0 else 0
  let e := update e 11 attr
  let e := wr e 20 2 (firstCluster / 2 ^ 16)
  let e := wr e 26 2 firstCluster
  wr e 28 4 size

/-- The number of slots that a long name of `chars` characters takes. -/
def lfnSlotsFor (chars : ℕ) : ℕ := (chars + 1 + 12) / 13

/-- The number of slots before the short entry. -/
def longSlots (units : Option (List ℕ)) : ℕ := units.elim 0 fun units => lfnSlotsFor units.length

/-- The slots for a name with the short form `sfn`; `units` is the long form, if there is one. -/
def nameEntries (sfn : List UInt8) (units : Option (List ℕ)) (attr : UInt8)
    (firstCluster size : ℕ) : List Slot :=
  let sum := shortChecksum fun i => sfn.getD i 0
  (List.range (longSlots units)).map (fun i =>
      buildLfnSlot (longSlots units - i) (longSlots units) sum (units.getD [])) ++
    [buildSfnSlot sfn attr firstCluster size]

def buildNameEntries (taken : List UInt8 → Bool) (name : List UInt8) (attr : UInt8)
    (firstCluster size : ℕ) : Option (List Slot) :=
  if ¬validName name then none
  else
    match makeSfn taken name with
    | none => none
    | some (sfn, false) => some (nameEntries sfn none attr firstCluster size)
    | some (sfn, true) =>
      match utf8ToUtf16Units name with
      | none => none
      | some units =>
        if lfnSlotsFor units.length = 0 ∨ maxLfnSlots < lfnSlotsFor units.length then none
        else some (nameEntries sfn (some units) attr firstCluster size)

section Entries

variable {slot slot' : ℕ → Slot} {ps qs : List ℕ} {lfn : LfnState} {de : DirEnt} {p : ℕ}

/-- The state behind a slot that is not the end. -/
def lfnStep (e : Slot) (lfn : LfnState) (p : ℕ) : LfnState :=
  if e 0 ≠ 0xE5 ∧ e 11 = attrLfn then lfnTake lfn e p else lfnReset

/-- The state behind slots among which the end is not. -/
def lfnAfter (slot : ℕ → Slot) (lfn : LfnState) (ps : List ℕ) : LfnState :=
  ps.foldl (fun lfn p => lfnStep (slot p) lfn p) lfn

/-- The scanner shows the entry in this slot. -/
def shown (e : Slot) (lfn : LfnState) (p : ℕ) : Prop :=
  entryUsable e ∧ (decodeEntry e lfn p).name ≠ [] ∧ ¬dotName (decodeEntry e lfn p).name

instance (e : Slot) (lfn : LfnState) (p : ℕ) : Decidable (shown e lfn p) :=
  inferInstanceAs (Decidable (_ ∧ _))

/-- The entries that the scanner shows, in their order. -/
def entries (slot : ℕ → Slot) : LfnState → List ℕ → List DirEnt
  | _, [] => []
  | lfn, p :: ps =>
    if slot p 0 = 0 then []
    else
      (if shown (slot p) lfn p then [decodeEntry (slot p) lfn p] else []) ++
        entries slot (lfnStep (slot p) lfn p) ps

/-- The entry has the name, up to the case of letters. -/
def named (want : List UInt8) (de : DirEnt) : Bool := decide (nameEq de.name want)

theorem named_iff {want : List UInt8} : named want de = true ↔ nameEq de.name want :=
  decide_eq_true_iff

/-- `scan_entries` finds the first entry with the name. -/
theorem scanEntries_eq (slot : ℕ → Slot) (want : List UInt8) (ps : List ℕ) (lfn : LfnState) :
    scanEntries slot want ps lfn = (entries slot lfn ps).find? (named want) := by
  induction ps generalizing lfn with
  | nil => rfl
  | cons p ps ih =>
    rw [scanEntries, entries]
    by_cases h0 : slot p 0 = 0
    · rw [if_pos h0, if_pos h0]
      rfl
    rw [if_neg h0, if_neg h0, find?_append]
    by_cases h5 : slot p 0 = 0xE5
    · rw [if_pos h5, if_neg fun hs : shown (slot p) lfn p => hs.1.1 (.inr h5), lfnStep,
        if_neg fun hl => hl.1 h5]
      exact ih _
    rw [if_neg h5]
    by_cases hl : slot p 11 = attrLfn
    · rw [if_pos hl, if_neg fun hs : shown (slot p) lfn p => hs.1.2.1 hl, lfnStep, if_pos ⟨h5, hl⟩]
      exact ih _
    rw [if_neg hl, lfnStep, if_neg fun h : slot p 0 ≠ 0xE5 ∧ slot p 11 = attrLfn => hl h.2]
    by_cases hu : entryUsable (slot p)
    · rw [if_neg (not_not.mpr hu)]
      by_cases hn : (decodeEntry (slot p) lfn p).name = [] ∨
          dotName (decodeEntry (slot p) lfn p).name
      · simp only [if_pos hn]
        rw [if_neg fun hs : shown (slot p) lfn p => hn.elim hs.2.1 hs.2.2]
        exact ih _
      simp only [if_neg hn]
      rw [if_pos (show shown (slot p) lfn p from ⟨hu, not_or.mp hn⟩)]
      split_ifs with hw
      · rw [find?_cons_of_pos (named_iff.mpr hw)]
        rfl
      · rw [find?_cons_of_neg fun h => hw (named_iff.mp h)]
        exact ih _
    · rw [if_pos hu, if_neg fun hs : shown (slot p) lfn p => hu hs.1]
      exact ih _

/-- What slots without an end among them show comes before what the slots behind them show. -/
theorem entries_append (h : ∀ p ∈ ps, slot p 0 ≠ 0) :
    entries slot lfn (ps ++ qs) =
      entries slot lfn ps ++ entries slot (lfnAfter slot lfn ps) qs := by
  induction ps generalizing lfn with
  | nil => rfl
  | cons p ps ih =>
    rw [cons_append, entries, entries, if_neg (h p mem_cons_self),
      if_neg (h p mem_cons_self), ih fun q hq => h q (mem_cons_of_mem _ hq),
      append_assoc]
    rfl

theorem lfnAfter_append (slot : ℕ → Slot) (lfn : LfnState) (ps qs : List ℕ) :
    lfnAfter slot lfn (ps ++ qs) = lfnAfter slot (lfnAfter slot lfn ps) qs :=
  foldl_append

theorem lfnAfter_congr (h : ∀ p ∈ ps, slot' p = slot p) :
    lfnAfter slot' lfn ps = lfnAfter slot lfn ps := by
  induction ps generalizing lfn with
  | nil => rfl
  | cons p ps ih =>
    rw [lfnAfter, foldl_cons, h p mem_cons_self]
    exact ih fun q hq => h q (mem_cons_of_mem _ hq)

theorem entries_congr (h : ∀ p ∈ ps, slot' p = slot p) :
    entries slot' lfn ps = entries slot lfn ps := by
  induction ps generalizing lfn with
  | nil => rfl
  | cons p ps ih =>
    rw [entries, entries, h p mem_cons_self, ih fun q hq => h q (mem_cons_of_mem _ hq)]

/-- Where an entry that the scanner shows comes from. -/
theorem mem_entries (h : de ∈ entries slot lfn ps) :
    ∃ qs rs, ps = qs ++ de.pos :: rs ∧ (∀ p ∈ qs, slot p 0 ≠ 0) ∧
      shown (slot de.pos) (lfnAfter slot lfn qs) de.pos ∧
      de = decodeEntry (slot de.pos) (lfnAfter slot lfn qs) de.pos := by
  induction ps generalizing lfn with
  | nil => exact absurd h not_mem_nil
  | cons p ps ih =>
    rw [entries] at h
    split_ifs at h with h0 hs
    · exact absurd h not_mem_nil
    · obtain rfl | h := mem_cons.mp h
      · exact ⟨[], ps, rfl, nofun, hs, rfl⟩
      · obtain ⟨qs, rs, rfl, hqs, h1, h2⟩ := ih h
        exact ⟨p :: qs, rs, rfl, forall_mem_cons.mpr ⟨h0, hqs⟩, h1, h2⟩
    · obtain ⟨qs, rs, rfl, hqs, h1, h2⟩ := ih h
      exact ⟨p :: qs, rs, rfl, forall_mem_cons.mpr ⟨h0, hqs⟩, h1, h2⟩

/-- Free slots show nothing; behind them the scanner starts anew, unless the end is among them. -/
theorem entries_free (hps : ps ≠ []) (h : ∀ p ∈ ps, slotFree (slot p)) :
    entries slot lfn (ps ++ qs) = [] ∨ entries slot lfn (ps ++ qs) = entries slot lfnReset qs := by
  induction ps generalizing lfn with
  | nil => exact absurd rfl hps
  | cons p ps ih =>
    by_cases h0 : slot p 0 = 0
    · exact .inl (if_pos h0)
    have h5 : slot p 0 = 0xE5 := (h p mem_cons_self).resolve_left h0
    have hskip : entries slot lfn (p :: ps ++ qs) = entries slot lfnReset (ps ++ qs) := by
      rw [cons_append, entries, if_neg h0,
        if_neg fun hs : shown (slot p) lfn p => hs.1.1 (.inr h5), lfnStep, if_neg fun hl => hl.1 h5]
      rfl
    rw [hskip]
    cases ps with
    | nil => exact .inr rfl
    | cons q ps => exact ih (cons_ne_nil _ _) fun x hx => h x (mem_cons_of_mem _ hx)

end Entries

end RHKernel.Vfat
