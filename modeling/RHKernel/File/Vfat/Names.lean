import Mathlib.Algebra.Order.Group.Nat
import Mathlib.Data.List.TakeWhile
import Mathlib.Data.Nat.Bitwise

/-!
# Names of vfat

A file has a short name of eleven characters, eight and three, and a long name unless the short one
says it all. The short name is the name itself where it has the form of one (`make_exact_sfn`) and
is not taken; otherwise it is cut out of the name and gets a number (`make_sfn`). The long name is
stored in units of sixteen bits, one for each character: characters that need more are not accepted
(`utf8_to_utf16_units`).

Names are lists of bytes, without the zero at their end, and units are numbers.
-/

namespace RHKernel.Vfat

open List Option

def asciiToLower (c : UInt8) : UInt8 := if 0x41 ≤ c ∧ c ≤ 0x5A then c + 0x20 else c

def asciiToUpper (c : UInt8) : UInt8 := if 0x61 ≤ c ∧ c ≤ 0x7A then c - 0x20 else c

/-- `name_eq`: names that differ in the case of letters are the same. -/
def nameEq (a b : List UInt8) : Prop := a.map asciiToLower = b.map asciiToLower

instance (a b : List UInt8) : Decidable (nameEq a b) := inferInstanceAs (Decidable (_ = _))

def maxLfnChars : ℕ := 255

def invalidLfnChar (c : UInt8) : Bool :=
  decide (c < 0x20) || [0x22, 0x2A, 0x2F, 0x3A, 0x3C, 0x3E, 0x3F, 0x5C, 0x7C].contains c

def dotName (s : List UInt8) : Prop := s = [0x2E] ∨ s = [0x2E, 0x2E]

instance (s : List UInt8) : Decidable (dotName s) := inferInstanceAs (Decidable (_ ∨ _))

def validName (name : List UInt8) : Prop :=
  name.length ≠ 0 ∧ name.length ≤ maxLfnChars ∧ ¬dotName name ∧
    name.getD (name.length - 1) 0 ≠ 0x20 ∧ name.getD (name.length - 1) 0 ≠ 0x2E ∧
    name.all (!invalidLfnChar ·) = true

instance (name : List UInt8) : Decidable (validName name) := inferInstanceAs (Decidable (_ ∧ _))

/-! ### Short names -/

/-- `last_dot`: the number of characters before the last dot. -/
def lastDot (name : List UInt8) : Option ℕ :=
  (List.range name.length).reverse.find? fun i => name.getD i 0 == 0x2E

/-- What stands before the last dot. -/
def baseOf (name : List UInt8) : List UInt8 :=
  match lastDot name with
  | some i => name.take i
  | none => name

/-- What stands behind the last dot. -/
def extOf (name : List UInt8) : List UInt8 :=
  match lastDot name with
  | some i => name.drop (i + 1)
  | none => []

def sfnValidChar (c : UInt8) : Bool :=
  !(decide (c ≤ 0x20) || c == 0x7F) &&
    !([0x22, 0x2A, 0x2B, 0x2C, 0x2E, 0x2F, 0x3A, 0x3B, 0x3C, 0x3D, 0x3E, 0x3F, 0x5B, 0x5C, 0x5D,
      0x7C].contains c)

/-- A part of a short name, filled up with blanks. -/
def padded (n : ℕ) (part : List UInt8) : List UInt8 := part ++ List.replicate (n - part.length) 0x20

/-- A character that `make_exact_sfn` takes. -/
def exactChar (c : UInt8) : Bool := !decide (0x61 ≤ c ∧ c ≤ 0x7A) && sfnValidChar c

def makeExactSfn (name : List UInt8) : Option (List UInt8) :=
  if (baseOf name).length = 0 ∨ 8 < (baseOf name).length ∨ 3 < (extOf name).length then none
  else if (baseOf name).all exactChar && (extOf name).all exactChar then
    some (padded 8 (baseOf name) ++ padded 3 (extOf name))
  else none

/-- A character as `sanitize_part` stores it. -/
def sanitizeChar (c : UInt8) : UInt8 :=
  let c := asciiToUpper c
  let c := if c = 0x20 then 0x5F else c
  if sfnValidChar c then c else 0x5F

def sanitizePart (s : List UInt8) (n : ℕ) : List UInt8 := padded n ((s.take n).map sanitizeChar)

/-- The digits of a number, the last one first. -/
def revDigits : ℕ → ℕ → List UInt8
  | 0, _ => []
  | fuel + 1, t =>
    UInt8.ofNat (0x30 + t % 10) :: if t / 10 = 0 then [] else revDigits fuel (t / 10)

/-- The short name with the number `n`, if it fits. -/
def numberedSfn (name : List UInt8) (n : ℕ) : Option (List UInt8) :=
  let digits := (revDigits 8 n).reverse
  if 6 < digits.length + 1 then none
  else
    some ((sanitizePart (baseOf name) 6).take (min 6 (8 - (digits.length + 1))) ++
      0x7E :: digits ++ sanitizePart (extOf name) 3)

/-- `make_sfn`: the short name and whether a long one is needed; `taken` is `sfn_exists`. -/
def makeSfn (taken : List UInt8 → Bool) (name : List UInt8) : Option (List UInt8 × Bool) :=
  match (makeExactSfn name).filter (!taken ·) with
  | some sfn => some (sfn, false)
  | none =>
    ((List.range' 1 999999).findSome? fun n => (numberedSfn name n).filter (!taken ·)).map (·, true)

/-! ### Long names -/

/-- The character at the start of a string and its length, as `utf8_to_utf16_units` reads it. A
sequence that the end of the string cuts off is rejected: the zero there continues nothing. -/
def unitAt (s : List UInt8) : Option (ℕ × ℕ) :=
  let c := s.getD 0 0
  let c2 := s.getD 1 0
  let c3 := s.getD 2 0
  if c < 0x80 then some (c.toNat, 1)
  else if c &&& 0xE0 = 0xC0 then
    let cp := c.toNat % 32 * 64 + c2.toNat % 64
    if c2 &&& 0xC0 ≠ 0x80 ∨ cp < 0x80 then none else some (cp, 2)
  else if c &&& 0xF0 = 0xE0 then
    let cp := c.toNat % 16 * 4096 + c2.toNat % 64 * 64 + c3.toNat % 64
    if c2 &&& 0xC0 ≠ 0x80 ∨ c3 &&& 0xC0 ≠ 0x80 ∨ cp < 0x800 ∨ (0xD800 ≤ cp ∧ cp ≤ 0xDFFF) then none
    else some (cp, 3)
  else none

/-- The loop of `utf8_to_utf16_units`, with `n` units written. -/
def unitsFrom : ℕ → List UInt8 → ℕ → Option (List ℕ)
  | 0, _, _ => some []
  | fuel + 1, s, n =>
    if s.getD 0 0 = 0 then some []
    else
      match unitAt s with
      | none => none
      | some (cp, k) =>
        if 0xFFFF < cp ∨ maxLfnChars ≤ n then none
        else (unitsFrom fuel (s.drop k) (n + 1)).map (cp :: ·)

def utf8ToUtf16Units (name : List UInt8) : Option (List ℕ) :=
  (unitsFrom name.length name 0).filter (·.length ≠ 0)

/-- The bytes of a unit. -/
def utf8Of (c : ℕ) : List UInt8 :=
  if c < 0x80 then [.ofNat c]
  else if c < 0x800 then [.ofNat (0xC0 + c / 64), .ofNat (0x80 + c % 64)]
  else [.ofNat (0xE0 + c / 4096), .ofNat (0x80 + c / 64 % 64), .ofNat (0x80 + c % 64)]

/-- The loop of `utf16_to_utf8`, with `o` bytes written. -/
def utf8From (chars : ℕ → ℕ) : ℕ → ℕ → ℕ → Option (List UInt8)
  | 0, _, _ => some []
  | fuel + 1, i, o =>
    let c := chars i
    if c = 0 ∨ c = 0xFFFF then some []
    else if 0xD800 ≤ c ∧ c ≤ 0xDFFF then none
    else if 256 ≤ o + (utf8Of c).length then none
    else (utf8From chars fuel (i + 1) (o + (utf8Of c).length)).map (utf8Of c ++ ·)

def utf16ToUtf8 (chars : ℕ → ℕ) : Option (List UInt8) :=
  (utf8From chars maxLfnChars 0 0).filter (·.length ≠ 0)

section Parts

variable {name part sfn : List UInt8} {i n : ℕ}

theorem lastDot_some (h : lastDot name = some i) : i < name.length ∧ name.getD i 0 = 0x2E := by
  have hmem := mem_of_find?_eq_some h
  rw [mem_reverse, List.mem_range] at hmem
  have hdot := find?_some h
  exact ⟨hmem, beq_iff_eq.mp hdot⟩

theorem name_parts (name : List UInt8) : (name = baseOf name ∧ extOf name = []) ∨
    name = baseOf name ++ 0x2E :: extOf name := by
  unfold baseOf extOf
  cases h : lastDot name with
  | none => exact .inl ⟨rfl, rfl⟩
  | some i =>
    refine .inr ?_
    obtain ⟨hlt, hdot⟩ := lastDot_some h
    rw [getD_eq_getElem _ _ hlt] at hdot
    rw [← hdot, ← drop_eq_getElem_cons hlt, take_append_drop]

theorem validName.ge (h : validName name) {c : UInt8} (hc : c ∈ name) : 0x20 ≤ c := by
  have hall := all_eq_true.mp h.2.2.2.2.2 c hc
  rw [Bool.not_eq_true', invalidLfnChar, Bool.or_eq_false_iff, decide_eq_false_iff_not] at hall
  exact UInt8.not_lt.mp hall.1

theorem validName.ne_zero (h : validName name) : ∀ c ∈ name, c ≠ 0 :=
  fun _ hc h0 => absurd (h0 ▸ h.ge hc) (by decide)

theorem extOf_ne_nil (hname : validName name) (h : name = baseOf name ++ 0x2E :: extOf name) :
    extOf name ≠ [] := by
  intro hext
  obtain ⟨-, -, -, -, hlast, -⟩ := hname
  rw [hext] at h
  refine hlast ?_
  rw [h, length_append, length_singleton, Nat.add_sub_cancel,
    getD_append_right _ _ _ _ (le_refl _), Nat.sub_self]
  rfl

theorem length_padded (h : part.length ≤ n) : (padded n part).length = n := by
  rw [padded, length_append, length_replicate]
  omega

theorem length_sanitizePart (s : List UInt8) (n : ℕ) : (sanitizePart s n).length = n := by
  refine length_padded ?_
  rw [length_map, length_take]
  exact min_le_left _ _

theorem makeExactSfn_eq_some (h : makeExactSfn name = some sfn) :
    baseOf name ≠ [] ∧ (baseOf name).length ≤ 8 ∧ (extOf name).length ≤ 3 ∧
      (∀ c ∈ baseOf name, exactChar c = true) ∧ (∀ c ∈ extOf name, exactChar c = true) ∧
      sfn = padded 8 (baseOf name) ++ padded 3 (extOf name) := by
  unfold makeExactSfn at h
  split_ifs at h with hlen hchars
  rw [Bool.and_eq_true, List.all_eq_true, List.all_eq_true] at hchars
  exact ⟨fun h0 => hlen (.inl (by rw [h0]; rfl)), by omega, by omega, hchars.1, hchars.2,
    (some.inj h).symm⟩

end Parts

/-! ### The first character of a short name -/

theorem sanitizeChar_eq_e5 (c : UInt8) : sanitizeChar c = 0xE5 ↔ c = 0xE5 := by
  have key : ∀ x < 256, sanitizeChar (UInt8.ofNat x) = 0xE5 ↔ UInt8.ofNat x = 0xE5 := by
    decide +kernel
  have h := key c.toNat c.toNat_lt
  rwa [UInt8.ofNat_toNat] at h

theorem sanitizeChar_ne_zero (c : UInt8) : sanitizeChar c ≠ 0 := by
  have key : ∀ x < 256, sanitizeChar (UInt8.ofNat x) ≠ 0 := by decide +kernel
  have h := key c.toNat c.toNat_lt
  rwa [UInt8.ofNat_toNat] at h

theorem exactChar_spec {c : UInt8} (h : exactChar c = true) : c ≠ 0 ∧ c ≠ 0x20 ∧ c ≠ 0x2E := by
  have key : ∀ x < 256, exactChar (UInt8.ofNat x) = true →
      UInt8.ofNat x ≠ 0 ∧ UInt8.ofNat x ≠ 0x20 ∧ UInt8.ofNat x ≠ 0x2E := by decide +kernel
  have hc := key c.toNat c.toNat_lt
  rw [UInt8.ofNat_toNat] at hc
  exact hc h

section First

variable {name sfn : List UInt8}

/-- The first character of a short name marks a slot as deleted only if the name starts with that
character, and never as the end of the directory. -/
structure FirstOf (name sfn : List UInt8) : Prop where
  length_eq : sfn.length = 11
  ne_zero : sfn.getD 0 0 ≠ 0
  e5_iff : sfn.getD 0 0 = 0xE5 ↔ name.getD 0 0 = 0xE5

theorem baseOf_first (name : List UInt8) : (baseOf name = [] ∧ name.getD 0 0 ≠ 0xE5) ∨
    (baseOf name ≠ [] ∧ (baseOf name).getD 0 0 = name.getD 0 0) := by
  cases hb : baseOf name with
  | nil =>
    refine .inl ⟨rfl, ?_⟩
    rcases name_parts name with ⟨h, -⟩ | h
    · rw [h, hb]
      decide
    · rw [h, hb]
      exact show ¬(0x2E : UInt8) = 0xE5 by decide
  | cons c base =>
    refine .inr ⟨cons_ne_nil _ _, ?_⟩
    rcases name_parts name with ⟨h, -⟩ | h
    · rw [h, hb]
    · rw [h, hb]
      rfl

theorem firstOf_exact (hname : validName name) (h : makeExactSfn name = some sfn) :
    FirstOf name sfn := by
  obtain ⟨hne, hbase, hext, hchars, -, rfl⟩ := makeExactSfn_eq_some h
  obtain ⟨hb, -⟩ | ⟨-, hfirst⟩ := baseOf_first name
  · exact absurd hb hne
  have hzero : (padded 8 (baseOf name) ++ padded 3 (extOf name)).getD 0 0 = name.getD 0 0 := by
    rw [← hfirst]
    cases hb : baseOf name with
    | nil => exact absurd hb hne
    | cons c base => rfl
  refine ⟨?_, ?_, by rw [hzero]⟩
  · rw [length_append, length_padded hbase, length_padded hext]
  · rw [hzero]
    cases name with
    | nil => exact absurd rfl hname.1
    | cons c rest => exact hname.ne_zero c mem_cons_self

theorem firstOf_numbered {n : ℕ} (h : numberedSfn name n = some sfn) : FirstOf name sfn := by
  unfold numberedSfn at h
  simp only at h
  split_ifs at h with hdigits
  have hpos : 0 < (revDigits 8 n).length := Nat.succ_pos _
  rw [length_reverse] at hdigits
  obtain rfl := some.inj h
  generalize hkeep : min 6 (8 - ((revDigits 8 n).reverse.length + 1)) = keep
  rw [length_reverse] at hkeep
  obtain ⟨k, rfl⟩ : ∃ k, keep = k + 1 := ⟨keep - 1, by omega⟩
  set sfn := (sanitizePart (baseOf name) 6).take (k + 1) ++ 0x7E :: (revDigits 8 n).reverse ++
    sanitizePart (extOf name) 3 with hsfn
  have hlen : sfn.length = 11 := by
    rw [hsfn, length_append, length_append, length_take, length_sanitizePart,
      length_sanitizePart, length_cons, length_reverse]
    omega
  obtain ⟨hb, hname⟩ | ⟨hb, hfirst⟩ := baseOf_first name
  · have hzero : sfn.getD 0 0 = 0x20 := by
      rw [hsfn, hb]
      rfl
    refine ⟨hlen, ?_, ?_⟩
    · rw [hzero]
      decide
    · rw [hzero]
      exact iff_of_false (by decide) hname
  · have hzero : sfn.getD 0 0 = sanitizeChar (name.getD 0 0) := by
      rw [hsfn, ← hfirst]
      cases hb' : baseOf name with
      | nil => exact absurd hb' hb
      | cons c base => rfl
    refine ⟨hlen, ?_, ?_⟩
    · rw [hzero]
      exact sanitizeChar_ne_zero _
    · rw [hzero]
      exact sanitizeChar_eq_e5 _

end First

section MakeSfn

variable {taken : List UInt8 → Bool} {name sfn : List UInt8}

/-- There is a number that makes a short name which is not taken. -/
def NumberFree (taken : List UInt8 → Bool) (name : List UInt8) : Prop :=
  ∃ n, 1 ≤ n ∧ n < 1000000 ∧ ∃ sfn, numberedSfn name n = some sfn ∧ taken sfn = false

theorem makeSfn_numbered (h : ∀ sfn, makeExactSfn name = some sfn → taken sfn = true) :
    makeSfn taken name = ((List.range' 1 999999).findSome? fun n =>
      (numberedSfn name n).filter (!taken ·)).map (·, true) := by
  have hnone : (makeExactSfn name).filter (!taken ·) = none := by
    cases hx : makeExactSfn name with
    | none => rfl
    | some sfn => exact filter_some_neg (by rw [h sfn hx]; decide)
  rw [makeSfn, hnone]

/-- How `make_sfn` ends if the name has no short form of its own. -/
theorem makeSfn_numbered_cases (h : ∀ sfn, makeExactSfn name = some sfn → taken sfn = true) :
    (∃ sfn, makeSfn taken name = some (sfn, true) ∧ FirstOf name sfn ∧ taken sfn = false ∧
        NumberFree taken name) ∨
      makeSfn taken name = none ∧ ¬NumberFree taken name := by
  rw [makeSfn_numbered h]
  cases hfind : (List.range' 1 999999).findSome? fun n =>
      (numberedSfn name n).filter (!taken ·) with
  | some sfn =>
    obtain ⟨n, hn, hsfn⟩ := exists_of_findSome?_eq_some hfind
    obtain ⟨hsfn, hfree⟩ := filter_eq_some_iff.mp hsfn
    rw [mem_range'_1] at hn
    rw [Bool.not_eq_true'] at hfree
    exact .inl ⟨sfn, rfl, firstOf_numbered hsfn, hfree, n, hn.1, by omega, sfn, hsfn, hfree⟩
  | none =>
    refine .inr ⟨rfl, fun ⟨n, h1, h2, sfn, hsfn, hfree⟩ => ?_⟩
    have hnone := findSome?_eq_none_iff.mp hfind n (mem_range'_1.mpr ⟨h1, by omega⟩)
    rw [hsfn, filter_some_pos (by rw [hfree]; rfl)] at hnone
    exact some_ne_none _ hnone

end MakeSfn

/-! ### Long names there and back -/

theorem toNat_of_and {c m v : UInt8} {lo hi : ℕ} (h : c &&& m = v)
    (key : ∀ x < 256, x &&& m.toNat = v.toNat → lo ≤ x ∧ x < hi) : lo ≤ c.toNat ∧ c.toNat < hi :=
  key c.toNat c.toNat_lt (by rw [← UInt8.toNat_and, h])

theorem ofNat_eq_of_toNat {c : UInt8} {n : ℕ} (h : n = c.toNat) : UInt8.ofNat n = c := by
  rw [h, UInt8.ofNat_toNat]

/-- A character that `utf8_to_utf16_units` accepts is not zero, not half of a pair, and
`utf16_to_utf8` gives its bytes back. -/
theorem unitAt_spec {s : List UInt8} {cp k : ℕ} (h : unitAt s = some (cp, k))
    (h0 : s.getD 0 0 ≠ 0) :
    utf8Of cp = s.take k ∧ 0 < k ∧ k ≤ s.length ∧ cp ≠ 0 ∧ cp ≤ 0xFFFF ∧
      ¬(0xD800 ≤ cp ∧ cp ≤ 0xDFFF) := by
  obtain _ | ⟨c, s⟩ := s
  · exact absurd rfl h0
  have hcont : ∀ b : UInt8, b &&& 0xC0 = 0x80 → 128 ≤ b.toNat ∧ b.toNat < 192 :=
    fun b hb => toNat_of_and hb (by decide +kernel)
  have hc0 : c.toNat ≠ 0 := fun hz => h0 (UInt8.toNat_inj.mp hz)
  unfold unitAt at h
  simp only [getD_cons_zero, getD_cons_succ] at h
  split_ifs at h with h1 h2 h3 h4 h5
  · -- one byte
    obtain ⟨rfl, rfl⟩ := Prod.mk.inj (some.inj h)
    have hlt : c.toNat < 0x80 := UInt8.lt_iff_toNat_lt.mp h1
    refine ⟨?_, one_pos, Nat.succ_le_succ (Nat.zero_le _), hc0, by omega, by omega⟩
    rw [utf8Of, if_pos hlt, UInt8.ofNat_toNat, take_succ_cons, take_zero]
  · -- two bytes
    obtain ⟨rfl, rfl⟩ := Prod.mk.inj (some.inj h)
    rw [not_or, not_not, not_lt] at h3
    have hc : 192 ≤ c.toNat ∧ c.toNat < 224 := toNat_of_and h2 (by decide +kernel)
    obtain _ | ⟨c2, s⟩ := s
    · exact absurd h3.1 (show ¬(0 : UInt8) &&& 0xC0 = 0x80 by decide)
    obtain ⟨hc2, hge⟩ := h3
    have hc2 := hcont c2 hc2
    refine ⟨?_, by omega, by simp, by simp only [getD_cons_zero]; omega,
      by simp only [getD_cons_zero]; omega, by simp only [getD_cons_zero]; omega⟩
    rw [getD_cons_zero, utf8Of, if_neg (by omega), if_pos (by omega),
      ofNat_eq_of_toNat (c := c) (by omega), ofNat_eq_of_toNat (c := c2) (by omega)]
    rfl
  · -- three bytes
    obtain ⟨rfl, rfl⟩ := Prod.mk.inj (some.inj h)
    rw [not_or, not_or, not_or, not_not, not_not, not_lt] at h5
    have hc : 224 ≤ c.toNat ∧ c.toNat < 240 := toNat_of_and h4 (by decide +kernel)
    obtain _ | ⟨c2, s⟩ := s
    · exact absurd h5.1 (show ¬(0 : UInt8) &&& 0xC0 = 0x80 by decide)
    obtain _ | ⟨c3, s⟩ := s
    · exact absurd h5.2.1 (show ¬(0 : UInt8) &&& 0xC0 = 0x80 by decide)
    obtain ⟨hc2, hc3, hge, hpair⟩ := h5
    simp only [getD_cons_zero, getD_cons_succ] at hc2 hc3 hge hpair ⊢
    have hc2 := hcont c2 hc2
    have hc3 := hcont c3 hc3
    refine ⟨?_, by omega, by simp, by omega, by omega, hpair⟩
    rw [utf8Of, if_neg (by omega), if_neg (by omega), ofNat_eq_of_toNat (c := c) (by omega),
      ofNat_eq_of_toNat (c := c2) (by omega), ofNat_eq_of_toNat (c := c3) (by omega)]
    rfl

/-- What `utf8_to_utf16_units` gives for a string without zeros. -/
theorem unitsFrom_spec {fuel n : ℕ} {s : List UInt8} {units : List ℕ} (hs : ∀ c ∈ s, c ≠ 0)
    (hfuel : s.length ≤ fuel) (h : unitsFrom fuel s n = some units) :
    units.flatMap utf8Of = s ∧ (∀ u ∈ units, u ≠ 0 ∧ u ≤ 0xFFFF ∧ ¬(0xD800 ≤ u ∧ u ≤ 0xDFFF)) ∧
      (n ≤ maxLfnChars → n + units.length ≤ maxLfnChars) := by
  induction fuel generalizing s n units with
  | zero =>
    obtain rfl := eq_nil_of_length_eq_zero (Nat.le_zero.mp hfuel)
    obtain rfl := some.inj h
    exact ⟨rfl, nofun, id⟩
  | succ fuel ih =>
    rw [unitsFrom] at h
    obtain _ | ⟨c, t⟩ := s
    · obtain rfl := some.inj h
      exact ⟨rfl, nofun, id⟩
    have h0 : (c :: t).getD 0 0 ≠ 0 := hs c mem_cons_self
    rw [if_neg h0] at h
    rcases hu : unitAt (c :: t) with _ | ⟨cp, k⟩
    · rw [hu] at h
      exact absurd h.symm (some_ne_none _)
    rw [hu] at h
    obtain ⟨hbytes, hk, hlen, hne, hle, hpair⟩ := unitAt_spec hu h0
    simp only at h
    split_ifs at h with hbad
    obtain ⟨rest, hrest, rfl⟩ := map_eq_some_iff.mp h
    have hdrop : ((c :: t).drop k).length ≤ fuel := by
      rw [length_drop]
      omega
    obtain ⟨h1, h2, h3⟩ := ih (fun b hb => hs b (mem_of_mem_drop hb)) hdrop hrest
    refine ⟨?_, ?_, fun hn => ?_⟩
    · rw [flatMap_cons, h1, hbytes, take_append_drop]
    · intro u hu
      obtain rfl | hu := mem_cons.mp hu
      · exact ⟨hne, hle, hpair⟩
      · exact h2 u hu
    · have := h3 (by omega)
      rw [length_cons]
      omega

theorem length_utf8Of_pos (c : ℕ) : 0 < (utf8Of c).length := by
  unfold utf8Of
  split_ifs <;> exact Nat.succ_pos _

theorem length_le_flatMap_utf8Of (us : List ℕ) : us.length ≤ (us.flatMap utf8Of).length := by
  induction us with
  | nil => exact Nat.zero_le _
  | cons u us ih =>
    have := length_utf8Of_pos u
    rw [flatMap_cons, length_append, length_cons]
    omega

/-- `utf16_to_utf8` gives the bytes of the units up to the first one that it takes for the end. -/
theorem utf8From_spec {chars : ℕ → ℕ} {fuel i o : ℕ} {us : List ℕ}
    (hchars : ∀ j < us.length, chars (i + j) = us.getD j 0)
    (hend : us.length < fuel → chars (i + us.length) = 0) (hfuel : us.length ≤ fuel)
    (hus : ∀ u ∈ us, u ≠ 0 ∧ u ≤ 0xFFFF ∧ ¬(0xD800 ≤ u ∧ u ≤ 0xDFFF))
    (ho : o + (us.flatMap utf8Of).length < 256) :
    utf8From chars fuel i o = some ((us.takeWhile (· ≠ 0xFFFF)).flatMap utf8Of) := by
  induction us generalizing fuel i o with
  | nil =>
    cases fuel with
    | zero => rfl
    | succ fuel =>
      exact if_pos (.inl (hend (Nat.succ_pos _)))
  | cons u us ih =>
    obtain ⟨fuel, rfl⟩ : ∃ k, fuel = k + 1 := ⟨fuel - 1, by rw [length_cons] at hfuel; omega⟩
    have hu : chars i = u := hchars 0 (Nat.succ_pos _)
    obtain ⟨h0, -, hpair⟩ := hus u mem_cons_self
    rw [flatMap_cons, length_append] at ho
    rw [utf8From, hu]
    by_cases hF : u = 0xFFFF
    · rw [hF, takeWhile_cons_of_neg (by decide)]
      exact if_pos (.inr rfl)
    have hrec : utf8From chars fuel (i + 1) (o + (utf8Of u).length) =
        some ((us.takeWhile (· ≠ 0xFFFF)).flatMap utf8Of) := ih
      (fun j hj => by
        rw [add_assoc, add_comm 1 j]
        exact hchars (j + 1) (Nat.succ_lt_succ hj))
      (fun hlt => by
        rw [add_assoc, add_comm 1 us.length]
        exact hend (Nat.succ_lt_succ hlt))
      (Nat.le_of_succ_le_succ hfuel) (fun x hx => hus x (mem_cons_of_mem _ hx)) (by omega)
    rw [takeWhile_cons_of_pos (p := fun x => decide (x ≠ 0xFFFF)) (decide_eq_true hF), flatMap_cons]
    simp only [if_neg (not_or.mpr ⟨h0, hF⟩), if_neg hpair]
    rw [if_neg (by omega), hrec]
    rfl

section Stored

variable {name : List UInt8} {units : List ℕ} {chars : ℕ → ℕ}

theorem utf8ToUtf16Units_spec (hname : validName name) (h : utf8ToUtf16Units name = some units) :
    units ≠ [] ∧ units.flatMap utf8Of = name ∧
      (∀ u ∈ units, u ≠ 0 ∧ u ≤ 0xFFFF ∧ ¬(0xD800 ≤ u ∧ u ≤ 0xDFFF)) ∧
      units.length ≤ maxLfnChars := by
  obtain ⟨h, hne⟩ := filter_eq_some_iff.mp h
  obtain ⟨h1, h2, h3⟩ := unitsFrom_spec hname.ne_zero (le_refl _) h
  refine ⟨fun hnil => ?_, h1, h2, ?_⟩
  · rw [hnil] at hne
    exact absurd hne (by decide)
  · have := h3 (Nat.zero_le _)
    rwa [zero_add] at this

/-- The units of a name are read back as the name if none of them is taken for the end. -/
theorem utf16ToUtf8_stored (hname : validName name) (h : utf8ToUtf16Units name = some units)
    (hchars : ∀ j < units.length, chars j = units.getD j 0)
    (hend : units.length < maxLfnChars → chars units.length = 0) :
    utf16ToUtf8 chars = some name ↔ 0xFFFF ∉ units := by
  obtain ⟨hne, hbytes, hunits, hlen⟩ := utf8ToUtf16Units_spec hname h
  have hfrom : utf8From chars maxLfnChars 0 0 =
      some ((units.takeWhile (· ≠ 0xFFFF)).flatMap utf8Of) := utf8From_spec
    (fun j hj => by rw [zero_add]; exact hchars j hj)
    (fun hlt => by rw [zero_add]; exact hend hlt) hlen hunits
    (by rw [hbytes, zero_add]; exact Nat.lt_succ_of_le hname.2.1)
  rw [utf16ToUtf8, hfrom, filter_eq_some_iff]
  constructor
  · rintro ⟨heq, -⟩ hF
    have hsplit := takeWhile_append_dropWhile (p := fun u => decide (u ≠ 0xFFFF)) (l := units)
    have hlong := length_le_flatMap_utf8Of (units.dropWhile (· ≠ 0xFFFF))
    have hdrop : units.dropWhile (· ≠ 0xFFFF) ≠ [] := by
      intro hnil
      exact absurd (dropWhile_eq_nil_iff.mp hnil _ hF) (by decide)
    have hcount := congrArg List.length hbytes
    rw [← hsplit, flatMap_append, length_append, some.inj heq] at hcount
    have := length_pos_iff.mpr hdrop
    omega
  · intro hF
    have hall : units.takeWhile (· ≠ 0xFFFF) = units :=
      takeWhile_eq_self_iff.mpr fun u hu => decide_eq_true fun he => hF (he ▸ hu)
    rw [hall, hbytes]
    exact ⟨rfl, decide_eq_true hname.1⟩

end Stored

end RHKernel.Vfat
