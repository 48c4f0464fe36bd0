import Mathlib.Data.List.TakeWhile
import Mathlib.Data.Nat.Notation
import Mathlib.Data.Int.Notation
import Mathlib.Order.Lattice

/-!
# Numbers in the C library

`strtol` and `strtoul` share the scanner `parse_unsigned`. It skips white space, a sign and a prefix
`0x`, and reads digits for as long as they are digits of the base, with the largest value of the
type in place of one that does not fit.

The scanner skips the prefix even if no hexadecimal digit follows. There is no digit then, and the
end is the start of the string, where the standard takes the single `0`. Also `strtoul` negates the
largest value and returns 1 for a number below the range. Apart from these two cases both functions
return what the standard says.
-/

namespace RHKernel.Libc

def isspace (c : UInt8) : Bool :=
  c = 32 || c = 9 || c = 10 || c = 13 || c = 12 || c = 11

/-- `digit_value`, with `none` for `-1`. -/
def digitValue (c : UInt8) : Option ℕ :=
  if 48 ≤ c ∧ c ≤ 57 then some (c.toNat - 48)
  else if 97 ≤ c ∧ c ≤ 122 then some (c.toNat - 97 + 10)
  else if 65 ≤ c ∧ c ≤ 90 then some (c.toNat - 65 + 10)
  else none

/-- The test of the loops for a digit of the base. -/
def isDigit (base : ℕ) (c : UInt8) : Bool := (digitValue c).any (· < base)

def ulongMax : ℕ := 0xffffffffffffffff

def longMax : ℕ := 0x7fffffffffffffff

/-- The white space and the sign: whether it is a minus sign, and the rest. The end of a list is the
terminating zero. -/
def scanSign (nptr : List UInt8) : Bool × List UInt8 :=
  match nptr.dropWhile isspace with
  | [] => (false, [])
  | c :: s => if c = 43 ∨ c = 45 then (c = 45, s) else (false, c :: s)

/-- The test for `0x` and `0X`. -/
def hasPrefix : List UInt8 → Bool
  | 48 :: x :: _ => x = 120 || x = 88
  | _ => false

/-- The choice of the base, and the skipping of the prefix. -/
def scanBase (base : ℤ) (s : List UInt8) : ℤ × List UInt8 :=
  if base = 0 then
    if hasPrefix s then (16, s.drop 2) else if s.head? = some 48 then (8, s) else (10, s)
  else if base = 16 ∧ hasPrefix s then (base, s.drop 2) else (base, s)

/-- The loop over the digits: `acc`, `any` and the rest. -/
def scanDigits (base : ℕ) : List UInt8 → ℕ → Bool → ℕ × Bool × List UInt8
  | [], acc, any => (acc, any, [])
  | c :: s, acc, any =>
    if isDigit base c then
      let ud := (digitValue c).getD 0
      if (ulongMax - ud) / base < acc then (ulongMax, true, s.dropWhile (isDigit base))
      else scanDigits base s (acc * base + ud) true
    else (acc, any, c :: s)

/-- `parse_unsigned`: the value, the end and `neg`. -/
def parseUnsigned (nptr : List UInt8) (base : ℤ) : ℕ × List UInt8 × Bool :=
  let (neg, s) := scanSign nptr
  let (base, s) := scanBase base s
  if base < 2 ∨ 36 < base then (0, nptr, neg)
  else
    let (acc, any, s) := scanDigits base.toNat s 0 false
    (acc, if any then s else nptr, neg)

def strtoul (nptr : List UInt8) (base : ℤ) : ℕ × List UInt8 :=
  let (value, endptr, neg) := parseUnsigned nptr base
  (if neg then (ulongMax + 1 - value) % (ulongMax + 1) else value, endptr)

def strtol (nptr : List UInt8) (base : ℤ) : ℤ × List UInt8 :=
  let (value, endptr, neg) := parseUnsigned nptr base
  let limit := if neg then longMax + 1 else longMax
  let value := if limit < value then limit else value
  (if neg then (if value = longMax + 1 then -(longMax + 1) else -value) else value, endptr)

/-! ### The functions of the standard -/

/-- The base and the digits of the subject sequence: a prefix is part of it if a digit follows. -/
def subjectBase (base : ℤ) (s : List UInt8) : ℤ × List UInt8 :=
  if (base = 0 ∨ base = 16) ∧ hasPrefix s ∧ (s.drop 2).head?.any (isDigit 16) then (16, s.drop 2)
  else if base = 0 then (if s.head? = some 48 then 8 else 10, s)
  else (base, s)

/-- The number that digits stand for, after the number `acc`. -/
def ofDigits (base : ℕ) (acc : ℕ) (s : List UInt8) : ℕ :=
  s.foldl (fun acc c => acc * base + (digitValue c).getD 0) acc

/-- The subject sequence: its sign, its value and what follows it. -/
def subject (nptr : List UInt8) (base : ℤ) : Option (Bool × ℕ × List UInt8) :=
  let (neg, s) := scanSign nptr
  let (base, s) := subjectBase base s
  let digits := s.takeWhile (isDigit base.toNat)
  if base < 2 ∨ 36 < base ∨ digits = [] then none
  else some (neg, ofDigits base.toNat 0 digits, s.dropWhile (isDigit base.toNat))

def stdStrtoul (nptr : List UInt8) (base : ℤ) : ℕ × List UInt8 :=
  match subject nptr base with
  | none => (0, nptr)
  | some (neg, value, rest) =>
    (if ulongMax < value then ulongMax
      else if neg then (ulongMax + 1 - value) % (ulongMax + 1) else value, rest)

def stdStrtol (nptr : List UInt8) (base : ℤ) : ℤ × List UInt8 :=
  match subject nptr base with
  | none => (0, nptr)
  | some (neg, value, rest) =>
    (max (-(longMax + 1)) (min longMax (if neg then -value else value)), rest)

/-- A prefix that may be part of the subject sequence, with no hexadecimal digit after it. -/
def BarePrefix (nptr : List UInt8) (base : ℤ) : Prop :=
  (base = 0 ∨ base = 16) ∧ hasPrefix (scanSign nptr).2 ∧
    ¬((scanSign nptr).2.drop 2).head?.any (isDigit 16)

/-- A minus sign before a number that does not fit. -/
def NegativeOut (nptr : List UInt8) (base : ℤ) : Prop :=
  ∃ value rest, subject nptr base = some (true, value, rest) ∧ ulongMax < value

variable {base acc : ℕ} {any : Bool} {nptr s : List UInt8} {radix : ℤ}

theorem le_ofDigits (hb : 0 < base) : acc ≤ ofDigits base acc s := by
  induction s generalizing acc with
  | nil => exact le_rfl
  | cons c s ih => exact (Nat.le_mul_of_pos_right _ hb).trans ((Nat.le_add_right _ _).trans ih)

/-- The loop reads the longest sequence of digits, with the largest value for one out of range. -/
theorem scanDigits_eq (hb : 0 < base) (hb' : base ≤ ulongMax) (hacc : acc ≤ ulongMax) :
    scanDigits base s acc any = (min ulongMax (ofDigits base acc (s.takeWhile (isDigit base))),
      any || s.takeWhile (isDigit base) ≠ [], s.dropWhile (isDigit base)) := by
  induction s generalizing acc any with
  | nil => simp [scanDigits, ofDigits, hacc]
  | cons c s ih =>
    rw [scanDigits]
    by_cases hc : isDigit base c
    · have hd : (digitValue c).getD 0 < base := by
        obtain ⟨d, hd, hlt⟩ := (Option.any_eq_true _ _).mp hc
        simpa [hd] using hlt
      simp only [hc, if_true, List.takeWhile_cons_of_pos, List.dropWhile_cons_of_pos,
        Nat.div_lt_iff_lt_mul hb]
      split_ifs with hout
      · have hle : acc * base + (digitValue c).getD 0 ≤ ofDigits base acc (c :: _) :=
          le_ofDigits (s := s.takeWhile (isDigit base)) hb
        rw [min_eq_left (by omega)]
        simp
      · rw [ih (by omega)]
        simp [ofDigits]
    · simp [hc, ofDigits, hacc]

theorem scanBase_eq (h : ¬BarePrefix nptr radix) :
    scanBase radix (scanSign nptr).2 = subjectBase radix (scanSign nptr).2 := by
  unfold BarePrefix at h
  unfold scanBase subjectBase
  grind

theorem parseUnsigned_eq (h : ¬BarePrefix nptr radix) :
    parseUnsigned nptr radix = match subject nptr radix with
      | none => (0, nptr, (scanSign nptr).1)
      | some (neg, value, rest) => (min ulongMax value, rest, neg) := by
  simp only [parseUnsigned, scanBase_eq h, subject]
  generalize subjectBase radix (scanSign nptr).2 = p
  obtain ⟨b, s⟩ := p
  simp only
  by_cases hb : b < 2 ∨ 36 < b
  · rw [if_pos hb, if_pos (or_assoc.mp (.inl hb))]
  · rw [if_neg hb, scanDigits_eq (by omega) (by simp only [ulongMax]; omega) (Nat.zero_le _)]
    by_cases hd : s.takeWhile (isDigit b.toNat) = []
    · rw [if_pos (show b < 2 ∨ 36 < b ∨ _ from .inr (.inr hd))]
      simp [hd, ofDigits]
    · rw [if_neg fun h => (or_assoc.mpr h).elim hb hd]
      simp [hd]

theorem strtol_eq (h : ¬BarePrefix nptr radix) : strtol nptr radix = stdStrtol nptr radix := by
  rw [strtol, stdStrtol, parseUnsigned_eq h]
  cases subject nptr radix with
  | none => simp [longMax]
  | some r =>
    obtain ⟨neg, value, rest⟩ := r
    refine Prod.ext ?_ rfl
    simp only [longMax, ulongMax]
    cases neg <;> simp only [Bool.false_eq_true, if_false, if_true] <;> split_ifs <;> omega

theorem strtoul_eq_iff (h : ¬BarePrefix nptr radix) :
    strtoul nptr radix = stdStrtoul nptr radix ↔ ¬NegativeOut nptr radix := by
  rw [strtoul, stdStrtoul, parseUnsigned_eq h, NegativeOut]
  cases subject nptr radix with
  | none => simp
  | some r =>
    obtain ⟨neg, value, rest⟩ := r
    simp only [ulongMax]
    cases neg <;> grind

theorem length_scanSign_le : (scanSign nptr).2.length ≤ nptr.length := by
  have := List.length_dropWhile_le isspace nptr
  unfold scanSign
  grind

theorem exists_of_hasPrefix (h : hasPrefix s) : ∃ x t, s = 48 :: x :: t := by
  unfold hasPrefix at h
  grind

/-- The scanner finds no digit after a bare prefix, where the standard takes the `0`. -/
theorem strtoul_ne_of_barePrefix (h : BarePrefix nptr radix) :
    strtoul nptr radix ≠ stdStrtoul nptr radix := by
  obtain ⟨hb, hp, hd⟩ := h
  obtain ⟨x, t, hs⟩ := exists_of_hasPrefix hp
  have hlen : (scanSign nptr).2.length ≤ nptr.length := length_scanSign_le
  rw [hs] at hp hd hlen
  have hbase : scanBase radix (48 :: x :: t) = (16, t) := by
    rcases hb with rfl | rfl <;> simp [scanBase, hp]
  obtain ⟨b, hbase', h48, hsubject⟩ : ∃ b : ℕ, ¬((b : ℤ) < 2 ∨ 36 < (b : ℤ)) ∧ isDigit b 48 ∧
      subjectBase radix (48 :: x :: t) = (↑b, 48 :: x :: t) := by
    rcases hb with rfl | rfl
    · exact ⟨8, by decide, by decide, by simp_all [subjectBase]⟩
    · exact ⟨16, by decide, by decide, by simp_all [subjectBase]⟩
  have hscan : (scanDigits 16 t 0 false).2.1 = false := by
    cases t with
    | nil => rfl
    | cons c t => rw [scanDigits, if_neg (by simpa using hd)]
  have hend : (strtoul nptr radix).2 = nptr := by
    simp [strtoul, parseUnsigned, hs, hbase, hscan]
  have hstd : (stdStrtoul nptr radix).2 = (x :: t).dropWhile (isDigit b) := by
    simp only [stdStrtoul, subject, hs, hsubject, Int.toNat_natCast]
    rw [if_neg fun h => (or_assoc.mpr h).elim hbase' (by simp [h48])]
    exact List.dropWhile_cons_of_pos h48
  intro heq
  have hrest := List.length_dropWhile_le (isDigit b) (x :: t)
  rw [← hstd, ← heq, hend] at hrest
  exact absurd (hlen.trans hrest) (Nat.not_succ_le_self _)

/-- Both functions are those of the standard, except after a bare prefix and, for `strtoul`, below
the range. -/
theorem strtol_strtoul_eq_iff :
    strtol nptr radix = stdStrtol nptr radix ∧ strtoul nptr radix = stdStrtoul nptr radix ↔
      ¬BarePrefix nptr radix ∧ ¬NegativeOut nptr radix := by
  by_cases h : BarePrefix nptr radix
  · simp [h, strtoul_ne_of_barePrefix h]
  · simp [h, strtol_eq h, strtoul_eq_iff h]

/-- The strings are `0x` and `-18446744073709551616`. -/
theorem strtoul_ne_std :
    strtoul [48, 120] 16 = (0, [48, 120]) ∧ stdStrtoul [48, 120] 16 = (0, [120]) ∧
    let big := [45, 49, 56, 52, 52, 54, 55, 52, 52, 48, 55, 51, 55, 48, 57, 53, 53, 49, 54, 49, 54]
    strtoul big 10 = (1, []) ∧ stdStrtoul big 10 = (ulongMax, []) := by
  decide

end RHKernel.Libc
