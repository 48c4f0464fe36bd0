import Mathlib.Algebra.Order.Group.Nat
import Mathlib.Data.Nat.Bitwise

/-!
# Bitmaps in a byte buffer

Bit `k` of a buffer is bit `k % 8` of its byte `k / 8`. `set` and `clear` change one bit and leave
the others alone.
-/

namespace RHKernel.Bitmap

open Function

variable (b : ℕ → UInt8) (k j : ℕ)

def test : Bool := (b (k / 8)).toNat.testBit (k % 8)

def set : ℕ → UInt8 :=
  update b (k / 8) (UInt8.ofNat ((b (k / 8)).toNat ||| 2 ^ (k % 8)))

def clear : ℕ → UInt8 :=
  update b (k / 8) (UInt8.ofNat (Nat.ldiff (b (k / 8)).toNat (2 ^ (k % 8))))

private theorem testBit_ofNat (x : ℕ) :
    (UInt8.ofNat x).toNat.testBit (j % 8) = x.testBit (j % 8) := by
  have h : j % 8 < 8 := Nat.mod_lt _ (by omega)
  rw [UInt8.toNat_ofNat', Nat.testBit_mod_two_pow, decide_eq_true h, Bool.true_and]

private theorem eq_iff_div_mod : k = j ↔ k / 8 = j / 8 ∧ k % 8 = j % 8 := by omega

theorem test_set : test (set b k) j = (test b j || decide (k = j)) := by
  by_cases hbyte : j / 8 = k / 8
  · rw [test, set, hbyte, update_self, testBit_ofNat, Nat.testBit_or,
      Nat.testBit_two_pow, test, hbyte]
    simp only [eq_iff_div_mod k j, hbyte, true_and]
  · rw [test, set, update_of_ne hbyte, decide_eq_false fun h => hbyte (by rw [h]),
      Bool.or_false, test]

theorem test_clear : test (clear b k) j = (test b j && !decide (k = j)) := by
  by_cases hbyte : j / 8 = k / 8
  · rw [test, clear, hbyte, update_self, testBit_ofNat, Nat.testBit_ldiff,
      Nat.testBit_two_pow, test, hbyte]
    simp only [eq_iff_div_mod k j, hbyte, true_and]
  · rw [test, clear, update_of_ne hbyte, decide_eq_false fun h => hbyte (by rw [h]),
      Bool.not_false, Bool.and_true, test]

end RHKernel.Bitmap
