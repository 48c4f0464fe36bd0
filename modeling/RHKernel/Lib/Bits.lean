import Mathlib.Data.Nat.Bitwise
import Mathlib.Tactic.Ring

/-!
# Bit counting and alignment on natural numbers

The machine operations on unsigned words that the models use and that the library has no name
for: counting trailing zeros, and rounding to a power of two with an explicit overflow test.
-/

namespace RHKernel.Bits

variable {n align value k value' : ℕ}

/-- Trailing zeros of `n`, looking at `w` bits. -/
def ctzFrom : ℕ → ℕ → ℕ
  | 0, _ => 0
  | w + 1, n => if n % 2 = 1 then 0 else ctzFrom w (n / 2) + 1

/-- The number of trailing zero bits of a non-zero 64-bit word. -/
def ctz (n : ℕ) : ℕ := ctzFrom 64 n

private theorem ctzFrom_spec : ∀ {w n : ℕ}, n ≠ 0 → n < 2 ^ w →
    2 ^ ctzFrom w n ∣ n ∧ ¬2 ^ (ctzFrom w n + 1) ∣ n := by
  intro w
  induction w with
  | zero =>
    intro n hn hlt
    exact absurd (Nat.lt_one_iff.mp hlt) hn
  | succ w ih =>
    intro n hn hlt
    rw [ctzFrom]
    split
    case isTrue hodd =>
      refine ⟨one_dvd n, fun h => ?_⟩
      omega
    case isFalse heven =>
      -- one factor of two comes off `n`, the rest is the count for `n / 2`
      obtain ⟨m, rfl⟩ : 2 ∣ n := by omega
      rw [Nat.mul_div_cancel_left m two_pos]
      have hm : m < 2 ^ w := by rw [pow_succ] at hlt; omega
      obtain ⟨h1, h2⟩ := ih (by omega) hm
      rw [pow_succ', pow_succ' 2 (ctzFrom w m + 1)]
      exact ⟨mul_dvd_mul_left 2 h1, fun h => h2 (Nat.dvd_of_mul_dvd_mul_left two_pos h)⟩

theorem two_pow_ctz_dvd (hn : n ≠ 0) (hlt : n < 2 ^ 64) : 2 ^ ctz n ∣ n := (ctzFrom_spec hn hlt).1

theorem not_two_pow_ctz_succ_dvd (hn : n ≠ 0) (hlt : n < 2 ^ 64) : ¬2 ^ (ctz n + 1) ∣ n :=
  (ctzFrom_spec hn hlt).2

/-- The bit that the count of trailing zeros points at is set. -/
theorem testBit_ctz (hn : n ≠ 0) (hlt : n < 2 ^ 64) : n.testBit (ctz n) = true := by
  have h1 := two_pow_ctz_dvd hn hlt
  have h2 := not_two_pow_ctz_succ_dvd hn hlt
  obtain ⟨x, hx⟩ := h1
  rw [Nat.testBit_eq_decide_div_mod_eq, decide_eq_true_eq]
  have hdiv : n / 2 ^ ctz n = x := Nat.div_eq_of_eq_mul_right (Nat.two_pow_pos _) hx
  by_contra hodd
  obtain ⟨y, rfl⟩ : 2 ∣ x := by omega
  exact h2 ⟨y, by rw [pow_succ, mul_assoc]; exact hx⟩

theorem ctz_le (hlt : n < 2 ^ 64) (h : n.testBit k = true) : ctz n ≤ k := by
  have hn : n ≠ 0 := by
    rintro rfl
    simp at h
  obtain ⟨x, hx⟩ := two_pow_ctz_dvd hn hlt
  rw [hx, Nat.testBit_two_pow_mul, Bool.and_eq_true, decide_eq_true_eq] at h
  exact h.1

/-! ### Rounding to a power of two -/

/-- Rounds down to a multiple of `align`. -/
def alignDown (value align : ℕ) : ℕ := value / align * align

/-- Rounds up to a multiple of `align`. -/
def alignUp (value align : ℕ) : ℕ := (value + align - 1) / align * align

theorem dvd_alignDown (value align : ℕ) : align ∣ alignDown value align := Dvd.intro_left _ rfl

theorem dvd_alignUp (value align : ℕ) : align ∣ alignUp value align := Dvd.intro_left _ rfl

theorem alignDown_le (value align : ℕ) : alignDown value align ≤ value :=
  Nat.div_mul_le_self value align

theorem le_alignUp (value : ℕ) (h : 0 < align) : value ≤ alignUp value align := by
  have hlt : value + align - 1 < alignUp value align + align := Nat.lt_div_mul_add h
  omega

theorem alignUp_mono (h : value ≤ value') (align : ℕ) :
    alignUp value align ≤ alignUp value' align :=
  Nat.mul_le_mul_right _ (Nat.div_le_div_right (by omega))

theorem alignUp_of_dvd (h : 0 < align) (hd : align ∣ value) : alignUp value align = value := by
  obtain ⟨x, rfl⟩ := hd
  have h1 : (align * x + align - 1) / align = x := by
    rw [Nat.add_sub_assoc (by omega), Nat.mul_add_div h, Nat.div_eq_of_lt (by omega), add_zero]
  rw [alignUp, h1, mul_comm]

theorem alignDown_of_dvd (hd : align ∣ value) : alignDown value align = value :=
  Nat.div_mul_cancel hd

end RHKernel.Bits
