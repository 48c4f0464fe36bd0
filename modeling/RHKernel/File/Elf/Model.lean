import Mathlib.Algebra.Group.Nat.Defs

/-!
# Loading programs

The checks that `elf.cpp` makes on the numbers of a file.
-/

namespace RHKernel.Elf

def user32Top : ℕ := 0xF0000000

/-- `add_overflow`: the sum in 64 bits, if it did not wrap. -/
def addOverflow (a b : ℕ) : Option ℕ := if a + b < 2 ^ 64 then some (a + b) else none

def vaInLoadedRange (va size imageStart imageEnd : ℕ) : Bool :=
  match addOverflow va size with
  | none => false
  | some «end» => decide (imageStart ≤ va) && decide («end» ≤ imageEnd)

theorem lt_of_vaInLoadedRange {va size imageStart imageEnd : ℕ} (hsize : 0 < size)
    (h : vaInLoadedRange va size imageStart imageEnd = true) : va < imageEnd := by
  unfold vaInLoadedRange addOverflow at h
  split at h
  · cases h
  rename_i hadd
  split at hadd
  · cases hadd
    simp only [Bool.and_eq_true, decide_eq_true_eq] at h
    omega
  · cases hadd

end RHKernel.Elf
