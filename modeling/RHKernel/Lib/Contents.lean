import Mathlib.Data.Nat.Notation
import Mathlib.Tactic.Ext

/-!
# The contents of a file

What a regular file is for its users: finitely many bytes. `byte` is zero from the size on, so that
a write behind the end fills the gap with zeros and a file that is cut and extended again has lost
what was cut off, without a case for either.
-/

namespace RHKernel

/-- The bytes of a file. -/
@[ext]
structure Contents where
  size : ℕ
  byte : ℕ → UInt8
  zero : ∀ i, size ≤ i → byte i = 0

namespace Contents

variable (c : Contents)

def empty : Contents := ⟨0, fun _ => 0, fun _ _ => rfl⟩

/-- The first `k` bytes of `buf` are stored at `off`. -/
def write (off k : ℕ) (buf : ℕ → UInt8) : Contents where
  size := max c.size (off + k)
  byte i := if off ≤ i ∧ i < off + k then buf (i - off) else c.byte i
  zero i hi := by
    have hsize : c.size ≤ i := Nat.le_trans (Nat.le_max_left _ _) hi
    have hend : off + k ≤ i := Nat.le_trans (Nat.le_max_right _ _) hi
    rw [if_neg (fun h => Nat.not_lt.mpr hend h.2)]
    exact c.zero i hsize

/-- The size becomes `n`; bytes that were not there are zero. -/
def truncate (n : ℕ) : Contents where
  size := n
  byte i := if i < n then c.byte i else 0
  zero _ hi := if_neg (Nat.not_lt.mpr hi)

/-- How many of `n` bytes from `off` on there are. -/
def count (off n : ℕ) : ℕ := min n (c.size - off)

end Contents

end RHKernel
