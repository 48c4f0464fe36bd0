import Mathlib.Algebra.Order.Group.Nat
import Mathlib.Tactic.Common

/-!
# Little-endian fields of a byte buffer

A buffer is a function of the offset. `rd` reads `w` bytes as a number, lowest byte first, and `wr`
stores the low bytes of a number; what the stored field reads back and what it leaves alone is all
that formats built from such fields need.
-/

namespace RHKernel.LittleEndian

variable {b b' : ℕ → UInt8} {o w v i j o' w' : ℕ} {fields : List (ℕ × ℕ)}

/-- The number in the `w` bytes at `o`. -/
def rd (b : ℕ → UInt8) (o : ℕ) : ℕ → ℕ
  | 0 => 0
  | w + 1 => (b o).toNat + 256 * rd b (o + 1) w

/-- The low `w` bytes of `v` are stored at `o`. -/
def wr (b : ℕ → UInt8) (o w v : ℕ) : ℕ → UInt8 := fun j =>
  if o ≤ j ∧ j < o + w then UInt8.ofNat (v / 256 ^ (j - o)) else b j

theorem rd_lt (b : ℕ → UInt8) (o w : ℕ) : rd b o w < 256 ^ w := by
  induction w generalizing o with
  | zero => exact one_pos
  | succ w ih =>
    have hbyte := (b o).toNat_lt
    have hrest := ih (o + 1)
    rw [rd, Nat.pow_succ]
    omega

theorem rd_congr (h : ∀ j, o ≤ j → j < o + w → b j = b' j) : rd b o w = rd b' o w := by
  induction w generalizing o with
  | zero => rfl
  | succ w ih =>
    rw [rd, rd, h o (le_refl o) (by omega), ih fun j h1 h2 => h j (by omega) (by omega)]

theorem rd_digits (h : ∀ i < w, b (o + i) = UInt8.ofNat (v / 256 ^ i)) :
    rd b o w = v % 256 ^ w := by
  induction w generalizing o v with
  | zero => rw [rd, Nat.pow_zero, Nat.mod_one]
  | succ w ih =>
    have hrest : rd b (o + 1) w = v / 256 % 256 ^ w := by
      refine ih fun i hi => ?_
      rw [add_assoc, h (1 + i) (by omega), pow_add, pow_one, Nat.div_div_eq_div_mul]
    have hfirst : (b o).toNat = v % 256 := by
      rw [← add_zero o, h 0 (by omega), Nat.pow_zero, Nat.div_one]
      rfl
    rw [rd, hrest, hfirst, Nat.pow_succ, mul_comm, mul_comm (256 ^ w), Nat.mod_mul]
    omega

theorem rd_wr_self (b : ℕ → UInt8) (o w v : ℕ) : rd (wr b o w v) o w = v % 256 ^ w := by
  refine rd_digits fun i hi => ?_
  rw [wr, if_pos (by omega), Nat.add_sub_cancel_left]

/-- The bytes of a field are the digits of the number in it. -/
theorem rd_div (b : ℕ → UInt8) (o w : ℕ) (hi : i < w) :
    UInt8.ofNat (rd b o w / 256 ^ i) = b (o + i) := by
  induction w generalizing o i with
  | zero => exact absurd hi (Nat.not_lt_zero i)
  | succ w ih =>
    have hbyte := (b o).toNat_lt
    rw [rd]
    cases i with
    | zero =>
      refine UInt8.toNat_inj.mp ?_
      change _ = (b o).toNat
      rw [UInt8.toNat_ofNat']
      omega
    | succ i =>
      have hrest : ((b o).toNat + 256 * rd b (o + 1) w) / 256 = rd b (o + 1) w := by omega
      rw [pow_succ', ← Nat.div_div_eq_div_mul, hrest, ih (o + 1) (by omega), add_assoc,
        add_comm 1 i]

theorem wr_rd (b : ℕ → UInt8) (o w : ℕ) : wr b o w (rd b o w) = b := by
  funext j
  unfold wr
  split_ifs with h
  · rw [rd_div b o w (by omega), Nat.add_sub_cancel' h.1]
  · rfl

theorem wr_of_outside (h : j < o ∨ o + w ≤ j) : wr b o w v j = b j := if_neg (by omega)

theorem rd_wr_of_disjoint (h : o' + w' ≤ o ∨ o + w ≤ o') :
    rd (wr b o w v) o' w' = rd b o' w' :=
  rd_congr fun _ _ _ => wr_of_outside (by omega)

/-! ### Several fields -/

/-- Fields of `w` bytes, each with its offset and its number, are stored one after another. -/
def wrAll (w : ℕ) (b : ℕ → UInt8) (fields : List (ℕ × ℕ)) : ℕ → UInt8 :=
  fields.foldl (fun b f => wr b f.1 w f.2) b

theorem wrAll_of_outside (h : ∀ f ∈ fields, j < f.1 ∨ f.1 + w ≤ j) : wrAll w b fields j = b j := by
  induction fields generalizing b with
  | nil => rfl
  | cons f fields ih =>
    exact (ih fun g hg => h g (List.mem_cons_of_mem _ hg)).trans
      (wr_of_outside (h f List.mem_cons_self))

theorem rd_wrAll_of_disjoint (h : ∀ f ∈ fields, o' + w' ≤ f.1 ∨ f.1 + w ≤ o') :
    rd (wrAll w b fields) o' w' = rd b o' w' :=
  rd_congr fun _ _ _ => wrAll_of_outside fun f hf => by
    have := h f hf
    omega

/-- Fields that do not overlap read back what was stored. -/
theorem rd_wrAll (h : fields.Pairwise fun f g => f.1 + w ≤ g.1 ∨ g.1 + w ≤ f.1)
    (hmem : (o, v) ∈ fields) : rd (wrAll w b fields) o w = v % 256 ^ w := by
  induction fields generalizing b with
  | nil => exact absurd hmem List.not_mem_nil
  | cons f fields ih =>
    obtain ⟨hf, hrest⟩ := List.pairwise_cons.mp h
    obtain rfl | hmem := List.mem_cons.mp hmem
    · refine (rd_wrAll_of_disjoint fun g hg => hf g hg).trans (rd_wr_self b o w v)
    · exact ih hrest hmem

end RHKernel.LittleEndian
