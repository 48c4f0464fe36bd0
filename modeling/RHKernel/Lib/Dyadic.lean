import Mathlib.Data.Nat.Bitwise
import Mathlib.Tactic.Ring

/-!
# Dyadic blocks and canonical families

A *dyadic block* `(a, k)` is the interval `[a, a + 2 ^ k)` of natural numbers with `2 ^ k ∣ a`.
Two dyadic blocks are nested or disjoint (`covers_of_meet`), and the two halves of a block are
exchanged by flipping one bit of the start (`buddy`).

Coverage is counted rather than collected: `tally a k p` is the multiplicity with which the block
covers `p`, so that "pairwise disjoint and covering exactly `S`" becomes one pointwise equation
between sums, and splitting a block is an identity of tallies (`tally_succ`).

A `Family m F` is a set of pairwise disjoint dyadic blocks of order at most `m`; it is
*canonical* when no two buddies of an order below `m` both belong to it. **A canonical family is
determined by the points it covers** (`Family.eq_maximal`): its blocks are exactly the maximal
dyadic blocks inside its support.
-/

namespace RHKernel.DyadicBlock

variable {a k p b l q x : ℕ}

/-- The block of order `k` at `a` covers `p`. -/
def Covers (a k p : ℕ) : Prop := a ≤ p ∧ p < a + 2 ^ k

instance (a k p : ℕ) : Decidable (Covers a k p) := inferInstanceAs (Decidable (_ ∧ _))

/-- The multiplicity, `0` or `1`, with which the block of order `k` at `a` covers `p`. -/
def tally (a k p : ℕ) : ℕ := if Covers a k p then 1 else 0

theorem covers_start (a k : ℕ) : Covers a k a := ⟨le_refl a, by have := Nat.two_pow_pos k; omega⟩

theorem tally_eq_one (h : Covers a k p) : tally a k p = 1 := if_pos h

theorem tally_eq_zero (h : ¬Covers a k p) : tally a k p = 0 := if_neg h

theorem tally_pos_iff : 0 < tally a k p ↔ Covers a k p := by
  unfold tally
  split <;> simp_all

theorem covers_zero_iff : Covers a 0 p ↔ p = a := by
  unfold Covers
  omega

theorem tally_zero (a p : ℕ) : tally a 0 p = if p = a then 1 else 0 := by
  simp only [tally, covers_zero_iff]

/-- A block is the disjoint union of its two halves. -/
theorem covers_succ_iff : Covers a (k + 1) p ↔ Covers a k p ∨ Covers (a + 2 ^ k) k p := by
  unfold Covers
  omega

theorem tally_succ (a k p : ℕ) : tally a (k + 1) p = tally a k p + tally (a + 2 ^ k) k p := by
  have hdisj : ¬(Covers a k p ∧ Covers (a + 2 ^ k) k p) := by
    unfold Covers
    omega
  simp only [tally, covers_succ_iff]
  by_cases h1 : Covers a k p <;> by_cases h2 : Covers (a + 2 ^ k) k p <;> simp_all

/-! ### Nesting -/

/-- Two dyadic blocks that meet are nested: the smaller one lies inside the larger one. -/
theorem covers_of_meet (ha : 2 ^ k ∣ a) (hb : 2 ^ l ∣ b) (hkl : k ≤ l)
    (hpa : Covers a k p) (hpb : Covers b l p) (hq : Covers a k q) : Covers b l q := by
  obtain ⟨x, rfl⟩ := ha
  obtain ⟨y, rfl⟩ := hb
  obtain ⟨d, rfl⟩ := Nat.exists_eq_add_of_le hkl
  unfold Covers at *
  rw [pow_add] at *
  -- in units of `2 ^ k` the larger block is `[2 ^ d * y, 2 ^ d * y + 2 ^ d)` and contains `x`
  have hlow : 2 ^ d * y ≤ x := by
    by_contra hlt
    have h1 : x + 1 ≤ 2 ^ d * y := by omega
    have h2 : 2 ^ k * (x + 1) ≤ 2 ^ k * (2 ^ d * y) := Nat.mul_le_mul_left _ h1
    have h3 : 2 ^ k * (x + 1) = 2 ^ k * x + 2 ^ k := by ring
    have h4 : 2 ^ k * (2 ^ d * y) = 2 ^ k * 2 ^ d * y := by ring
    omega
  have hhigh : x + 1 ≤ 2 ^ d * y + 2 ^ d := by
    by_contra hlt
    have h1 : 2 ^ d * y + 2 ^ d ≤ x := by omega
    have h2 : 2 ^ k * (2 ^ d * y + 2 ^ d) ≤ 2 ^ k * x := Nat.mul_le_mul_left _ h1
    have h3 : 2 ^ k * (2 ^ d * y + 2 ^ d) = 2 ^ k * 2 ^ d * y + 2 ^ k * 2 ^ d := by ring
    omega
  have h1 : 2 ^ k * (2 ^ d * y) ≤ 2 ^ k * x := Nat.mul_le_mul_left _ hlow
  have h2 : 2 ^ k * (x + 1) ≤ 2 ^ k * (2 ^ d * y + 2 ^ d) := Nat.mul_le_mul_left _ hhigh
  have h3 : 2 ^ k * (2 ^ d * y) = 2 ^ k * 2 ^ d * y := by ring
  have h4 : 2 ^ k * (2 ^ d * y + 2 ^ d) = 2 ^ k * 2 ^ d * y + 2 ^ k * 2 ^ d := by ring
  have h5 : 2 ^ k * (x + 1) = 2 ^ k * x + 2 ^ k := by ring
  omega

theorem eq_of_meet (ha : 2 ^ k ∣ a) (hb : 2 ^ k ∣ b) (hpa : Covers a k p)
    (hpb : Covers b k p) : a = b := by
  have h1 := covers_of_meet ha hb le_rfl hpa hpb (covers_start a k)
  have h2 := covers_of_meet hb ha le_rfl hpb hpa (covers_start b k)
  exact le_antisymm h2.1 h1.1

/-- The start of the block of order `k` that covers `p`. -/
def root (k p : ℕ) : ℕ := p / 2 ^ k * 2 ^ k

theorem dvd_root (k p : ℕ) : 2 ^ k ∣ root k p := Dvd.intro_left _ rfl

theorem covers_root (k p : ℕ) : Covers (root k p) k p := by
  have h1 := Nat.div_add_mod p (2 ^ k)
  unfold Covers root
  rw [mul_comm] at h1
  omega

/-! ### Buddies -/

/-- The other half of the block twice the size. -/
def buddy (a k : ℕ) : ℕ := a ^^^ 2 ^ k

/-- Flipping bit `k` of an aligned start moves to the neighbouring half: the right one from an
aligned parent, the left one otherwise. -/
theorem buddy_cases (ha : 2 ^ k ∣ a) :
    (2 ^ (k + 1) ∣ a ∧ buddy a k = a + 2 ^ k) ∨
      (2 ^ (k + 1) ∣ buddy a k ∧ a = buddy a k + 2 ^ k) := by
  obtain ⟨x, rfl⟩ := ha
  have hxor : buddy (2 ^ k * x) k = 2 ^ k * (x ^^^ 1) := by
    have h := Nat.shiftLeft_xor_distrib (i := k) (a := x) (b := 1)
    simp only [Nat.shiftLeft_eq] at h
    rw [buddy, mul_comm, mul_comm _ (x ^^^ 1), h, one_mul]
  rcases Nat.even_or_odd' x with ⟨y, rfl | rfl⟩
  · left
    rw [hxor, Nat.xor_one_of_even (even_two_mul y)]
    exact ⟨⟨y, by ring⟩, by ring⟩
  right
  have hodd : (2 * y + 1) ^^^ 1 = 2 * y := by
    have h := Nat.xor_one_of_even (even_two_mul y)
    rw [← h, Nat.xor_assoc, Nat.xor_self, Nat.xor_zero]
  rw [hxor, hodd]
  exact ⟨⟨y, by ring⟩, by ring⟩

theorem dvd_min_buddy (ha : 2 ^ k ∣ a) : 2 ^ (k + 1) ∣ min a (buddy a k) := by
  rcases buddy_cases ha with ⟨h1, h2⟩ | ⟨h1, h2⟩
  · rwa [min_eq_left (by omega)]
  · rwa [min_eq_right (by omega)]

/-- A block and its buddy make up the block twice the size. -/
theorem tally_min_buddy (ha : 2 ^ k ∣ a) (p : ℕ) :
    tally (min a (buddy a k)) (k + 1) p = tally a k p + tally (buddy a k) k p := by
  rcases buddy_cases ha with ⟨-, h⟩ | ⟨-, h⟩
  · rw [min_eq_left (by omega), tally_succ, ← h]
  · rw [min_eq_right (by omega), tally_succ, ← h, add_comm]

/-- The halves of an aligned block are buddies, and only they are. -/
theorem buddy_eq_iff (hx : 2 ^ (k + 1) ∣ x) : buddy x k = x + 2 ^ k ∧ buddy (x + 2 ^ k) k = x := by
  have hk : 2 ^ k ∣ x := Dvd.dvd.trans (pow_dvd_pow 2 (Nat.le_succ k)) hx
  have h1 : buddy x k = x + 2 ^ k := by
    rcases buddy_cases hk with ⟨-, h⟩ | ⟨h1, h2⟩
    · exact h
    -- both `x` and `x - 2 ^ k` would be multiples of `2 ^ (k + 1)`
    exfalso
    rw [h2] at hx
    have h3 := (Nat.dvd_add_right h1).mp hx
    have h4 := Nat.le_of_dvd (Nat.two_pow_pos k) h3
    omega
  refine ⟨h1, ?_⟩
  rw [← h1, buddy, buddy, Nat.xor_assoc, Nat.xor_self, Nat.xor_zero]

/-! ### Families of blocks -/

/-- The points covered by the blocks `a ∈ F k`. -/
def support (F : ℕ → Set ℕ) : Set ℕ := {p | ∃ k a, a ∈ F k ∧ Covers a k p}

/-- Pairwise disjoint dyadic blocks of order at most `m`, listed by order. -/
structure Family (m : ℕ) (F : ℕ → Set ℕ) : Prop where
  aligned : ∀ {k a}, a ∈ F k → 2 ^ k ∣ a
  order_le : ∀ {k a}, a ∈ F k → k ≤ m
  disjoint : ∀ {k l a b p}, a ∈ F k → b ∈ F l → Covers a k p → Covers b l p → k = l ∧ a = b

/-- No block of an order below `m` is listed together with its buddy. -/
def Canonical (m : ℕ) (F : ℕ → Set ℕ) : Prop :=
  ∀ k < m, ∀ a ∈ F k, buddy a k ∉ F k

/-- The dyadic blocks of order `k ≤ m` that lie inside `P` and are not half of a larger such
block. -/
def maximal (m : ℕ) (P : Set ℕ) (k : ℕ) : Set ℕ :=
  {a | k ≤ m ∧ 2 ^ k ∣ a ∧ (∀ p, Covers a k p → p ∈ P) ∧
    (k < m → ∃ p, Covers (root (k + 1) a) (k + 1) p ∧ p ∉ P)}

namespace Family

variable {m : ℕ} {F : ℕ → Set ℕ}

/-- A dyadic block inside the support of a canonical family lies inside one of its blocks. -/
theorem exists_covers_of_subset (hF : Family m F) (hc : Canonical m F) :
    ∀ {k a : ℕ}, k ≤ m → 2 ^ k ∣ a → (∀ p, Covers a k p → p ∈ support F) →
      ∃ l b, k ≤ l ∧ b ∈ F l ∧ Covers b l a := by
  intro k
  induction k with
  | zero =>
    intro a _ _ hsub
    obtain ⟨l, b, hb, hcov⟩ := hsub a (covers_start a 0)
    exact ⟨l, b, Nat.zero_le l, hb, hcov⟩
  | succ k ih =>
    intro a hkm ha hsub
    have hak : 2 ^ k ∣ a := Dvd.dvd.trans (pow_dvd_pow 2 (Nat.le_succ k)) ha
    have hak' : 2 ^ k ∣ a + 2 ^ k := Nat.dvd_add hak dvd_rfl
    obtain ⟨l, b, hkl, hb, hcov⟩ := ih (by omega) hak
      fun p hp => hsub p (covers_succ_iff.mpr (.inl hp))
    obtain ⟨l', b', hkl', hb', hcov'⟩ := ih (by omega) hak'
      fun p hp => hsub p (covers_succ_iff.mpr (.inr hp))
    rcases lt_or_ge k l with hlt | hge
    · exact ⟨l, b, hlt, hb, hcov⟩
    rcases lt_or_ge k l' with hlt' | hge'
    · -- the block over the right half is larger, so it reaches over the left half too
      refine ⟨l', b', hlt', hb', ?_⟩
      refine covers_of_meet ha (hF.aligned hb') hlt' ?_ hcov' (covers_start a (k + 1))
      exact covers_succ_iff.mpr (.inr (covers_start _ k))
    · -- otherwise both halves are listed, which a canonical family excludes
      exfalso
      obtain rfl : l = k := by omega
      obtain rfl : l' = l := by omega
      obtain rfl : b = a := eq_of_meet (hF.aligned hb) hak hcov (covers_start a l')
      obtain rfl : b' = b + 2 ^ l' := eq_of_meet (hF.aligned hb') hak' hcov' (covers_start _ l')
      refine hc l' (by omega) b hb ?_
      rwa [(buddy_eq_iff ha).1]

/-- **Canonical families are determined by their support**: the blocks of order `k` are the
maximal dyadic blocks inside it. -/
theorem eq_maximal (hF : Family m F) (hc : Canonical m F) (k : ℕ) :
    F k = maximal m (support F) k := by
  ext a
  constructor
  · intro ha
    refine ⟨hF.order_le ha, hF.aligned ha, fun p hp => ⟨k, a, ha, hp⟩, fun hkm => ?_⟩
    by_contra hall
    push Not at hall
    obtain ⟨l, b, hkl, hb, hcov⟩ := hF.exists_covers_of_subset hc hkm (dvd_root (k + 1) a) hall
    have hmeet : Covers b l a :=
      covers_of_meet (dvd_root _ _) (hF.aligned hb) hkl (covers_start _ _) hcov (covers_root _ _)
    obtain ⟨rfl, -⟩ := hF.disjoint ha hb (covers_start a k) hmeet
    omega
  · rintro ⟨hkm, ha, hsub, hmax⟩
    obtain ⟨l, b, hkl, hb, hcov⟩ := hF.exists_covers_of_subset hc hkm ha hsub
    rcases eq_or_lt_of_le hkl with rfl | hlt
    · rwa [eq_of_meet ha (hF.aligned hb) (covers_start a k) hcov]
    · obtain ⟨p, hp, hnot⟩ := hmax (by have := hF.order_le hb; omega)
      exact absurd ⟨l, b, hb, covers_of_meet (dvd_root _ _) (hF.aligned hb) hlt
        (covers_root _ _) hcov hp⟩ hnot

end Family

end RHKernel.DyadicBlock
