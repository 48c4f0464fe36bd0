import Mathlib.Algebra.Order.Group.Nat
import Mathlib.Data.List.Nodup
import Mathlib.Data.List.Pairwise

/-!
# Index trees

A tree of tables with `p` entries each: `D n k` is entry `k` of the table `n`, and the null entry
`0` has nothing below. A tree of depth `d` maps the numbers below `p ^ d` to the entries of its
lowest tables, by their digits to the base `p` (`look`). What the map depends on are the tables on
the way (`nodes`).

A store into one table is described by `look_store`: the map changes below the entry stored, as the
new entry says, and nowhere else, provided the tables below the other entries are left alone.
-/

namespace RHKernel.IndexTree

open List

variable {ν : Type*} [Zero ν] [DecidableEq ν] {D D' : ν → ℕ → ν} {p d j : ℕ} {n m c : ν}
  {i slot : ℕ}

/-- What the number `i` is mapped to below `n`. -/
def look (D : ν → ℕ → ν) (p : ℕ) : ℕ → ν → ℕ → ν
  | 0, n, _ => n
  | d + 1, n, i => if n = 0 then 0 else look D p d (D n (i / p ^ d)) (i % p ^ d)

/-- The tables of a tree of depth `d`. -/
def nodes (D : ν → ℕ → ν) (p : ℕ) : ℕ → ν → List ν
  | 0, _ => []
  | d + 1, n => if n = 0 then [] else n :: (range p).flatMap fun k => nodes D p d (D n k)

@[simp]
theorem look_null (D : ν → ℕ → ν) (p d i : ℕ) : look D p d 0 i = 0 := by
  cases d with
  | zero => rfl
  | succ d => exact if_pos rfl

@[simp]
theorem nodes_null (D : ν → ℕ → ν) (p d : ℕ) : nodes D p d 0 = [] := by
  cases d with
  | zero => rfl
  | succ d => exact if_pos rfl

theorem look_succ (hn : n ≠ 0) :
    look D p (d + 1) n i = look D p d (D n (i / p ^ d)) (i % p ^ d) :=
  if_neg hn

theorem mem_nodes_succ :
    m ∈ nodes D p (d + 1) n ↔ n ≠ 0 ∧ (m = n ∨ ∃ k < p, m ∈ nodes D p d (D n k)) := by
  by_cases hn : n = 0
  · simp only [hn, nodes_null, not_mem_nil, ne_eq, not_true_eq_false, false_and]
  · rw [nodes, if_neg hn, mem_cons, mem_flatMap]
    simp only [mem_range, ne_eq, hn, not_false_eq_true, true_and]

theorem self_mem_nodes (hn : n ≠ 0) : n ∈ nodes D p (d + 1) n := mem_nodes_succ.mpr ⟨hn, .inl rfl⟩

theorem mem_nodes_of_child (hn : n ≠ 0) (hslot : slot < p) (h : m ∈ nodes D p d (D n slot)) :
    m ∈ nodes D p (d + 1) n :=
  mem_nodes_succ.mpr ⟨hn, .inr ⟨slot, hslot, h⟩⟩

theorem digit_lt (hi : i < p ^ (d + 1)) : i / p ^ d < p :=
  Nat.div_lt_of_lt_mul (by rwa [← Nat.pow_succ])

theorem rest_lt (hi : i < p ^ (d + 1)) : i % p ^ d < p ^ d := by
  refine Nat.mod_lt _ (Nat.pos_of_ne_zero fun h => ?_)
  rw [Nat.pow_succ, h, Nat.zero_mul] at hi
  exact Nat.not_lt_zero _ hi

theorem look_congr (h : ∀ m ∈ nodes D p d n, ∀ k < p, D' m k = D m k) (hi : i < p ^ d) :
    look D' p d n i = look D p d n i := by
  induction d generalizing n i with
  | zero => rfl
  | succ d ih =>
    by_cases hn : n = 0
    · rw [hn, look_null, look_null]
    · have hslot := digit_lt hi
      rw [look_succ hn, look_succ hn, h n (self_mem_nodes hn) _ hslot]
      exact ih (fun m hm => h m (mem_nodes_of_child hn hslot hm)) (rest_lt hi)

theorem nodes_congr (h : ∀ m ∈ nodes D p d n, ∀ k < p, D' m k = D m k) :
    nodes D' p d n = nodes D p d n := by
  induction d generalizing n with
  | zero => rfl
  | succ d ih =>
    by_cases hn : n = 0
    · rw [hn, nodes_null, nodes_null]
    rw [nodes, nodes, if_neg hn, if_neg hn]
    refine congrArg _ (flatMap_congr fun k hk => ?_)
    have hk := mem_range.mp hk
    rw [h n (self_mem_nodes hn) k hk]
    exact ih fun m hm => h m (mem_nodes_of_child hn hk hm)

theorem look_store (hn : n ≠ 0) (hself : ∀ k < p, D' n k = if k = slot then c else D n k)
    (hrest : ∀ k < p, k ≠ slot → ∀ m ∈ nodes D p d (D n k), ∀ j < p, D' m j = D m j)
    (hi : i < p ^ (d + 1)) :
    look D' p (d + 1) n i =
      if i / p ^ d = slot then look D' p d c (i % p ^ d) else look D p (d + 1) n i := by
  have hdigit := digit_lt hi
  rw [look_succ hn, look_succ hn, hself _ hdigit]
  by_cases hslot : i / p ^ d = slot
  · rw [if_pos hslot, if_pos hslot]
  · rw [if_neg hslot, if_neg hslot]
    exact look_congr (hrest _ hdigit hslot) (rest_lt hi)

/-- Distinct tables: none is below itself, and no two entries share one. -/
theorem nodup_succ (hn : n ≠ 0) (h : (nodes D p (d + 1) n).Nodup) :
    (∀ k < p, n ∉ nodes D p d (D n k)) ∧ (∀ k < p, (nodes D p d (D n k)).Nodup) ∧
      ∀ k < p, ∀ j < p, k ≠ j → ∀ m ∈ nodes D p d (D n k), m ∉ nodes D p d (D n j) := by
  rw [nodes, if_neg hn, nodup_cons, nodup_flatMap] at h
  obtain ⟨hself, hnodup, hpair⟩ := h
  refine ⟨fun k hk hmem => hself ?_, fun k hk => hnodup k (mem_range.mpr hk), ?_⟩
  · exact mem_flatMap.mpr ⟨k, mem_range.mpr hk, hmem⟩
  · intro k hk j hj hkj m hmk hmj
    have : Std.Symm (Function.onFun Disjoint fun k => nodes D p d (D n k)) :=
      ⟨fun _ _ hd _ h1 h2 => hd h2 h1⟩
    exact hpair.forall (mem_range.mpr hk) (mem_range.mpr hj) hkj hmk hmj

theorem eq_iff_digit_rest : i = j ↔ i / p ^ d = j / p ^ d ∧ i % p ^ d = j % p ^ d := by
  refine ⟨fun h => by rw [h]; exact ⟨rfl, rfl⟩, fun ⟨hdiv, hmod⟩ => ?_⟩
  rw [← Nat.div_add_mod i (p ^ d), hdiv, hmod, Nat.div_add_mod]

end RHKernel.IndexTree
