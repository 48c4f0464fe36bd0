import Mathlib.Data.List.Basic
import Mathlib.Data.List.Induction
import Mathlib.Data.Option.Basic
import Mathlib.Data.Set.Basic

/-!
# Radix trees as successor functions

A radix tree is given by its non-null entries: `next n i` is the node that entry `i` of node `n`
points at. A path of digits is followed from a node with `follow`. When every node is the target
of at most one entry and the root of none (`IsTree`), a node determines the path that leads to it
from the root (`IsTree.follow_inj`), which is why writing to one leaf leaves the others alone.

Trees grow by filling a null entry with a fresh node (`Grows`): old paths keep their target, and
a path with a new target ends in the fresh node.

Where only part of the nodes form trees, for instance because several roots share a branch, the
paths of interest are collected in a set of pairs of a root and a path, and `Apart` says that no
two of them meet. The lemmas about entries that change are then relative to that set.
-/

namespace RHKernel.Radix

open Option

variable {ν ι : Type*} {next next' : ν → ι → Option ν} {n x root n' r r' : ν}

/-- The node a path of digits leads to. -/
def follow (next : ν → ι → Option ν) : List ι → ν → Option ν
  | [], n => some n
  | i :: path, n => (next n i).bind (follow next path)

@[simp]
theorem follow_nil (next : ν → ι → Option ν) (n : ν) : follow next [] n = some n := rfl

theorem follow_cons_eq_some {i : ι} {path : List ι} :
    follow next (i :: path) n = some x ↔ ∃ m, next n i = some m ∧ follow next path m = some x :=
  bind_eq_some_iff

theorem follow_append (next : ν → ι → Option ν) (p q : List ι) (n : ν) :
    follow next (p ++ q) n = (follow next p n).bind (follow next q) := by
  induction p generalizing n with
  | nil => rfl
  | cons i p ih =>
    rw [List.cons_append, follow, follow, bind_assoc]
    exact congrArg _ (funext ih)

theorem follow_snoc (next : ν → ι → Option ν) (p : List ι) (i : ι) (n : ν) :
    follow next (p ++ [i]) n = (follow next p n).bind fun m => next m i := by
  rw [follow_append]
  congr 1
  funext m
  rw [follow]
  cases next m i <;> rfl

theorem follow_snoc_eq_some {p : List ι} {i : ι} :
    follow next (p ++ [i]) n = some x ↔ ∃ m, follow next p n = some m ∧ next m i = some x := by
  rw [follow_snoc]
  exact bind_eq_some_iff

theorem follow_congr {path : List ι}
    (h : ∀ p i, p ++ [i] <+: path → ∀ m, follow next p n = some m → next' m i = next m i) :
    follow next' path n = follow next path n := by
  induction path using List.reverseRecOn with
  | nil => rfl
  | append_singleton p i ih =>
    have hp : follow next' p n = follow next p n :=
      ih fun q j hq => h q j (hq.trans (List.prefix_append p [i]))
    rw [follow_snoc, follow_snoc, hp]
    cases hm : follow next p n with
    | none => rfl
    | some m => exact h p i (List.prefix_refl _) m hm

/-- Every node is the target of at most one entry, and the root of none. -/
structure IsTree (next : ν → ι → Option ν) (root : ν) : Prop where
  inj : ∀ {n n' i i' x}, next n i = some x → next n' i' = some x → n = n' ∧ i = i'
  root_ne : ∀ {n i}, next n i ≠ some root

/-- Paths of one length that meet start at the same node and are equal. -/
theorem IsTree.follow_inj (ht : IsTree next root) {p q : List ι}
    (hlen : p.length = q.length) (hp : follow next p n = some x) (hq : follow next q n' = some x) :
    n = n' ∧ p = q := by
  induction p generalizing q n n' with
  | nil =>
    obtain rfl : q = [] := List.length_eq_zero_iff.mp hlen.symm
    exact ⟨some.inj (hp.trans hq.symm), rfl⟩
  | cons i p ih =>
    cases q with
    | nil => cases hlen
    | cons j q =>
      obtain ⟨m, hm, hp⟩ := follow_cons_eq_some.mp hp
      obtain ⟨m', hm', hq⟩ := follow_cons_eq_some.mp hq
      obtain ⟨rfl, rfl⟩ := ih (Nat.succ.inj hlen) hp hq
      obtain ⟨rfl, rfl⟩ := ht.inj hm hm'
      exact ⟨rfl, rfl⟩

/-- The null entry `i` of node `n` is filled with the fresh node `x`. -/
structure Grows (next next' : ν → ι → Option ν) (n : ν) (i : ι) (x : ν) : Prop where
  null : next n i = none
  filled : next' n i = some x
  others : ∀ {m j}, (m, j) ≠ (n, i) → next' m j = next m j
  ne : n ≠ x
  leaf : ∀ j, next x j = none
  fresh : ∀ {m j}, next m j ≠ some x

namespace Grows

variable {next next' : ν → ι → Option ν} {n x m y : ν} {i j : ι}

variable (hg : Grows next next' n i x)

include hg

/-- An entry of the grown tree is the new one or an old one. -/
theorem next_cases (h : next' m j = some y) : (m = n ∧ j = i ∧ y = x) ∨ next m j = some y := by
  by_cases hmj : (m, j) = (n, i)
  · obtain ⟨rfl, rfl⟩ := Prod.mk.inj hmj
    exact .inl ⟨rfl, rfl, some.inj (h.symm.trans hg.filled)⟩
  · exact .inr (by rwa [hg.others hmj] at h)

theorem next_of_old (h : next m j = some y) : next' m j = some y := by
  have hmj : (m, j) ≠ (n, i) := by
    intro heq
    obtain ⟨rfl, rfl⟩ := Prod.mk.inj heq
    rw [hg.null] at h
    cases h
  rwa [hg.others hmj]

/-- A path through the grown tree is old or ends in the fresh node. -/
theorem follow_cases {p : List ι} (h : follow next' p m = some y) :
    y = x ∨ follow next p m = some y := by
  induction p generalizing m with
  | nil => exact .inr h
  | cons j p ih =>
    obtain ⟨z, hz, hp⟩ := follow_cons_eq_some.mp h
    rcases hg.next_cases hz with ⟨rfl, rfl, rfl⟩ | hold
    · -- nothing hangs below the fresh node, so the path ends there
      rcases ih hp with hy | hy
      · exact .inl hy
      cases p with
      | nil => exact .inl (some.inj hy).symm
      | cons k p =>
        obtain ⟨w, hw, -⟩ := follow_cons_eq_some.mp hy
        rw [hg.leaf] at hw
        cases hw
    · exact (ih hp).imp_right fun hy => follow_cons_eq_some.mpr ⟨z, hold, hy⟩

theorem isTree (ht : IsTree next root) (hroot : x ≠ root) : IsTree next' root where
  inj := by
    intro a b j k y ha hb
    rcases hg.next_cases ha with ⟨rfl, rfl, rfl⟩ | ha <;>
      rcases hg.next_cases hb with ⟨rfl, rfl, hy⟩ | hb
    · exact ⟨rfl, rfl⟩
    · exact absurd hb hg.fresh
    · exact absurd (hy ▸ ha) hg.fresh
    · exact ht.inj ha hb
  root_ne := by
    intro a j ha
    rcases hg.next_cases ha with ⟨-, -, hy⟩ | ha
    · exact hroot hy.symm
    · exact ht.root_ne ha

end Grows

/-! ### Families of paths -/

/-- A set of paths, each with the root it starts from, that contains every beginning of its
members. -/
def Closed (W : Set (ν × List ι)) : Prop :=
  ∀ {r p q}, (r, p ++ q) ∈ W → (r, p) ∈ W

/-- Different paths of the set lead to different nodes. -/
def Apart (next : ν → ι → Option ν) (W : Set (ν × List ι)) : Prop :=
  ∀ {r r' p p' x}, (r, p) ∈ W → (r', p') ∈ W → follow next p r = some x →
    follow next p' r' = some x → r = r' ∧ p = p'

/-- A node that a path of the set leads to. -/
def Reached (next : ν → ι → Option ν) (W : Set (ν × List ι)) (x : ν) : Prop :=
  ∃ r p, (r, p) ∈ W ∧ follow next p r = some x

section Families

variable {next next' : ν → ι → Option ν} {W : Set (ν × List ι)}

/-- Changes away from the nodes reached do not matter. -/
theorem follow_of_unreached (hW : Closed W)
    (h : ∀ {m i}, Reached next W m → next' m i = next m i) {p : List ι}
    (hp : (r, p) ∈ W) : follow next' p r = follow next p r := by
  refine follow_congr fun q i hq m hm => h ⟨r, q, ?_, hm⟩
  obtain ⟨t, rfl⟩ := hq
  exact hW (hW hp)

/-- An entry that no path of the set goes through may change. -/
theorem follow_of_leaf (hW : Closed W) (ha : Apart next W) {p : List ι} {i : ι}
    (hp : (r, p) ∈ W) (hn : follow next p r = some n) (hleaf : (r, p ++ [i]) ∉ W)
    (h : ∀ {m j}, (m, j) ≠ (n, i) → next' m j = next m j) {p' : List ι}
    (hp' : (r', p') ∈ W) : follow next' p' r' = follow next p' r' := by
  refine follow_congr fun q j hq m hm => h fun heq => ?_
  obtain ⟨rfl, rfl⟩ := Prod.mk.inj heq
  obtain ⟨t, rfl⟩ := hq
  have hqj : (r', q ++ [j]) ∈ W := hW hp'
  obtain ⟨rfl, rfl⟩ := ha hp (hW hqj) hn hm
  exact hleaf hqj

/-- The entry `i` of the node `n`, which `p` leads to from `r`, becomes null. -/
structure CutsAt (next next' : ν → ι → Option ν) (W : Set (ν × List ι)) (r : ν) (p : List ι)
    (i : ι) (n : ν) : Prop where
  mem : (r, p) ∈ W
  at_end : follow next p r = some n
  null : next' n i = none
  others : ∀ {m j}, (m, j) ≠ (n, i) → next' m j = next m j

namespace CutsAt

variable {r n : ν} {p p' : List ι} {i : ι}

/-- Paths that do not go through the entry keep their target. -/
theorem follow_elsewhere (hc : CutsAt next next' W r p i n) (hW : Closed W)
    (ha : Apart next W) (hp : (r', p') ∈ W)
    (h : ¬(r' = r ∧ p ++ [i] <+: p')) : follow next' p' r' = follow next p' r' := by
  refine follow_congr fun q j hq m hm => hc.others fun heq => h ?_
  obtain ⟨rfl, rfl⟩ := Prod.mk.inj heq
  obtain ⟨t, rfl⟩ := id hq
  obtain ⟨rfl, rfl⟩ := ha hc.mem (hW (hW hp)) hc.at_end hm
  exact ⟨rfl, hq⟩

end CutsAt

/-- The null entry `i` of the node `n`, which `p` leads to from `r`, is filled with a node `x`
that no path of the set reaches and that has no entries. -/
structure GrowsAt (next next' : ν → ι → Option ν) (W : Set (ν × List ι)) (r : ν) (p : List ι)
    (i : ι) (n x : ν) : Prop where
  mem : (r, p ++ [i]) ∈ W
  at_end : follow next p r = some n
  null : next n i = none
  filled : next' n i = some x
  others : ∀ {m j}, (m, j) ≠ (n, i) → m ≠ x → next' m j = next m j
  empty : ∀ j, next' x j = none
  fresh : ¬Reached next W x

namespace GrowsAt

variable {r n x y : ν} {p p' : List ι} {i : ι}

variable (hg : GrowsAt next next' W r p i n x)

include hg

theorem follow_old (hW : Closed W)
    (hp : (r', p') ∈ W) (h : follow next p' r' = some y) :
    follow next' p' r' = some y := by
  rw [← h]
  refine follow_congr fun q j hq m hm => ?_
  obtain ⟨t, rfl⟩ := hq
  have hmx : m ≠ x := fun hmx => hg.fresh (hmx ▸ ⟨r', q, hW (hW hp), hm⟩)
  refine hg.others (fun heq => ?_) hmx
  obtain ⟨rfl, rfl⟩ := Prod.mk.inj heq
  -- the old path cannot go through a null entry
  rw [follow_append, follow_snoc, hm, bind_some, hg.null, bind_none] at h
  cases h

theorem follow_new (hW : Closed W) :
    follow next' (p ++ [i]) r = some x :=
  follow_snoc_eq_some.mpr ⟨n, hg.follow_old hW (hW hg.mem) hg.at_end, hg.filled⟩

theorem follow_cases (hW : Closed W) (ha : Apart next W)
    (hp : (r', p') ∈ W) (h : follow next' p' r' = some y) :
    follow next p' r' = some y ∨ (r' = r ∧ p' = p ++ [i] ∧ y = x) := by
  induction p' using List.reverseRecOn generalizing y with
  | nil => exact .inl h
  | append_singleton q j ih =>
    obtain ⟨m, hm, hy⟩ := follow_snoc_eq_some.mp h
    rcases ih (hW hp) hm with hold | ⟨rfl, rfl, rfl⟩
    · by_cases heq : (m, j) = (n, i)
      · obtain ⟨rfl, rfl⟩ := Prod.mk.inj heq
        obtain ⟨rfl, rfl⟩ := ha (hW hg.mem) (hW hp) hg.at_end hold
        exact .inr ⟨rfl, rfl, some.inj (hy.symm.trans hg.filled)⟩
      · have hmx : m ≠ x := fun hmx => hg.fresh (hmx ▸ ⟨r', q, hW hp, hold⟩)
        rw [hg.others heq hmx] at hy
        exact .inl (follow_snoc_eq_some.mpr ⟨m, hold, hy⟩)
    · rw [hg.empty] at hy
      cases hy

theorem apart (hW : Closed W) (ha : Apart next W) : Apart next' W := by
  intro r1 r2 p1 p2 y hp1 hp2 h1 h2
  rcases hg.follow_cases hW ha hp1 h1 with hold1 | ⟨rfl, rfl, hx1⟩ <;>
    rcases hg.follow_cases hW ha hp2 h2 with hold2 | ⟨rfl, rfl, hx2⟩
  · exact ha hp1 hp2 hold1 hold2
  · exact absurd ⟨_, _, hp1, hx2 ▸ hold1⟩ hg.fresh
  · exact absurd ⟨_, _, hp2, hx1 ▸ hold2⟩ hg.fresh
  · exact ⟨rfl, rfl⟩

end GrowsAt

end Families

end RHKernel.Radix
