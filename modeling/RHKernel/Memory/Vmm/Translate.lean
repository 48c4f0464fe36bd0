import Mathlib.Tactic.IntervalCases
import RHKernel.Memory.Vmm.Fault

/-!
# Translation

What an address translates to is the first entry on the way that maps a page: a last-level entry,
or an entry with the huge bit one or two levels above. `Leaf` is that entry together with its
level; `get_mapping` computes from it, and reads `0` when there is none (`getMapping_of_leaf`,
`getMapping_of_no_leaf`).

The tables below one root form a tree. Filling a missing table changes no translation; storing an
entry that maps a page, or a null entry, changes the translation of the addresses that entry
covers and of no others. On canonical addresses these are the addresses of one aligned block.
-/

namespace RHKernel.Vmm

open Bits Option PageFlags Pmm Radix Step

variable {a b level t i k r r' n virt : ℕ} {c : Config}

/-- The bytes an entry at a level covers. -/
def span (c : Config) (level : ℕ) : ℕ := 512 ^ (c.levels - 1 - level) * pageSize

theorem span_pos (c : Config) (level : ℕ) : 0 < span c level :=
  mul_pos (Nat.pow_pos (by decide)) pageSize_pos

theorem span_eq (c : Config) (level : ℕ) :
    span c level = 2 ^ (12 + 9 * (c.levels - 1 - level)) := by
  rw [span, show 512 = 2 ^ 9 from rfl, ← pow_mul, show pageSize = 2 ^ 12 from rfl, ← pow_add,
    add_comm]

/-- An address whose upper bits repeat its highest significant one. -/
def Canonical (c : Config) (a : ℕ) : Prop := a < c.userTop ∨ (2 ^ 64 - c.userTop ≤ a ∧ a < 2 ^ 64)

/-- The number of the entry of an address among all entries of a level. -/
theorem levelIndex_span (c : Config) (a level : ℕ) :
    levelIndex c a level = a / span c level % 512 := by
  have hmask : ∀ n, n &&& 0x1FF = n % 512 := fun n => Nat.and_two_pow_sub_one_eq_mod n 9
  rw [levelIndex, hmask, Nat.shiftRight_eq_div_pow, levelShift, span_eq]

theorem span_pred (h : level + 1 < c.levels) : span c level = span c (level + 1) * 512 := by
  rw [span, span, show c.levels - 1 - level = c.levels - 1 - (level + 1) + 1 by omega, pow_succ]
  ring

/-- The indices of an address down to a level are the digits of the number of its entry. -/
theorem path_eq_iff (c : Config) (hl : level < c.levels) :
    path c a (level + 1) = path c b (level + 1) ↔
      a / span c level % 512 ^ (level + 1) = b / span c level % 512 ^ (level + 1) := by
  induction level with
  | zero =>
    rw [path_succ, path_succ, levelIndex_span, levelIndex_span, path_zero, path_zero]
    simp
  | succ level ih =>
    have hdiv : ∀ x, x / span c level = x / span c (level + 1) / 512 := fun x => by
      rw [span_pred hl, Nat.div_div_eq_div_mul]
    have hsplit : ∀ x, x / span c (level + 1) % 512 ^ (level + 1 + 1) =
        x / span c (level + 1) % 512 + 512 * (x / span c level % 512 ^ (level + 1)) := fun x => by
      rw [hdiv, pow_succ' 512 (level + 1), Nat.mod_mul]
    rw [path_succ c a (level + 1), path_succ c b (level + 1), levelIndex_span, levelIndex_span,
      hsplit, hsplit]
    constructor
    · intro h
      obtain ⟨h1, h2⟩ := List.append_inj' h rfl
      rw [(ih (by omega)).mp h1, (List.cons.inj h2).1]
    · intro h
      have hmod : a / span c (level + 1) % 512 = b / span c (level + 1) % 512 := by omega
      rw [(ih (by omega)).mpr (by omega), hmod]

/-- On canonical addresses an entry covers one aligned block. -/
theorem path_eq_iff_of_canonical (ha : Canonical c a) (hb : Canonical c b) (hl : level < c.levels)
    (hdvd : span c level ∣ b) :
    path c a (level + 1) = path c b (level + 1) ↔ b ≤ a ∧ a < b + span c level := by
  rw [path_eq_iff c hl]
  unfold Canonical Config.userTop at ha hb
  rw [span_eq] at hdvd ⊢
  -- with the number of levels fixed, all sizes are numbers
  rcases c.levels_eq with h | h <;> rw [h] at ha hb hl hdvd ⊢ <;> interval_cases level <;>
    simp only [Nat.reducePow, Nat.reduceMul, Nat.reduceAdd, Nat.reduceSub] at ha hb hdvd ⊢ <;>
    omega

/-! ### Entries that map pages -/

theorem next_of_isLeaf {mem : ℕ → ℕ → Pte} (h : IsLeaf c level (mem t i))
    (hl : level + 1 < c.levels) : next c mem t i = none := by
  rcases h.2 with h1 | ⟨-, h1⟩
  · omega
  · rw [next, h.1, h1]
    rfl

/-- The value `get_mapping` reads off an entry. -/
def mappedPage (c : Config) (virt level : ℕ) (e : Pte) : ℕ :=
  alignDown (frame c e + virt % span c level) pageSize

theorem span_last (h : level + 1 = c.levels) : span c level = pageSize := by
  rw [span, show c.levels - 1 - level = 0 by omega, pow_zero, one_mul]

theorem span_2m (h : level + 2 = c.levels) : span c level = 0x200000 := by
  rw [span, show c.levels - 1 - level = 1 by omega]
  rfl

theorem span_1g (h : level + 3 = c.levels) : span c level = 0x40000000 := by
  rw [span, show c.levels - 1 - level = 2 by omega]
  rfl

section Mapping

variable {c : Config} {s : State} {virt n table level t m r : ℕ}

/-- The loop of `get_mapping` at an entry that maps a page. -/
theorem mappingFrom_leaf (h : IsLeaf c level (s.mem table (levelIndex c virt level))) :
    mappingFrom c s virt (n + 1) level table =
      mappedPage c virt level (s.mem table (levelIndex c virt level)) := by
  rw [mappingFrom, mappedPage]
  simp only [h.1, Bool.not_true, Bool.false_eq_true, if_false, isHuge1g, isHuge2m]
  rcases h.2 with hl | ⟨hl | hl, hhuge⟩
  · rw [span_last hl]
    simp [hl, show level + 3 ≠ c.levels by omega, show level + 2 ≠ c.levels by omega]
  · rw [span_2m hl]
    simp [hhuge, hl, show level + 3 ≠ c.levels by omega]
  · rw [span_1g hl]
    simp [hhuge, hl]

theorem next_eq_some {mem : ℕ → ℕ → Pte} (h : next c mem table i = some t) :
    (mem table i).has present = true ∧ (mem table i).has huge = false ∧
      frame c (mem table i) = t := by
  unfold next at h
  split at h
  · rename_i hbits
    rw [Bool.and_eq_true, Bool.not_eq_true'] at hbits
    exact ⟨hbits.1, hbits.2, some.inj h⟩
  · cases h

/-- A present entry that neither maps a page nor points at a table is huge at another level. -/
theorem huge_of_not_isLeaf {mem : ℕ → ℕ → Pte} (hleaf : ¬IsLeaf c level (mem table i))
    (hp : (mem table i).has present = true) (h : level + 1 ≠ c.levels → next c mem table i = none) :
    (mem table i).has huge = true ∧ level + 1 ≠ c.levels ∧ level + 2 ≠ c.levels ∧
      level + 3 ≠ c.levels := by
  have hlast : level + 1 ≠ c.levels := fun heq => hleaf ⟨hp, .inl heq⟩
  have hhuge : (mem table i).has huge = true := by
    have hnone := h hlast
    rw [next, hp, Bool.true_and] at hnone
    by_contra hh
    rw [Bool.not_eq_true] at hh
    rw [hh] at hnone
    cases hnone
  exact ⟨hhuge, hlast, fun heq => hleaf ⟨hp, .inr ⟨.inl heq, hhuge⟩⟩,
    fun heq => hleaf ⟨hp, .inr ⟨.inr heq, hhuge⟩⟩⟩

/-- The loop of `get_mapping` at an entry that points at a table. -/
theorem mappingFrom_next (hl : level + 1 ≠ c.levels)
    (h : next c s.mem table (levelIndex c virt level) = some t) :
    mappingFrom c s virt (n + 1) level table = mappingFrom c s virt n (level + 1) t := by
  obtain ⟨hp, hh, rfl⟩ := next_eq_some h
  rw [mappingFrom]
  simp only [hp, hh, Bool.not_true, Bool.false_eq_true, if_false, isHuge1g, isHuge2m,
    Bool.and_false, hl]

/-- The loop of `get_mapping` at any other entry. -/
theorem mappingFrom_none (hleaf : ¬IsLeaf c level (s.mem table (levelIndex c virt level)))
    (h : level + 1 ≠ c.levels → next c s.mem table (levelIndex c virt level) = none) :
    mappingFrom c s virt (n + 1) level table = 0 := by
  rw [mappingFrom]
  cases hp : (s.mem table (levelIndex c virt level)).has present with
  | false => rfl
  | true =>
    obtain ⟨hhuge, hlast, h2, h1⟩ := huge_of_not_isLeaf hleaf hp h
    simp [isHuge1g, isHuge2m, h1, h2, hlast, hhuge]

/-- The indices between two levels. -/
def steps (c : Config) (virt level m : ℕ) : List ℕ := (List.range' level m).map (levelIndex c virt)

theorem steps_zero (c : Config) (virt m : ℕ) : steps c virt 0 m = path c virt m := by
  rw [steps, path, List.range_eq_range']

theorem mappingFrom_of_leaf (hn : level + n = c.levels)
    (hf : follow (next c s.mem) (steps c virt level m) table = some t)
    (h : IsLeaf c (level + m) (s.mem t (levelIndex c virt (level + m)))) :
    mappingFrom c s virt n level table =
      mappedPage c virt (level + m) (s.mem t (levelIndex c virt (level + m))) := by
  have hlt := h.lt
  induction m generalizing n level table with
  | zero =>
    obtain rfl := some.inj hf
    obtain ⟨k, rfl⟩ : ∃ k, n = k + 1 := ⟨n - 1, by omega⟩
    exact mappingFrom_leaf h
  | succ m ih =>
    obtain ⟨k, rfl⟩ : ∃ k, n = k + 1 := ⟨n - 1, by omega⟩
    obtain ⟨t', hnext, hf⟩ := follow_cons_eq_some.mp hf
    rw [mappingFrom_next (by omega) hnext]
    have hshift : level + (m + 1) = level + 1 + m := by omega
    rw [hshift] at h hlt ⊢
    exact ih (by omega) hf h hlt

theorem mappingFrom_of_no_leaf (hn : level + n = c.levels)
    (h : ∀ m t, m < n → follow (next c s.mem) (steps c virt level m) table = some t →
      ¬IsLeaf c (level + m) (s.mem t (levelIndex c virt (level + m)))) :
    mappingFrom c s virt n level table = 0 := by
  induction n generalizing level table with
  | zero => rfl
  | succ n ih =>
    have hself := h 0 table (Nat.succ_pos n) rfl
    by_cases hnext : level + 1 ≠ c.levels ∧
        ∃ t, next c s.mem table (levelIndex c virt level) = some t
    · obtain ⟨hl, t, ht⟩ := hnext
      rw [mappingFrom_next hl ht]
      refine ih (by omega) fun m t' hm hf => ?_
      rw [show level + 1 + m = level + (m + 1) by omega]
      refine h (m + 1) t' (by omega) ?_
      exact follow_cons_eq_some.mpr ⟨t, ht, hf⟩
    · refine mappingFrom_none hself fun hl => ?_
      by_contra hne
      exact hnext ⟨hl, ne_none_iff_exists'.mp hne⟩

theorem getMapping_of_leaf {e : Pte} (hr : IsFrame c r) (h : Leaf c s.mem r virt level e) :
    getMapping c s virt r = mappedPage c virt level e := by
  obtain ⟨t, hf, rfl, hleaf⟩ := h
  rw [getMapping, frame_ofNat hr]
  have hz : IsLeaf c (0 + level) (s.mem t (levelIndex c virt (0 + level))) := by
    rwa [zero_add]
  have hmap := mappingFrom_of_leaf (zero_add c.levels)
    (by rw [steps_zero]; exact hf : follow (next c s.mem) (steps c virt 0 level) r = some t) hz
  rw [hmap, zero_add]

theorem getMapping_of_no_leaf (hr : IsFrame c r)
    (h : ∀ level e, ¬Leaf c s.mem r virt level e) : getMapping c s virt r = 0 := by
  rw [getMapping, frame_ofNat hr]
  refine mappingFrom_of_no_leaf (zero_add c.levels) fun m t _ hf hleaf => ?_
  rw [steps_zero] at hf
  rw [zero_add] at hleaf
  exact h m _ ⟨t, hf, rfl, hleaf⟩

end Mapping

/-! ### Stores -/

/-- All paths below one root. -/
def treePaths (c : Config) (r : ℕ) : Set (ℕ × List ℕ) := {x | ∃ virt, x ∈ pathsTo c r virt}

theorem closed_treePaths (c : Config) (r : ℕ) : Closed (treePaths c r) := by
  rintro r' p q ⟨virt, h⟩
  exact ⟨virt, closed_pathsTo c r virt h⟩

theorem path_mem_treePaths (c : Config) (r virt : ℕ) (hk : k < c.levels) :
    (r, path c virt k) ∈ treePaths c r :=
  ⟨virt, mem_pathsTo c r virt (by omega)⟩

theorem length_lt_of_mem_treePaths {p : List ℕ} (h : (r', p) ∈ treePaths c r) :
    p.length < c.levels := by
  obtain ⟨virt, k, hk, heq⟩ := h
  have := c.levels_pos
  rw [(Prod.mk.inj heq).2, length_path]
  omega

theorem path_prefix_iff (h : path c a k <+: path c b n) : k ≤ n ∧ path c b k = path c a k := by
  have hle := h.length_le
  rw [length_path, length_path] at hle
  obtain ⟨m, rfl⟩ := Nat.exists_eq_add_of_le hle
  obtain ⟨t, ht⟩ := h
  rw [path_add] at ht
  exact ⟨hle, (List.append_inj_left ht (by rw [length_path, length_path])).symm⟩

section Store

variable {c : Config} {mem mem' : ℕ → ℕ → Pte} {r t virt level a k : ℕ} {e e' : Pte}

/-- The entry of `virt` on a level becomes `e`, which does not point at a table. -/
structure StoredAt (c : Config) (mem mem' : ℕ → ℕ → Pte) (r virt level t : ℕ) (e : Pte) :
    Prop where
  lt : level < c.levels
  at_end : follow (next c mem) (path c virt level) r = some t
  entry : mem' t (levelIndex c virt level) = e
  others : ∀ {m j}, (m, j) ≠ (t, levelIndex c virt level) → mem' m j = mem m j
  page : level + 1 < c.levels → (e.has present && !e.has huge) = false

variable (h : StoredAt c mem mem' r virt level t e)

include h

variable (ha : Apart (next c mem) (treePaths c r))

include ha

theorem StoredAt.follow_elsewhere (hk : k < c.levels)
    (hne : level < k → path c a (level + 1) ≠ path c virt (level + 1)) :
    follow (next c mem') (path c a k) r = follow (next c mem) (path c a k) r := by
  have hmem := path_mem_treePaths c r virt h.lt
  have hothers : ∀ {m j}, (m, j) ≠ (t, levelIndex c virt level) →
      next c mem' m j = next c mem m j := fun hmj => next_congr (h.others hmj)
  by_cases hlast : level + 1 < c.levels
  · have hcut : CutsAt (next c mem) (next c mem') (treePaths c r) r (path c virt level)
        (levelIndex c virt level) t :=
      ⟨hmem, h.at_end, by rw [next, h.entry, h.page hlast]; rfl, hothers⟩
    refine hcut.follow_elsewhere (closed_treePaths c r) ha (path_mem_treePaths c r a hk) ?_
    rintro ⟨-, hpre⟩
    rw [← path_succ] at hpre
    obtain ⟨hle, heq⟩ := path_prefix_iff hpre
    exact hne hle heq
  · refine follow_of_leaf (closed_treePaths c r) ha hmem h.at_end ?_ hothers
      (path_mem_treePaths c r a hk)
    intro hin
    have hlen := length_lt_of_mem_treePaths hin
    rw [List.length_append, length_path, List.length_singleton] at hlen
    omega

theorem StoredAt.follow_through (hk : k < c.levels) (hlt : level < k)
    (heq : path c a (level + 1) = path c virt (level + 1)) :
    follow (next c mem') (path c a k) r = none := by
  obtain ⟨m, rfl⟩ := Nat.exists_eq_add_of_le hlt
  rw [path_add, heq, follow_append, path_succ, follow_snoc,
    h.follow_elsewhere ha h.lt (fun hh => absurd hh (lt_irrefl _)), h.at_end, bind_some,
    next, h.entry, h.page (by omega)]
  rfl

/-- Addresses with another entry translate as before. -/
theorem StoredAt.leaf_elsewhere (hne : path c a (level + 1) ≠ path c virt (level + 1))
    : Leaf c mem' r a k e' ↔ Leaf c mem r a k e' := by
  refine exists_congr fun m => ?_
  by_cases hk : k < c.levels
  · rw [h.follow_elsewhere ha hk fun _ => hne]
    refine and_congr_right fun hf => ?_
    rw [h.others]
    intro heq
    obtain ⟨rfl, hidx⟩ := Prod.mk.inj heq
    -- the same table is reached on one path only
    obtain ⟨-, hpath⟩ := ha (path_mem_treePaths c r a hk) (path_mem_treePaths c r virt h.lt) hf
      h.at_end
    have hlen := congrArg List.length hpath
    rw [length_path, length_path] at hlen
    subst hlen
    exact hne (by rw [path_succ, path_succ, hpath, hidx])
  · constructor <;> exact fun hx => absurd hx.2.2.lt hk

/-- Addresses with this entry translate through it, or not at all. -/
theorem StoredAt.leaf_through (heq : path c a (level + 1) = path c virt (level + 1))
    : Leaf c mem' r a k e' ↔ k = level ∧ e' = e ∧ IsLeaf c level e := by
  rw [path_succ, path_succ] at heq
  obtain ⟨hpath, hidx⟩ := List.append_inj' heq rfl
  have hidx := (List.cons.inj hidx).1
  have hself : follow (next c mem') (path c a level) r = some t := by
    rw [h.follow_elsewhere ha h.lt (fun hh => absurd hh (lt_irrefl _)), hpath, h.at_end]
  constructor
  · rintro ⟨m, hf, rfl, hleaf⟩
    rcases lt_trichotomy k level with hlt | rfl | hlt
    · -- an entry above cannot map a page: the path goes on below it
      exfalso
      obtain ⟨n, rfl⟩ := Nat.exists_eq_add_of_le hlt
      rw [path_add, path_succ, follow_append, follow_snoc, hf, bind_some,
        next_of_isLeaf hleaf (by have := h.lt; omega)] at hself
      cases hself
    · rw [hself] at hf
      obtain rfl := some.inj hf
      rw [hidx, h.entry] at hleaf ⊢
      exact ⟨rfl, rfl, hleaf⟩
    · rw [h.follow_through ha hleaf.lt hlt (by rw [path_succ, path_succ, hpath, hidx])] at hf
      cases hf
  · rintro ⟨rfl, rfl, hleaf⟩
    exact ⟨t, hself, by rw [hidx, h.entry], hleaf⟩

end Store

/-- Such a store keeps the tables a tree. -/
theorem Tables.storedAt {managed live : ℕ → ℕ} {s s' : State} {e : Pte}
    (hT : Tables c managed (treePaths c r) live s) (hpmm : s'.pmm = s.pmm)
    (h : StoredAt c s.mem s'.mem r virt level t e) : Tables c managed (treePaths c r) live s' := by
  have hold : ∀ {r' p x}, (r', p) ∈ treePaths c r → follow (next c s'.mem) p r' = some x →
      follow (next c s.mem) p r' = some x := by
    rintro r' p x ⟨a, k, hk, heq⟩ hf
    obtain ⟨rfl, rfl⟩ := Prod.mk.inj heq
    have hk' : k < c.levels := by
      have := c.levels_pos
      omega
    by_cases hthrough : level < k ∧ path c a (level + 1) = path c virt (level + 1)
    · rw [h.follow_through hT.apart hk' hthrough.1 hthrough.2] at hf
      cases hf
    · rwa [h.follow_elsewhere hT.apart hk' fun hlt heq => hthrough ⟨hlt, heq⟩] at hf
  refine ⟨hT.closed, hpmm ▸ hT.inv, hT.zero, hT.fits,
    fun hp hp' hf hf' => hT.apart hp hp' (hold hp hf) (hold hp' hf'), ?_⟩
  rintro x ⟨r', p, hp, hx⟩
  exact hT.held ⟨r', p, hp, hold hp hx⟩

end RHKernel.Vmm
