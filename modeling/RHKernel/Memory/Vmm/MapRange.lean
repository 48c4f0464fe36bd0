import RHKernel.Memory.Vmm.Translate

/-!
# Mapping and unmapping ranges

`map_range` covers a range greedily with pages of three sizes and `unmap_range` goes through it
page by page. Both are followed here one entry at a time with the lemmas on stores: after a step
the addresses of one aligned block translate through the new entry, or not at all, and all others
as before.

The address that `get_mapping` reads off a large page is wrong when the page is write-combining:
there the caching bit is bit 12, which `get_mapping` takes for part of the address.
`mapRange_correct_iff` says exactly when the three functions fit together.
-/

namespace RHKernel.Vmm

open Bits Option PageFlags Pmm Radix Step

/-- The entry `map_page` stores. -/
def leafEntry (c : Config) (phys : ℕ) (flags : Pte) (size : PageSize) : Pte :=
  (BitVec.ofNat 64 phys &&& c.physAddrMask) ||| makeLeafFlags c flags size

/-- A combination of page flags: the address field is empty. -/
def IsFlags (flags : Pte) : Prop := ∀ i, 12 ≤ i → i < 52 → flags.getLsbD i = false

theorem isFlags_twoPow {k : ℕ} (h : k < 12 ∨ 52 ≤ k) : IsFlags (.twoPow 64 k) := by
  intro i h1 h2
  rw [BitVec.getLsbD_twoPow, Bool.and_eq_false_imp]
  exact fun _ => decide_eq_false (by omega)

/-- The caching bit of a large write-combining page. -/
def largeWc (c : Config) (flags : Pte) (size : PageSize) : Bool :=
  flags.has writeCombining && c.supportsWc && size ≠ .size4K

section Entries

variable {c : Config} {phys i : ℕ} {flags : Pte} {size : PageSize}

theorem makeLeafFlags_present (c : Config) (flags : Pte) (size : PageSize) :
    (makeLeafFlags c flags size).getLsbD 0 = true := by
  unfold makeLeafFlags
  cases c.supportsNx <;> cases Pte.has flags writeCombining <;> cases c.supportsWc <;>
    cases size <;> simp [present, writeCombining, nx, writeThrough, noCache, huge]

theorem makeLeafFlags_huge (c : Config) (flags : Pte) (h : size ≠ .size4K) :
    (makeLeafFlags c flags size).getLsbD 7 = true := by
  unfold makeLeafFlags
  cases c.supportsNx <;> cases Pte.has flags writeCombining <;> cases c.supportsWc <;>
    cases size <;> simp_all [present, writeCombining, nx, writeThrough, noCache, huge]

/-- The flags leave the address field alone, except for the caching bit of a large page. -/
theorem makeLeafFlags_field (hf : IsFlags flags) (h1 : 12 ≤ i) (h2 : i < 52) :
    (makeLeafFlags c flags size).getLsbD i = (largeWc c flags size && i == 12) := by
  have hbit := hf i h1 h2
  have hp : present.getLsbD i = false := isFlags_twoPow (by decide) i h1 h2
  have hh : huge.getLsbD i = false := isFlags_twoPow (by decide) i h1 h2
  have h7 : (BitVec.twoPow 64 7).getLsbD i = false := isFlags_twoPow (by decide) i h1 h2
  have h12 : (BitVec.twoPow 64 12).getLsbD i = (i == 12) := by
    rw [BitVec.getLsbD_twoPow]
    by_cases hi : i = 12
    · subst hi
      rfl
    · simp [hi, Ne.symm hi]
  unfold makeLeafFlags largeWc
  cases c.supportsNx <;> cases Pte.has flags writeCombining <;> cases c.supportsWc <;>
    cases size <;> simp [hbit, hp, hh, h7, h12]

theorem leafEntry_huge (h : size ≠ .size4K) : (leafEntry c phys flags size).has huge := by
  rw [Pte.has_huge, leafEntry, BitVec.getLsbD_or, makeLeafFlags_huge c flags h, Bool.or_true]

theorem frame_leafEntry (hp : IsFrame c phys) (hf : IsFlags flags)
    (hw : largeWc c flags size = false) : frame c (leafEntry c phys flags size) = phys := by
  refine frame_or hp fun i h1 h2 => ?_
  rw [makeLeafFlags_field hf h1 (h2.trans_le c.physBits_le), hw, Bool.false_and]

/-- The address field of a large write-combining page is off by one page. -/
theorem frame_leafEntry_largeWc (hp : IsFrame c phys) (h13 : 0x2000 ∣ phys)
    (hbits : 12 < c.physBits) (hf : IsFlags flags) (hw : largeWc c flags size = true) :
    frame c (leafEntry c phys flags size) = phys + pageSize := by
  have hle := c.physBits_le
  obtain ⟨y, rfl⟩ := h13
  have hor : 0x2000 * y + pageSize = 0x2000 * y ||| 4096 :=
    Nat.two_pow_add_eq_or_of_lt (show 4096 < 2 ^ 13 by decide) y
  have hmask : frame c (leafEntry c (0x2000 * y) flags size) = 0x2000 * y ||| 4096 := by
    refine Nat.eq_of_testBit_eq fun i => ?_
    have hb : (frame c (leafEntry c (0x2000 * y) flags size)).testBit i =
        (leafEntry c (0x2000 * y) flags size &&& c.physAddrMask).getLsbD i := rfl
    have h4096 : Nat.testBit 4096 i = decide (12 = i) := by
      rw [show 4096 = 2 ^ 12 from rfl, Nat.testBit_two_pow]
    rw [hb, leafEntry, BitVec.getLsbD_and, BitVec.getLsbD_or, BitVec.getLsbD_and,
      getLsbD_physAddrMask, BitVec.getLsbD_ofNat, Nat.testBit_or, h4096]
    by_cases hfield : 12 ≤ i ∧ i < c.physBits
    · rw [makeLeafFlags_field hf hfield.1 (by omega), hw]
      by_cases hi : i = 12
      · subst hi
        simp [hbits]
      · simp [hfield.1, hfield.2, hi, Ne.symm hi, show i < 64 by omega]
    · have hz := hp.testBit hfield
      have hne : 12 ≠ i := by
        rintro rfl
        exact hfield ⟨le_rfl, hbits⟩
      rw [hz]
      by_cases h1 : 12 ≤ i
      · simp [hne, show ¬i < c.physBits from fun h => hfield ⟨h1, h⟩]
      · simp [hne, h1]
  rw [hmask, hor]

theorem isLeaf_leafEntry (c : Config) (phys : ℕ) (flags : Pte) (size : PageSize) :
    IsLeaf c (leafLevel c size) (leafEntry c phys flags size) := by
  refine ⟨by rw [Pte.has_present, leafEntry, BitVec.getLsbD_or, makeLeafFlags_present,
    Bool.or_true], ?_⟩
  have hl := c.levels_eq
  cases size with
  | size4K =>
    refine .inl ?_
    rw [leafLevel]
    omega
  | size2M =>
    refine .inr ⟨.inl ?_, leafEntry_huge (by decide)⟩
    rw [leafLevel]
    omega
  | size1G =>
    refine .inr ⟨.inr ?_, leafEntry_huge (by decide)⟩
    rw [leafLevel]
    omega

end Entries

section OnePage

variable {c : Config} {managed live : ℕ → ℕ} {s s' : State} {r virt phys : ℕ} {flags : Pte}
  {size : PageSize}

theorem leafLevel_lt (c : Config) (size : PageSize) : leafLevel c size < c.levels := by
  have hpos := c.levels_pos
  cases size <;> rw [leafLevel] <;> omega

/-- After `map_page` the addresses of one block translate through the new entry, all others as
before. -/
theorem Tables.mapPage_leaf (hT : Tables c managed (treePaths c r) live s) (hr : IsFrame c r)
    (h : Vmm.mapPage c s virt phys flags size r = .ok s') :
    ∃ live', Tables c managed (treePaths c r) live' s' ∧
      (∀ {a}, path c a (leafLevel c size + 1) = path c virt (leafLevel c size + 1) →
        Leaf c s'.mem r a (leafLevel c size) (leafEntry c phys flags size)) ∧
      ∀ {a k e}, path c a (leafLevel c size + 1) ≠ path c virt (leafLevel c size + 1) →
        (Leaf c s'.mem r a k e ↔ Leaf c s.mem r a k e) := by
  have hlt := leafLevel_lt c size
  obtain ⟨⟨table, s1⟩, hwalk, h⟩ := ok_bind h
  obtain ⟨live', hg, hfound⟩ := hT.walkToLevel hr (path_mem_treePaths c r virt hlt) hwalk
  obtain _ | table := table
  · cases h
  have hs' : s' = s1.setWord table (levelIndex c virt (leafLevel c size))
      (leafEntry c phys flags size) := by
    simp only [guard_eq_ok] at h
    exact (Except.ok.inj h.2.2).symm
  have hstored : StoredAt c s1.mem s'.mem r virt (leafLevel c size) table
      (leafEntry c phys flags size) := by
    refine ⟨hlt, hfound table rfl, ?_, ?_, ?_⟩
    · rw [hs', setWord_mem, if_pos ⟨rfl, rfl⟩]
    · intro m j hne
      rw [hs', setWord_mem_of_ne hne]
    intro hl
    have hsize : size ≠ .size4K := by
      rintro rfl
      rw [leafLevel] at hl
      omega
    rw [leafEntry_huge hsize, Bool.not_true, Bool.and_false]
  have hleaf1 : ∀ {a k e}, Leaf c s1.mem r a k e ↔ Leaf c s.mem r a k e := by
    intro a k e
    have hlast : c.levels - 1 < c.levels := Nat.sub_lt c.levels_pos one_pos
    exact hg.leaf length_lt_of_mem_treePaths (path_mem_treePaths c r a hlast)
  refine ⟨live', hg.tables.storedAt (by rw [hs']; rfl) hstored, ?_, ?_⟩
  · intro a ha
    exact (hstored.leaf_through hg.tables.apart ha).mpr
      ⟨rfl, rfl, isLeaf_leafEntry c phys flags size⟩
  · intro a k e ha
    rw [hstored.leaf_elsewhere hg.tables.apart ha, hleaf1]

end OnePage

section Greedy

variable {c : Config} {managed live : ℕ → ℕ} {s s' : State}
  {r virt phys total v p n step a o fuel : ℕ} {flags : Pte}

/-- The step `map_range` takes is a block of its page size, aligned on both sides, and does not
reach beyond the end. -/
theorem stepSize_spec (c : Config) (u : Bool) (hv : pageSize ∣ v) (hp : pageSize ∣ p)
    (hn : pageSize ∣ n) (h0 : 0 < n) :
    (stepSize c u v p n).2 = span c (leafLevel c (stepSize c u v p n).1) ∧
      (stepSize c u v p n).2 ∣ v ∧ (stepSize c u v p n).2 ∣ p ∧ (stepSize c u v p n).2 ≤ n := by
  have hl := c.levels_eq
  unfold stepSize
  split
  · rename_i h
    simp only [Bool.and_eq_true, decide_eq_true_eq] at h
    refine ⟨(span_1g ?_).symm, Nat.dvd_of_mod_eq_zero h.1.2, Nat.dvd_of_mod_eq_zero h.2, h.1.1.2⟩
    rw [leafLevel]
    omega
  · split_ifs with h
    · simp only [Bool.and_eq_true, decide_eq_true_eq] at h
      refine ⟨(span_2m ?_).symm, Nat.dvd_of_mod_eq_zero h.1.2, Nat.dvd_of_mod_eq_zero h.2, h.1.1.2⟩
      rw [leafLevel]
      omega
    · refine ⟨(span_last ?_).symm, hv, hp, Nat.le_of_dvd h0 hn⟩
      rw [leafLevel]
      omega

theorem stepSize_small {u : Bool} (h : (stepSize c u v p n).1 = .size4K) :
    (stepSize c u v p n).2 = pageSize := by
  unfold stepSize at h ⊢
  split at h
  · cases h
  · split at h
    · cases h
    · rename_i h1 h2
      rw [if_neg h1, if_neg h2]

theorem dvd_span_of_large {size : PageSize} (h : largeWc c flags size = true) :
    0x2000 ∣ span c (leafLevel c size) := by
  have hl := c.levels_eq
  cases size with
  | size4K => simp [largeWc] at h
  | size2M =>
    rw [span_2m (by rw [leafLevel]; omega)]
    decide
  | size1G =>
    rw [span_1g (by rw [leafLevel]; omega)]
    decide

/-- The address `a` translates through the entry of the step `map_range` takes at offset `o`. -/
structure Placed (c : Config) (mem : ℕ → ℕ → Pte) (r : ℕ) (flags : Pte)
    (virt phys total a o : ℕ) : Prop where
  lt : o < total
  aligned : pageSize ∣ o
  low : virt + o ≤ a
  high : a < virt + o + (stepSize c (flags.has user) (virt + o) (phys + o) (total - o)).2
  leaf : Leaf c mem r a
    (leafLevel c (stepSize c (flags.has user) (virt + o) (phys + o) (total - o)).1)
    (leafEntry c (phys + o) flags
      (stepSize c (flags.has user) (virt + o) (phys + o) (total - o)).1)

theorem Placed.shift {mem : ℕ → ℕ → Pte} (hle : step ≤ total) (hd : pageSize ∣ step)
    (h : Placed c mem r flags (virt + step) (phys + step) (total - step) a o) :
    Placed c mem r flags virt phys total a (step + o) := by
  have hv : virt + (step + o) = virt + step + o := (add_assoc virt step o).symm
  have hp : phys + (step + o) = phys + step + o := (add_assoc phys step o).symm
  have hn : total - (step + o) = total - step - o := (Nat.sub_sub total step o).symm
  have hlt := h.lt
  refine ⟨by omega, Nat.dvd_add hd h.aligned, by rw [hv]; exact h.low, ?_, ?_⟩
  · rw [hv, hp, hn]
    exact h.high
  · rw [hv, hp, hn]
    exact h.leaf

/-- The range is covered by the steps, addresses outside translate as before. -/
theorem mapRangeLoop_spec (hr : IsFrame c r)
    (hT : Tables c managed (treePaths c r) live s) (hv : pageSize ∣ virt) (hp : pageSize ∣ phys)
    (hn : pageSize ∣ total) (hcan : ∀ a, virt ≤ a → a < virt + total → Canonical c a)
    (hfuel : total ≤ fuel * pageSize)
    (h : mapRangeLoop c flags r fuel virt phys total s = .ok s') :
    ∃ live', Tables c managed (treePaths c r) live' s' ∧
      (∀ {a}, virt ≤ a → a < virt + total →
        ∃ o, Placed c s'.mem r flags virt phys total a o) ∧
      ∀ {a k e}, Canonical c a → (a < virt ∨ virt + total ≤ a) →
        (Leaf c s'.mem r a k e ↔ Leaf c s.mem r a k e) := by
  induction fuel generalizing virt phys total s live with
  | zero =>
    obtain rfl : total = 0 := by omega
    cases h
    exact ⟨live, hT, fun h1 h2 => absurd h2 (by omega), fun _ _ => Iff.rfl⟩
  | succ fuel ih =>
    rw [mapRangeLoop] at h
    by_cases h0 : total = 0
    · subst h0
      cases h
      exact ⟨live, hT, fun h1 h2 => absurd h2 (by omega), fun _ _ => Iff.rfl⟩
    rw [if_neg h0] at h
    obtain ⟨hspan, hdv, hdp, hle⟩ :=
      stepSize_spec c (flags.has user) hv hp hn (Nat.pos_of_ne_zero h0)
    generalize hstep : stepSize c (flags.has user) virt phys total = st at h hspan hdv hdp hle
    obtain ⟨size, step⟩ := st
    simp only at h hspan hdv hdp hle
    obtain ⟨s1, hmap, h⟩ := ok_bind h
    have hpage : pageSize ∣ step := by
      rw [hspan, span]
      exact Dvd.intro_left _ rfl
    have hpos : 0 < step := hspan ▸ span_pos c _
    obtain ⟨live1, hT1, hin, hout⟩ := hT.mapPage_leaf hr hmap
    obtain ⟨live2, hT2, hin2, hout2⟩ := ih hT1 (Nat.dvd_add hv hpage) (Nat.dvd_add hp hpage)
      (Nat.dvd_sub hn hpage) (fun a h1 h2 => hcan a (by omega) (by omega))
      (by have := Nat.le_of_dvd hpos hpage; rw [Nat.succ_mul] at hfuel; omega) h
    have hblock : ∀ {a}, Canonical c a →
        (path c a (leafLevel c size + 1) = path c virt (leafLevel c size + 1) ↔
          virt ≤ a ∧ a < virt + step) := by
      intro a ha
      rw [path_eq_iff_of_canonical ha (hcan virt le_rfl (by omega)) (leafLevel_lt c size)
        (hspan ▸ hdv), hspan]
    refine ⟨live2, hT2, ?_, ?_⟩
    · intro a h1 h2
      have ha := hcan a h1 h2
      by_cases hnear : a < virt + step
      · refine ⟨0, Nat.pos_of_ne_zero h0, dvd_zero _, h1, ?_, ?_⟩
        · simpa only [add_zero, Nat.sub_zero, hstep] using hnear
        · simp only [add_zero, Nat.sub_zero, hstep]
          exact (hout2 ha (.inl hnear)).mpr (hin ((hblock ha).mpr ⟨h1, hnear⟩))
      · obtain ⟨o, ho⟩ := hin2 (a := a) (by omega) (by omega)
        exact ⟨step + o, ho.shift hle hpage⟩
    · intro a k e ha hrange
      rw [hout2 ha (by omega), hout fun heq => ?_]
      have := (hblock ha).mp heq
      omega

end Greedy

section Unmap

variable {c : Config} {managed live : ℕ → ℕ} {s s' : State} {r virt level table n k a b t start : ℕ}
  {mem : ℕ → ℕ → Pte}

theorem Leaf.isLeaf {e : Pte} (h : Leaf c mem r virt k e) : IsLeaf c k e := by
  obtain ⟨-, -, -, h⟩ := h
  exact h

theorem not_isLeaf_zero (c : Config) (level : ℕ) : ¬IsLeaf c level 0 := by
  rintro ⟨h, -⟩
  cases h

/-- Addresses that share an entry translate through it together. -/
theorem leaf_of_path {e : Pte} (h : path c a (k + 1) = path c b (k + 1))
    (hl : Leaf c mem r a k e) : Leaf c mem r b k e := by
  rw [path_succ, path_succ] at h
  obtain ⟨hpath, hidx⟩ := List.append_inj' h rfl
  rw [Leaf, hpath, (List.cons.inj hidx).1] at hl
  exact hl

theorem path_of_page (hv : pageSize ∣ virt) (h1 : virt ≤ a) (h2 : a < virt + pageSize)
    (n : ℕ) : path c a n = path c virt n := by
  have hbase : alignDown a pageSize = virt := by
    simp only [alignDown, pageSize] at *
    omega
  rw [← path_alignDown c a, hbase]

/-- An entry that neither maps a page nor points at a table ends every translation through it. -/
theorem no_leaf_of_end (hlt : level < c.levels)
    (hat : follow (next c mem) (path c virt level) r = some table)
    (hself : ¬IsLeaf c level (mem table (levelIndex c virt level)))
    (hnext : level + 1 < c.levels → next c mem table (levelIndex c virt level) = none) (k : ℕ)
    (e : Pte) : ¬Leaf c mem r virt k e := by
  rintro ⟨t, hf, rfl, hleaf⟩
  have hk' := hleaf.lt
  rcases lt_trichotomy k level with hk | rfl | hk
  · obtain ⟨m, rfl⟩ := Nat.exists_eq_add_of_le hk
    rw [path_add, path_succ, follow_append, follow_snoc, hf, bind_some,
      next_of_isLeaf hleaf (by omega)] at hat
    cases hat
  · rw [hat] at hf
    obtain rfl := some.inj hf
    exact hself hleaf
  · obtain ⟨m, rfl⟩ := Nat.exists_eq_add_of_le hk
    rw [path_add, path_succ, follow_append, follow_snoc, hat, bind_some, hnext (by omega)] at hf
    cases hf

theorem StoredAt.setWord (hlt : level < c.levels)
    (hat : follow (next c s.mem) (path c virt level) r = some table) :
    StoredAt c s.mem (s.setWord table (levelIndex c virt level) 0).mem r virt level table 0 :=
  ⟨hlt, hat, by rw [setWord_mem, if_pos ⟨rfl, rfl⟩], setWord_mem_of_ne, fun _ => rfl⟩

/-- The loop of `unmap_page` at an entry that maps a page starting at the address. -/
theorem unmapFrom_leaf (h : IsLeaf c level (s.mem table (levelIndex c virt level)))
    (hd : span c level ∣ virt) :
    unmapFrom c virt (n + 1) level table s = .ok (s.setWord table (levelIndex c virt level) 0) := by
  have hmod := Nat.mod_eq_zero_of_dvd hd
  rw [unmapFrom]
  simp only [h.1, Bool.not_true, Bool.false_eq_true, if_false, isHuge1g, isHuge2m]
  rcases h.2 with hl | ⟨hl | hl, hhuge⟩
  · simp [hl, show level + 3 ≠ c.levels by omega, show level + 2 ≠ c.levels by omega]
  · rw [span_2m hl] at hmod
    simp [hhuge, hl, show level + 3 ≠ c.levels by omega, hmod]
  · rw [span_1g hl] at hmod
    simp [hhuge, hl, hmod]

/-- The loop of `unmap_page` at an entry that points at a table. -/
theorem unmapFrom_next (hl : level + 1 ≠ c.levels)
    (h : next c s.mem table (levelIndex c virt level) = some t) :
    unmapFrom c virt (n + 1) level table s = unmapFrom c virt n (level + 1) t s := by
  obtain ⟨hp, hh, rfl⟩ := next_eq_some h
  rw [unmapFrom]
  simp only [hp, hh, Bool.not_true, Bool.false_eq_true, if_false, isHuge1g, isHuge2m,
    Bool.and_false, hl]

/-- The loop of `unmap_page` at any other entry: a mark in a last-level entry is removed. -/
theorem unmapFrom_none (hleaf : ¬IsLeaf c level (s.mem table (levelIndex c virt level)))
    (h : level + 1 ≠ c.levels → next c s.mem table (levelIndex c virt level) = none) :
    unmapFrom c virt (n + 1) level table s = .ok s ∨
      unmapFrom c virt (n + 1) level table s =
        .ok (s.setWord table (levelIndex c virt level) 0) := by
  rw [unmapFrom]
  cases hp : (s.mem table (levelIndex c virt level)).has present with
  | false =>
    simp only [Bool.not_false, if_true]
    split
    · exact .inr rfl
    · exact .inl rfl
  | true =>
    left
    obtain ⟨hhuge, hlast, h2, h1⟩ := huge_of_not_isLeaf hleaf hp h
    simp [isHuge1g, isHuge2m, h1, h2, hlast, hhuge]

/-- The entry that translates the address is cleared; without one nothing that matters changes.
Only a large page whose block starts elsewhere stops the loop. -/
theorem unmapFrom_spec {n level table : ℕ} (hn : level + (n + 1) = c.levels)
    (hat : follow (next c s.mem) (path c virt level) r = some table)
    (hd : ∀ k e, Leaf c s.mem r virt k e → span c k ∣ virt) :
    ∃ s', unmapFrom c virt (n + 1) level table s = .ok s' ∧ s'.pmm = s.pmm ∧
      ((s' = s ∧ ∀ k e, ¬Leaf c s.mem r virt k e) ∨
        ∃ l t, StoredAt c s.mem s'.mem r virt l t 0) := by
  have hlt : level < c.levels := by omega
  by_cases hleaf : IsLeaf c level (s.mem table (levelIndex c virt level))
  · exact ⟨_, unmapFrom_leaf hleaf (hd level _ ⟨table, hat, rfl, hleaf⟩), rfl,
      .inr ⟨level, table, .setWord hlt hat⟩⟩
  by_cases hnext : level + 1 ≠ c.levels ∧ ∃ t, next c s.mem table (levelIndex c virt level) = some t
  · obtain ⟨hl, t, ht⟩ := hnext
    rw [unmapFrom_next hl ht]
    obtain ⟨m, rfl⟩ : ∃ m, n = m + 1 := ⟨n - 1, by omega⟩
    refine unmapFrom_spec (by omega) ?_ hd
    rw [path_succ, follow_snoc, hat, bind_some, ht]
  · have hnone : level + 1 ≠ c.levels → next c s.mem table (levelIndex c virt level) = none := by
      intro hl
      by_contra hne
      exact hnext ⟨hl, ne_none_iff_exists'.mp hne⟩
    rcases unmapFrom_none (n := n) hleaf hnone with h | h
    · exact ⟨s, h, rfl, .inl ⟨rfl, no_leaf_of_end hlt hat hleaf fun hl => hnone (Nat.ne_of_lt hl)⟩⟩
    · exact ⟨_, h, rfl, .inr ⟨level, table, .setWord hlt hat⟩⟩

/-- `unmap_page` of an address at the start of its page, if it has one: afterwards the address
does not translate, and nothing translates that did not before. -/
theorem Tables.unmapPage (hT : Tables c managed (treePaths c r) live s) (hr : IsFrame c r)
    (hv : pageSize ∣ virt) (hd : ∀ k e, Leaf c s.mem r virt k e → span c k ∣ virt) :
    ∃ s', Vmm.unmapPage c s virt r = .ok s' ∧ Tables c managed (treePaths c r) live s' ∧
      (∀ k e, ¬Leaf c s'.mem r virt k e) ∧
      ∀ {a k e}, Leaf c s'.mem r a k e → Leaf c s.mem r a k e := by
  have hpos := c.levels_pos
  obtain ⟨s', h, hpmm, hcases⟩ := unmapFrom_spec
    (show 0 + (c.levels - 1 + 1) = c.levels by omega) (follow_nil (next c s.mem) r) hd
  rw [Nat.sub_add_cancel hpos] at h
  refine ⟨s', ?_, ?_⟩
  · rw [Vmm.unmapPage, if_neg (not_not.mpr (Nat.mod_eq_zero_of_dvd hv)), frame_ofNat hr, h]
  rcases hcases with ⟨rfl, hno⟩ | ⟨l, t, hst⟩
  · exact ⟨hT, hno, id⟩
  have hthrough {a k e} (ha : path c a (l + 1) = path c virt (l + 1)) :
      ¬Leaf c s'.mem r a k e := fun hx =>
    not_isLeaf_zero c l ((hst.leaf_through hT.apart ha).mp hx).2.2
  refine ⟨hT.storedAt hpmm hst, fun k e => hthrough rfl, fun {a k e} hx => ?_⟩
  exact (hst.leaf_elsewhere hT.apart fun ha => hthrough ha hx).mp hx

/-- `unmap_range` of pages that all lie in the range. -/
theorem Tables.unmapRangeLoop (hr : IsFrame c r)
    (hT : Tables c managed (treePaths c r) live s) (hv : pageSize ∣ virt)
    (hcan : ∀ a, start ≤ a → a < virt + n * pageSize → Canonical c a) (hle : start ≤ virt)
    (hdone : ∀ a k e, start ≤ a → a < virt → ¬Leaf c s.mem r a k e)
    (htodo : ∀ a k e, virt ≤ a → a < virt + n * pageSize → Leaf c s.mem r a k e →
      virt + a % span c k ≤ a) :
    ∃ s', Vmm.unmapRangeLoop c r n virt s = .ok s' ∧
      ∀ a k e, start ≤ a → a < virt + n * pageSize → ¬Leaf c s'.mem r a k e := by
  induction n generalizing virt s with
  | zero =>
    refine ⟨s, rfl, fun a k e h1 h2 => hdone a k e h1 ?_⟩
    omega
  | succ n ih =>
    have hnext : virt + (n + 1) * pageSize = virt + pageSize + n * pageSize := by ring
    have hpos := pageSize_pos
    have hin : virt < virt + (n + 1) * pageSize := by
      rw [hnext]
      omega
    have hvirt := hcan virt hle hin
    obtain ⟨s1, h₁, hT1, hno, hold⟩ := hT.unmapPage hr hv fun k e hx => by
      have := htodo virt k e le_rfl hin hx
      exact Nat.dvd_of_mod_eq_zero (by omega)
    have hpage : ∀ a k e, virt ≤ a → a < virt + pageSize → ¬Leaf c s1.mem r a k e := by
      intro a k e h1 h2 hx
      exact hno k e (leaf_of_path (path_of_page hv h1 h2 _) hx)
    obtain ⟨s', h', hend⟩ := ih hT1 (Nat.dvd_add hv dvd_rfl) (by rwa [← hnext]) (by omega)
      (fun a k e h1 h2 hx => by
        by_cases ha : a < virt
        · exact hdone a k e h1 ha (hold hx)
        · exact hpage a k e (by omega) h2 hx)
      (fun a k e h1 h2 hx => by
        have hlow := htodo a k e (by omega) (by omega) (hold hx)
        -- the page of `a` does not start at `virt`, which has none any more
        have hne : a - a % span c k ≠ virt := by
          intro heq
          have hd : span c k ∣ virt := heq ▸ Nat.dvd_sub_mod a
          have hlt := Nat.mod_lt a (span_pos c k)
          have hpath := (path_eq_iff_of_canonical (hcan a (by omega) (by omega)) hvirt
            hx.isLeaf.lt hd).mpr ⟨by omega, by omega⟩
          exact hno k e (leaf_of_path hpath hx)
        have hd : pageSize ∣ a - a % span c k :=
          Nat.dvd_trans (Dvd.intro_left _ rfl) (Nat.dvd_sub_mod a)
        have hge := Nat.le_of_dvd (by omega) (Nat.dvd_sub hd hv)
        omega)
    refine ⟨s', ?_, by rwa [hnext]⟩
    rw [Vmm.unmapRangeLoop, h₁]
    exact h'

end Unmap

/-! ### The three functions together -/

/-- What mapping, reading and unmapping a range should do to each other: the addresses of the
range translate to the pages of the physical range, other addresses as before, and unmapping the
range succeeds and leaves no address of it mapped. `get_mapping` reads whole pages. -/
def RangeCorrect (c : Config) (s s' : State) (virt phys size r : ℕ) : Prop :=
  (∀ o < alignUp size pageSize,
      getMapping c s' (virt + o) r = alignDown (phys + o) pageSize) ∧
    (∀ a, Canonical c a → a < virt ∨ virt + alignUp size pageSize ≤ a →
      getMapping c s' a r = getMapping c s a r) ∧
    ∃ s'', unmapRange c s' virt size r = .ok s'' ∧
      ∀ o < alignUp size pageSize, getMapping c s'' (virt + o) r = 0

/-- The range holds a block of a large page size that the processor supports, aligned on both
sides, and the mapping is not a user mapping. -/
def TakesLarge (c : Config) (virt phys size : ℕ) (flags : Pte) : Prop :=
  flags.has user = false ∧ ∃ o, pageSize ∣ o ∧
    ((c.supports2mb ∧ o + 0x200000 ≤ alignUp size pageSize ∧ 0x200000 ∣ virt + o ∧
        0x200000 ∣ phys + o) ∨
      (c.supports1gb ∧ o + 0x40000000 ≤ alignUp size pageSize ∧ 0x40000000 ∣ virt + o ∧
        0x40000000 ∣ phys + o))

section Correct

variable {c : Config} {managed live : ℕ → ℕ} {s s' : State}
  {r virt phys size a o total k k' o' : ℕ} {flags e e' : Pte}
  {mem : ℕ → ℕ → Pte}

theorem getMapping_congr (hr : IsFrame c r)
    (h : ∀ {k e}, Leaf c s'.mem r a k e ↔ Leaf c s.mem r a k e) :
    getMapping c s' a r = getMapping c s a r := by
  by_cases hl : ∃ k e, Leaf c s.mem r a k e
  · obtain ⟨k, e, hl⟩ := hl
    rw [getMapping_of_leaf hr hl, getMapping_of_leaf hr (h.mpr hl)]
  · have hno : ∀ k e, ¬Leaf c s.mem r a k e := fun k e hx => hl ⟨k, e, hx⟩
    rw [getMapping_of_no_leaf hr hno, getMapping_of_no_leaf hr fun k e hx => hno k e (h.mp hx)]

/-- The addresses `map_range` is called with, and what it leaves behind. -/
theorem mapRange_spec (hr : IsFrame c r) (hT : Tables c managed (treePaths c r) live s)
    (hcan : ∀ a, virt ≤ a → a < virt + alignUp size pageSize → Canonical c a)
    (hpos : size ≠ 0) (h : mapRange c s virt phys size flags r = .ok s') :
    pageSize ∣ virt ∧ pageSize ∣ phys ∧ virt + alignUp size pageSize < 2 ^ 64 ∧
    ∃ live', Tables c managed (treePaths c r) live' s' ∧
      (∀ {a}, virt ≤ a → a < virt + alignUp size pageSize →
        ∃ o, Placed c s'.mem r flags virt phys (alignUp size pageSize) a o) ∧
      ∀ {a k e}, Canonical c a → (a < virt ∨ virt + alignUp size pageSize ≤ a) →
        (Leaf c s'.mem r a k e ↔ Leaf c s.mem r a k e) := by
  rw [mapRange, if_neg hpos] at h
  simp only [guard_eq_ok, ne_eq, Bool.or_eq_true, decide_eq_true_eq, not_or, not_not, not_lt] at h
  obtain ⟨haligned, hsize, hover, h⟩ := h
  have hv := Nat.dvd_of_mod_eq_zero haligned.1
  have hp := Nat.dvd_of_mod_eq_zero haligned.2
  have hn := dvd_alignUp size pageSize
  have hlt : virt + alignUp size pageSize < 2 ^ 64 := by
    simp only [uint64Max, alignUp, pageSize] at hsize hover ⊢
    omega
  refine ⟨hv, hp, hlt, ?_⟩
  exact mapRangeLoop_spec hr hT hv hp hn hcan (Nat.div_mul_cancel hn).ge h

/-- The offset of an address in the block of its step. -/
theorem Placed.mod_span (hv : pageSize ∣ virt) (hp : pageSize ∣ phys)
    (hn : pageSize ∣ total) (h : Placed c mem r flags virt phys total a o) :
    a % span c (leafLevel c (stepSize c (flags.has user) (virt + o) (phys + o) (total - o)).1) =
      a - (virt + o) := by
  have hlt := h.lt
  obtain ⟨hspan, hd, -, -⟩ := stepSize_spec c (flags.has user) (Nat.dvd_add hv h.aligned)
    (Nat.dvd_add hp h.aligned) (Nat.dvd_sub hn h.aligned) (Nat.sub_pos_of_lt hlt)
  have hhigh := h.high
  rw [hspan] at hd hhigh
  obtain ⟨d, rfl⟩ := Nat.exists_eq_add_of_le h.low
  rw [Nat.add_sub_cancel_left, Nat.add_mod, Nat.mod_eq_zero_of_dvd hd, Nat.zero_add, Nat.mod_mod,
    Nat.mod_eq_of_lt (Nat.lt_of_add_lt_add_left hhigh)]

/-- The page that `get_mapping` reads for an address of the range: one page too far on a large
write-combining page. -/
theorem Placed.getMapping (hr : IsFrame c r) (hbits : 12 < c.physBits)
    (hf : IsFlags flags) (hv : pageSize ∣ virt) (hp : pageSize ∣ phys) (hn : pageSize ∣ total)
    (hle : phys + total ≤ 2 ^ c.physBits) (h : Placed c s.mem r flags virt phys total a o) :
    Vmm.getMapping c s a r =
      if largeWc c flags (stepSize c (flags.has user) (virt + o) (phys + o) (total - o)).1 then
        alignDown (phys + (a - virt)) pageSize + pageSize
      else alignDown (phys + (a - virt)) pageSize := by
  have hlt := h.lt
  have hlow := h.low
  have hframe : IsFrame c (phys + o) := ⟨Nat.dvd_add hp h.aligned, by omega⟩
  obtain ⟨hspan, -, hd, -⟩ := stepSize_spec c (flags.has user) (Nat.dvd_add hv h.aligned)
    (Nat.dvd_add hp h.aligned) (Nat.dvd_sub hn h.aligned) (Nat.sub_pos_of_lt hlt)
  have hsum : phys + (a - virt) = phys + o + (a - (virt + o)) := by omega
  rw [getMapping_of_leaf hr h.leaf, mappedPage, h.mod_span hv hp hn, hsum]
  generalize hstep : stepSize c (flags.has user) (virt + o) (phys + o) (total - o) = st
    at hspan hd ⊢
  split_ifs with hw
  · have h13 : 0x2000 ∣ phys + o := (dvd_span_of_large hw).trans (hspan ▸ hd)
    rw [frame_leafEntry_largeWc hframe h13 hbits hf hw, alignDown, alignDown,
      show phys + o + pageSize + (a - (virt + o)) = phys + o + (a - (virt + o)) + pageSize by omega,
      Nat.add_div_right _ pageSize_pos, Nat.succ_mul]
  · rw [frame_leafEntry hframe hf (Bool.eq_false_iff.mpr hw)]

theorem Leaf.level_le (h : Leaf c mem r a k e) (h' : Leaf c mem r a k' e') : k' ≤ k := by
  obtain ⟨t, hf, rfl, hleaf⟩ := h
  by_contra hlt
  obtain ⟨m, rfl⟩ := Nat.exists_eq_add_of_le (Nat.lt_of_not_le hlt)
  obtain ⟨t', hf', rfl, hleaf'⟩ := h'
  have hend := hleaf'.lt
  rw [path_add, path_succ, follow_append, follow_snoc, hf, bind_some,
    next_of_isLeaf hleaf (by omega)] at hf'
  cases hf'

/-- `unmap_range` of a range that `map_range` has covered. -/
theorem unmapRange_of_placed (hr : IsFrame c r) (hT : Tables c managed (treePaths c r) live s)
    (hv : pageSize ∣ virt) (hp : pageSize ∣ phys) (hpos : size ≠ 0)
    (hlt : virt + alignUp size pageSize < 2 ^ 64)
    (hcan : ∀ a, virt ≤ a → a < virt + alignUp size pageSize → Canonical c a)
    (hin : ∀ {a}, virt ≤ a → a < virt + alignUp size pageSize →
      ∃ o, Placed c s.mem r flags virt phys (alignUp size pageSize) a o) :
    ∃ s', unmapRange c s virt size r = .ok s' ∧
      ∀ a k e, virt ≤ a → a < virt + alignUp size pageSize → ¬Leaf c s'.mem r a k e := by
  have hstart : alignDown virt pageSize = virt := alignDown_of_dvd hv
  have hend : alignDown (virt + size - 1) pageSize + pageSize = virt + alignUp size pageSize := by
    simp only [alignDown, alignUp, pageSize] at hv ⊢
    omega
  have hsize := le_alignUp size pageSize_pos
  have hn := dvd_alignUp size pageSize
  have hmul : alignUp size pageSize / pageSize * pageSize = alignUp size pageSize :=
    Nat.div_mul_cancel hn
  obtain ⟨s', h, hno⟩ := Tables.unmapRangeLoop (n := alignUp size pageSize / pageSize) hr hT hv
    (by rwa [hmul]) le_rfl (fun a k e h1 h2 => absurd h1 (by omega)) (by
      rw [hmul]
      intro a k e h1 h2 hx
      obtain ⟨o, ho⟩ := hin h1 h2
      rw [le_antisymm (ho.leaf.level_le hx) (hx.level_le ho.leaf), ho.mod_span hv hp hn]
      omega)
  rw [hmul] at hno
  refine ⟨s', ?_, hno⟩
  rw [unmapRange, if_neg hpos, if_neg (by rw [uint64Max]; omega)]
  simp only [hstart, hend]
  rw [if_neg (by rw [Nat.mod_eq_of_lt hlt]; omega), Nat.add_sub_cancel_left, h]

/-- The greedy walk has an offset at which it picks a large page. -/
theorem takesLarge_iff : TakesLarge c virt phys size flags ↔
    ∃ o, pageSize ∣ o ∧ o < alignUp size pageSize ∧
      (stepSize c (flags.has user) (virt + o) (phys + o) (alignUp size pageSize - o)).1 ≠
        .size4K := by
  constructor
  · rintro ⟨hu, o, ho, hlarge⟩
    refine ⟨o, ho, by omega, ?_⟩
    unfold stepSize
    split
    · simp
    rename_i h1g
    rcases hlarge with ⟨h2m, hle, hv, hp⟩ | ⟨h2m, hle, hv, hp⟩
    · rw [if_pos]
      · simp
      · simp only [hu, h2m, Bool.not_false, Bool.true_and, Bool.and_eq_true, decide_eq_true_eq]
        exact ⟨⟨by omega, Nat.mod_eq_zero_of_dvd hv⟩, Nat.mod_eq_zero_of_dvd hp⟩
    · refine absurd ?_ h1g
      simp only [hu, h2m, Bool.not_false, Bool.true_and, Bool.and_eq_true, decide_eq_true_eq]
      exact ⟨⟨by omega, Nat.mod_eq_zero_of_dvd hv⟩, Nat.mod_eq_zero_of_dvd hp⟩
  · rintro ⟨o, ho, hlt, hstep⟩
    unfold stepSize at hstep
    split at hstep
    · rename_i h
      simp only [Bool.and_eq_true, decide_eq_true_eq, Bool.not_eq_true'] at h
      exact ⟨h.1.1.1.1, o, ho, .inr ⟨h.1.1.1.2, by omega, Nat.dvd_of_mod_eq_zero h.1.2,
        Nat.dvd_of_mod_eq_zero h.2⟩⟩
    · split_ifs at hstep with h
      · simp only [Bool.and_eq_true, decide_eq_true_eq, Bool.not_eq_true'] at h
        exact ⟨h.1.1.1.1, o, ho, .inl ⟨h.1.1.1.2, by omega, Nat.dvd_of_mod_eq_zero h.1.2,
          Nat.dvd_of_mod_eq_zero h.2⟩⟩
      · exact absurd rfl hstep

/-- The address at such an offset lies on a large page, of this step or of an earlier one. -/
theorem Placed.large (h : Placed c mem r flags virt phys total (virt + o) o') (ho : pageSize ∣ o)
    (hlarge : (stepSize c (flags.has user) (virt + o) (phys + o) (total - o)).1 ≠ .size4K) :
    (stepSize c (flags.has user) (virt + o') (phys + o') (total - o')).1 ≠ .size4K := by
  intro hsmall
  have hhigh := h.high
  rw [stepSize_small hsmall] at hhigh
  have hlow := h.low
  have heq : o = o' := by
    have h1 := h.aligned
    simp only [pageSize] at ho h1 hhigh
    omega
  exact hlarge (heq ▸ hsmall)

theorem Tables.isFrame_treeRoot (hT : Tables c managed (treePaths c r) live s) :
    IsFrame c r ∧ 12 < c.physBits := by
  obtain ⟨hr, hlive⟩ := hT.held ⟨r, [], path_mem_treePaths c r 0 c.levels_pos, rfl⟩
  refine ⟨hr, ?_⟩
  by_contra hle
  have hlt := hr.2.trans_le (Nat.pow_le_pow_right two_pos (Nat.le_of_not_lt hle))
  have hz : r = 0 := Nat.eq_zero_of_dvd_of_lt hr.1 hlt
  refine hlive ?_
  by_contra hne
  exact hT.inv.ne_zero_of_live hT.zero hne hz

/-- Mapping, reading and unmapping a range fit together exactly when no large page is mapped
write-combining. -/
theorem mapRange_correct_iff (hT : Tables c managed (treePaths c r) live s)
    (hcan : ∀ a, virt ≤ a → a < virt + alignUp size pageSize → Canonical c a)
    (hphys : phys + alignUp size pageSize ≤ 2 ^ c.physBits) (hf : IsFlags flags)
    (h : mapRange c s virt phys size flags r = .ok s') :
    RangeCorrect c s s' virt phys size r ↔
      ¬(flags.has writeCombining ∧ c.supportsWc ∧ TakesLarge c virt phys size flags) := by
  obtain ⟨hr, hbits⟩ := hT.isFrame_treeRoot
  have hn := dvd_alignUp size pageSize
  by_cases hpos : size = 0
  · subst hpos
    have hzero : alignUp 0 pageSize = 0 := rfl
    cases h
    refine iff_of_true ⟨fun o ho => absurd ho (by omega), fun a _ _ => rfl, s, rfl,
      fun o ho => absurd ho (by omega)⟩ ?_
    rintro ⟨-, -, hlarge⟩
    obtain ⟨o, -, ho, -⟩ := takesLarge_iff.mp hlarge
    omega
  obtain ⟨hv, hp, hlt, live', hT', hin, hout⟩ := mapRange_spec hr hT hcan hpos h
  constructor
  · rintro ⟨hmap, -, -⟩ ⟨hwc, hsup, hlarge⟩
    obtain ⟨o, ho, holt, hstep⟩ := takesLarge_iff.mp hlarge
    obtain ⟨o', hpl⟩ := hin (a := virt + o) (by omega) (by omega)
    have hw : largeWc c flags (stepSize c (flags.has user) (virt + o') (phys + o')
        (alignUp size pageSize - o')).1 = true := by
      simp only [largeWc, hwc, hsup, Bool.true_and, decide_eq_true_eq]
      exact hpl.large ho hstep
    have hread := hpl.getMapping hr hbits hf hv hp hn hphys
    have hpage := pageSize_pos
    rw [if_pos hw, hmap o holt, Nat.add_sub_cancel_left] at hread
    omega
  · intro hcond
    refine ⟨fun o ho => ?_, fun a ha hrange => getMapping_congr hr (hout ha hrange), ?_⟩
    · obtain ⟨o', hpl⟩ := hin (a := virt + o) (by omega) (by omega)
      rw [hpl.getMapping hr hbits hf hv hp hn hphys, if_neg, Nat.add_sub_cancel_left]
      intro hw
      simp only [largeWc, Bool.and_eq_true, decide_eq_true_eq] at hw
      exact hcond ⟨hw.1.1, hw.1.2, takesLarge_iff.mpr ⟨o', hpl.aligned, hpl.lt, hw.2⟩⟩
    · obtain ⟨s'', hun, hno⟩ := unmapRange_of_placed hr hT' hv hp hpos hlt hcan hin
      exact ⟨s'', hun, fun o ho => getMapping_of_no_leaf hr fun k e =>
        hno (virt + o) k e (by omega) (by omega)⟩

/-! ### Sequences of `map_page` -/

/-- A call of `map_page` for an aligned page, which is not a large write-combining one. -/
structure MapCall (c : Config) where
  virt : ℕ
  phys : ℕ
  flags : Pte
  size : PageSize
  canonical : Canonical c virt
  aligned : span c (leafLevel c size) ∣ virt
  isFrame : IsFrame c phys
  isFlags : IsFlags flags
  plain : largeWc c flags size = false

/-- What is read at `a` after the call, if `old` was read before. -/
def MapCall.remap (a old : ℕ) (x : MapCall c) : ℕ :=
  if x.virt ≤ a ∧ a < x.virt + span c (leafLevel c x.size) then
    alignDown (x.phys + a % span c (leafLevel c x.size)) pageSize
  else old

/-- **The last mapping counts.** However the calls overlap and whatever their page sizes are, an
address is read as the last page mapped over it says, or as before if there is none. -/
theorem getMapping_of_mapPages {calls : List (MapCall c)}
    (hT : Tables c managed (treePaths c r) live s) (ha : Canonical c a)
    (h : calls.foldlM (fun s x => mapPage c s x.virt x.phys x.flags x.size r) s = .ok s') :
    getMapping c s' a r = calls.foldl (MapCall.remap a) (getMapping c s a r) := by
  have hr := hT.isFrame_treeRoot.1
  -- the frames in use change with each call, so they are generalized with the state
  induction calls generalizing s live with
  | nil =>
    cases h
    rfl
  | cons x calls ih =>
    rw [List.foldlM_cons] at h
    obtain ⟨s1, h1, h⟩ := ok_bind h
    obtain ⟨live', hT', hin, hout⟩ := hT.mapPage_leaf hr h1
    have hpath := path_eq_iff_of_canonical ha x.canonical (leafLevel_lt c x.size) x.aligned
    rw [ih hT' h, List.foldl_cons]
    congr 1
    unfold MapCall.remap
    split_ifs with hx
    · rw [getMapping_of_leaf hr (hin (hpath.mpr hx)), mappedPage,
        frame_leafEntry x.isFrame x.isFlags x.plain]
    · exact getMapping_congr hr (hout (mt hpath.mp hx))

end Correct

/-! ### A large page -/

/-- Two mappings of two megabytes on a fresh page table; the write-combining one is read one page
too far. -/
theorem large_mappings : ∃ managed live s s1 s2 root,
    Tables fourLevels managed (treePaths fourLevels root) live s ∧
      (∀ a, getMapping fourLevels s a root = 0) ∧
      mapRange fourLevels s 0x200000 0x400000 0x200000 write root = .ok s1 ∧
      mapRange fourLevels s 0x200000 0x400000 0x200000 writeCombining root = .ok s2 ∧
      getMapping fourLevels s2 0x200000 root = 0x401000 := by
  have heval : (do
      let pmm ← addSpans (Pmm.State.empty 4 64 false) [(0x10000, 0x40000)]
      let r ← allocPageTable ⟨pmm, fun _ _ => 0, 0, []⟩
      let _ ← mapRange fourLevels (r.2.zeroPage r.1) 0x200000 0x400000 0x200000 write r.1
      let s ← mapRange fourLevels (r.2.zeroPage r.1) 0x200000 0x400000 0x200000 writeCombining r.1
      pure (r.1, getMapping fourLevels s 0x200000 r.1) : Except String (ℕ × ℕ)).toOption =
      some (0x30000, 0x401000) := by
    decide +kernel
  obtain ⟨pmm, h1, h⟩ := ok_bind (ok_of_toOption heval)
  obtain ⟨⟨root, s⟩, h2, h⟩ := ok_bind h
  obtain ⟨s1, h3, h⟩ := ok_bind h
  obtain ⟨s2, h4, h⟩ := ok_bind h
  obtain ⟨hroot, hread⟩ := Prod.mk.inj (Except.ok.inj h)
  obtain ⟨managed, live, hT⟩ := tables_of_boot h1 h2 (hroot.trans_ne (by decide))
    (closed_treePaths fourLevels root) fun {r p} hp => by
      obtain ⟨virt, k, -, heq⟩ := hp
      exact (Prod.mk.inj heq).1
  have hzero : ∀ i, (s.zeroPage root).mem root i = 0 := fun i => by simp [State.zeroPage]
  refine ⟨managed, live, s.zeroPage root, s1, s2, root, hT, fun a => ?_, h3, h4, hread⟩
  refine getMapping_of_no_leaf hT.isFrame_treeRoot.1
    (no_leaf_of_end fourLevels.levels_pos rfl ?_ ?_)
  · rw [hzero]
    exact not_isLeaf_zero fourLevels 0
  · exact fun _ => next_of_zero (hzero _)

theorem canonical_demo (a : ℕ) (h : a < 0x200000 + alignUp 0x200000 pageSize) :
    Canonical fourLevels a := by
  have hsize : alignUp 0x200000 pageSize = 0x200000 := by decide
  have htop : fourLevels.userTop = 0x800000000000 := by decide
  rw [hsize] at h
  left
  rw [htop]
  omega

/-- A large page without write combining. -/
theorem mapRange_correct_iff_large : ∃ managed live s s' root,
    Tables fourLevels managed (treePaths fourLevels root) live s ∧
      mapRange fourLevels s 0x200000 0x400000 0x200000 write root = .ok s' ∧
      RangeCorrect fourLevels s s' 0x200000 0x400000 0x200000 root := by
  obtain ⟨managed, live, s, s₁, s₂, root, hT, -, h, -⟩ := large_mappings
  refine ⟨managed, live, s, s₁, root, hT, h, ?_⟩
  refine (mapRange_correct_iff hT (fun a _ => canonical_demo a) (by decide)
    (isFlags_twoPow (by decide)) h).mpr ?_
  rintro ⟨hwc, -⟩
  revert hwc
  decide

def largeCall : MapCall fourLevels :=
  ⟨0x200000, 0x400000, write, .size2M, canonical_demo _ (by decide), by decide,
    ⟨by decide, by decide⟩, isFlags_twoPow (by decide), by decide⟩

theorem getMapping_of_mapPages_large : ∃ managed live s s' root,
    Tables fourLevels managed (treePaths fourLevels root) live s ∧
      mapPage fourLevels s 0x200000 0x400000 write .size2M root = .ok s' ∧
      getMapping fourLevels s' 0x200000 root = 0x400000 := by
  obtain ⟨managed, live, s, _, _, root, hT, -, h, -⟩ := large_mappings
  obtain ⟨s', h, -⟩ := ok_bind (x := mapPage fourLevels s 0x200000 0x400000 write .size2M root) h
  refine ⟨managed, live, s, s', root, hT, h, ?_⟩
  have hmap : [largeCall].foldlM
      (fun s x => mapPage fourLevels s x.virt x.phys x.flags x.size root) s = .ok s' := by
    rw [List.foldlM_cons]
    exact congrArg (· >>= pure) h
  exact getMapping_of_mapPages hT largeCall.canonical hmap

/-- A write-combining range that is mapped and read back wrong. -/
theorem mapRange_reads_wrong_page :
    ¬∀ (c : Config) (managed live : ℕ → ℕ) (s s' : State) (virt phys size r : ℕ) (flags : Pte),
      Tables c managed (treePaths c r) live s →
      (∀ a, virt ≤ a → a < virt + alignUp size pageSize → Canonical c a) →
      phys + alignUp size pageSize ≤ 2 ^ c.physBits → IsFlags flags →
      (∀ o < alignUp size pageSize, getMapping c s (virt + o) r = 0) →
      mapRange c s virt phys size flags r = .ok s' → RangeCorrect c s s' virt phys size r := by
  intro hall
  obtain ⟨managed, live, s, s₁, s₂, root, hT, hempty, -, h, hread⟩ := large_mappings
  have hflags : IsFlags writeCombining := isFlags_twoPow (by decide)
  obtain ⟨hmap, -⟩ := hall fourLevels managed live s s₂ 0x200000 0x400000 0x200000 root
    writeCombining hT (fun a _ => canonical_demo a) (by decide) hflags (fun o _ => hempty _) h
  have hwrong := hmap 0 (by decide)
  rw [Nat.add_zero, hread] at hwrong
  revert hwrong
  decide

end RHKernel.Vmm
