import Mathlib.Data.List.Range
import RHKernel.File.Vfat.Slots

/-!
# The slots of a new name

The slots that `build_name_entries` makes are what the scanner expects: behind the parts of the long
name it has collected all of them with the right checksum, and the short entry gets that name. A
name that is its own short form is read back from the short entry alone.
-/

namespace RHKernel.Vfat

open List LittleEndian

section Part

variable {e : Slot} {units : List ℕ} {sum : UInt8} {ord total j : ℕ}

/-- The slot is the part `ord` of `total` of a long name. -/
structure IsPart (e : Slot) (ord total : ℕ) (sum : UInt8) (units : List ℕ) : Prop where
  ord_eq : lfnOrd e = ord
  first_iff : e 0 &&& 0x40 ≠ 0 ↔ ord = total
  used : ¬slotFree e
  attr_eq : e 11 = attrLfn
  kind_eq : e 12 = 0
  sum_eq : e 13 = sum
  cluster_eq : rd e 26 2 = 0
  chars_eq : ∀ i < 13, lfnCharAt e i = lfnUnit units ((ord - 1) * 13 + i)

theorem lfnUnit_le (h : ∀ u ∈ units, u ≤ 0xFFFF) (idx : ℕ) : lfnUnit units idx ≤ 0xFFFF := by
  unfold lfnUnit
  split_ifs with h1 h2
  · rw [getD_eq_getElem _ _ h1]
    exact h _ (getElem_mem h1)
  · exact Nat.zero_le _
  · exact le_refl _

theorem outside_chars (ord : ℕ) (units : List ℕ)
    (hj : ∀ i < 13, j < lfnOffset i ∨ lfnOffset i + 2 ≤ j) :
    ∀ f ∈ (List.range 13).map fun i => (lfnOffset i, lfnUnit units ((ord - 1) * 13 + i)),
      j < f.1 ∨ f.1 + 2 ≤ j := by
  intro f hf
  obtain ⟨i, hi, rfl⟩ := mem_map.mp hf
  exact hj i (List.mem_range.mp hi)

theorem isPart_buildLfnSlot (h1 : 1 ≤ ord) (h2 : ord ≤ maxLfnSlots) (sum : UInt8)
    (hunits : ∀ u ∈ units, u ≤ 0xFFFF) :
    IsPart (buildLfnSlot ord total sum units) ord total sum units := by
  have hzero : buildLfnSlot ord total sum units 0 =
      UInt8.ofNat (ord ||| if ord = total then 0x40 else 0) :=
    wrAll_of_outside (outside_chars ord units (by decide))
  have hflags : ∀ ord ≤ 20, 1 ≤ ord →
      ((UInt8.ofNat (ord ||| 0x40) &&& 0x1F).toNat = ord ∧ UInt8.ofNat (ord ||| 0x40) &&& 0x40 ≠ 0 ∧
        UInt8.ofNat (ord ||| 0x40) ≠ 0 ∧ UInt8.ofNat (ord ||| 0x40) ≠ 0xE5) ∧
      ((UInt8.ofNat (ord ||| 0) &&& 0x1F).toNat = ord ∧ UInt8.ofNat (ord ||| 0) &&& 0x40 = 0 ∧
        UInt8.ofNat (ord ||| 0) ≠ 0 ∧ UInt8.ofNat (ord ||| 0) ≠ 0xE5) := by
    decide
  obtain ⟨⟨hf1, hf2, hf3, hf4⟩, hn1, hn2, hn3, hn4⟩ := hflags ord h2 h1
  refine ⟨?_, ?_, ?_, ?_, ?_, ?_, ?_, ?_⟩
  · rw [lfnOrd, hzero]
    split_ifs
    · exact hf1
    · exact hn1
  · rw [hzero]
    split_ifs with h
    · exact iff_of_true hf2 h
    · exact iff_of_false (not_not.mpr hn2) h
  · rw [slotFree, hzero]
    split_ifs
    · exact not_or.mpr ⟨hf3, hf4⟩
    · exact not_or.mpr ⟨hn3, hn4⟩
  · exact wrAll_of_outside (outside_chars ord units (by decide))
  · exact wrAll_of_outside (outside_chars ord units (by decide))
  · exact wrAll_of_outside (outside_chars ord units (by decide))
  · refine (rd_wrAll_of_disjoint fun f hf => ?_).trans (rd_wr_self _ 26 2 0)
    obtain ⟨i, hi, rfl⟩ := mem_map.mp hf
    have hsep : ∀ i < 13, 26 + 2 ≤ lfnOffset i ∨ lfnOffset i + 2 ≤ 26 := by decide
    exact hsep i (List.mem_range.mp hi)
  · intro i hi
    have hsep : (List.range 13).Pairwise fun i j =>
        lfnOffset i + 2 ≤ lfnOffset j ∨ lfnOffset j + 2 ≤ lfnOffset i := by
      decide
    have hfields : ((List.range 13).map fun i =>
        (lfnOffset i, lfnUnit units ((ord - 1) * 13 + i))).Pairwise
          fun f g => f.1 + 2 ≤ g.1 ∨ g.1 + 2 ≤ f.1 :=
      pairwise_map.mpr hsep
    refine (rd_wrAll hfields (mem_map.mpr ⟨i, List.mem_range.mpr hi, rfl⟩)).trans
      (Nat.mod_eq_of_lt ?_)
    exact Nat.lt_succ_of_le (lfnUnit_le hunits _)

end Part

section Collect

variable {slot : ℕ → Slot} {lfn : LfnState} {units : List ℕ} {sum : UInt8} {a total j : ℕ}

/-- The first `j` slots of a long name, from `a` on, were taken. -/
structure Collected (lfn : LfnState) (a total j : ℕ) (sum : UInt8) (units : List ℕ) : Prop where
  active_eq : lfn.active = true
  invalid_eq : lfn.invalid = false
  sum_eq : lfn.checksum = sum
  total_eq : lfn.total = total
  first_eq : lfn.firstAbs = a
  mask_eq : ∀ k, lfn.mask.testBit k = decide (total - j ≤ k ∧ k < total)
  chars_eq : ∀ k, lfn.chars k =
    if (total - j) * 13 ≤ k ∧ k < total * 13 ∧ k < maxLfnChars then lfnUnit units k else 0

theorem Collected.put {e : Slot} (h : Collected lfn a total j sum units)
    (he : IsPart e (total - j) total sum units) (hj : j < total) :
    Collected (lfn.put e) a total (j + 1) sum units := by
  refine { h with mask_eq := fun k => ?_, chars_eq := fun k => ?_ }
  · change (lfn.mask ||| 1 <<< (lfnOrd e - 1)).testBit k = _
    rw [Nat.testBit_or, h.mask_eq, Nat.one_shiftLeft, Nat.testBit_two_pow, he.ord_eq,
      ← Bool.decide_or, decide_eq_decide]
    omega
  · change (if _ then _ else lfn.chars k) = _
    rw [h.chars_eq, he.ord_eq]
    by_cases hk : (total - j - 1) * 13 ≤ k ∧ k < (total - j - 1) * 13 + 13 ∧ k < maxLfnChars
    · rw [if_pos hk, if_pos (by omega), he.chars_eq _ (by omega)]
      congr 1
      omega
    · rw [if_neg hk]
      refine if_congr ?_ rfl rfl
      omega

theorem Collected.step {e : Slot} (h : 0 < j → Collected lfn a total j sum units)
    (he : IsPart e (total - j) total sum units) (hj : j < total) (htotal : total ≤ maxLfnSlots) :
    Collected (lfnStep e lfn (a + j)) a total (j + 1) sum units := by
  have hgood : ¬(lfnOrd e = 0 ∨ maxLfnSlots < lfnOrd e ∨ e 12 ≠ 0 ∨ rd e 26 2 ≠ 0) := by
    rw [he.ord_eq, he.kind_eq, he.cluster_eq, not_or, not_or, not_or]
    exact ⟨by omega, by omega, not_not.mpr rfl, not_not.mpr rfl⟩
  rw [lfnStep, if_pos ⟨fun h5 => he.used (.inr h5), he.attr_eq⟩, lfnTake, if_neg hgood]
  rcases eq_zero_or_pos j with rfl | hpos
  · rw [if_pos (he.first_iff.mpr (Nat.sub_zero _))]
    refine Collected.put ⟨rfl, rfl, he.sum_eq, he.ord_eq.trans (Nat.sub_zero _), rfl, fun k => ?_,
      fun k => ?_⟩ he hj
    · rw [show lfnReset.mask = 0 from rfl, Nat.zero_testBit]
      exact (decide_eq_false (by omega)).symm
    · exact (if_neg (by omega)).symm
  · have h := h hpos
    rw [if_neg (fun hf => absurd (he.first_iff.mp hf) (by omega)), if_neg]
    · exact h.put he hj
    · rw [h.active_eq, h.sum_eq, h.total_eq, h.first_eq, he.ord_eq, he.sum_eq, not_or, not_or,
        not_or]
      exact ⟨Bool.noConfusion, not_not.mpr rfl, by omega, by omega⟩

theorem collected_lfnAfter (hslot : ∀ i < total, IsPart (slot (a + i)) (total - i) total sum units)
    (htotal : total ≤ maxLfnSlots) (hj : j ≤ total) (hpos : 0 < j) (lfn : LfnState) :
    Collected (lfnAfter slot lfn (List.range' a j)) a total j sum units := by
  induction j with
  | zero => exact absurd hpos (lt_irrefl 0)
  | succ j ih =>
    rw [range'_1_concat, lfnAfter_append]
    exact Collected.step (ih (by omega)) (hslot j hj) hj htotal

theorem Collected.mask_full (h : Collected lfn a total total sum units) :
    lfn.mask &&& (2 ^ total - 1) = 2 ^ total - 1 := by
  refine Nat.eq_of_testBit_eq fun k => ?_
  rw [Nat.testBit_and, h.mask_eq, Nat.testBit_two_pow_sub_one]
  by_cases hk : k < total <;> simp [hk]

/-- What the scanner makes of the parts at the entry behind them. -/
theorem Collected.emit (h : Collected lfn a total total sum units) (hpos : 0 < total)
    (htotal : total ≤ maxLfnSlots) {e : Slot} (hsum : sum = shortChecksum e) :
    lfnEmit lfn e = utf16ToUtf8 lfn.chars := by
  rw [lfnEmit, h.active_eq, h.invalid_eq, h.sum_eq, h.total_eq, if_neg, if_neg,
    if_neg (not_not.mpr h.mask_full)]
  · omega
  · rw [not_or, not_or]
    exact ⟨Bool.noConfusion, Bool.noConfusion, not_not.mpr hsum⟩

end Collect

section Short

variable {e : Slot} {name sfn part l : List UInt8}

theorem buildSfnSlot_name (sfn : List UInt8) (attr : UInt8) (firstCluster size : ℕ) {i : ℕ}
    (hi : i < 11) : buildSfnSlot sfn attr firstCluster size i = sfn.getD i 0 := by
  unfold buildSfnSlot
  rw [wr_of_outside (.inl (by omega)), wr_of_outside (.inl (by omega)),
    wr_of_outside (.inl (by omega)), Function.update_of_ne (by omega)]
  exact if_pos hi

theorem shortChecksum_congr {f g : ℕ → UInt8} (h : ∀ i < 11, f i = g i) :
    shortChecksum f = shortChecksum g := by
  refine foldl_ext _ _ _ fun sum i hi => ?_
  rw [h i (List.mem_range.mp hi)]

theorem takeWhile_padded {n : ℕ} (h : ∀ c ∈ part, c ≠ 0x20) :
    (padded n part).takeWhile (· != 0x20) = part := by
  rw [padded, takeWhile_append_of_pos fun c hc => bne_iff_ne.mpr (h c hc)]
  cases n - part.length with
  | zero => exact append_nil _
  | succ k =>
    rw [replicate_succ, takeWhile_cons_of_neg (by decide), append_nil]

theorem map_range'_eq {s n : ℕ} (hl : l.length = n)
    (h : ∀ i < n, e (s + i) = l.getD i 0) : (List.range' s n).map e = l := by
  refine ext_getElem (by rw [length_map, length_range', hl]) fun i h1 h2 => ?_
  rw [getElem_map, getElem_range', one_mul, h i (by omega), getD_eq_getElem _ _ h2]

theorem shortName_exact (hname : validName name) (h : makeExactSfn name = some sfn)
    (he : ∀ i < 11, e i = sfn.getD i 0) (hcase : e 12 = 0) : shortName e = name := by
  obtain ⟨-, hb, hx, hbase, hext, rfl⟩ := makeExactSfn_eq_some h
  have hlen := length_padded hb
  have hleft : (List.range 8).map e = padded 8 (baseOf name) := by
    refine map_range'_eq hlen fun i hi => ?_
    rw [Nat.zero_add, he i (by omega), getD_append _ _ _ _ (by omega)]
  have hright : (List.range' 8 3).map e = padded 3 (extOf name) := by
    refine map_range'_eq (length_padded hx) fun i hi => ?_
    rw [he _ (by omega), getD_append_right _ _ _ _ (by omega), hlen, Nat.add_sub_cancel_left]
  have hdot : e 8 = (padded 3 (extOf name)).getD 0 0 := by
    rw [he 8 (by omega), getD_append_right _ _ _ _ (by omega), hlen]
  have hparts : baseOf name ++ (if e 8 = 0x20 then [] else 0x2E :: extOf name) = name := by
    rcases name_parts name with ⟨heq, hnil⟩ | heq
    · rw [hdot, hnil, if_pos (by decide), append_nil]
      exact heq.symm
    have hne := extOf_ne_nil hname heq
    rw [hdot, if_neg]
    · exact heq.symm
    · cases hx : extOf name with
      | nil => exact absurd hx hne
      | cons c rest => exact (exactChar_spec (hext c (hx ▸ mem_cons_self))).2.1
  unfold shortName
  simp only [hleft, hright, hcase, takeWhile_padded fun c hc => (exactChar_spec (hbase c hc)).2.1,
    takeWhile_padded fun c hc => (exactChar_spec (hext c hc)).2.1, hparts]
  exact takeWhile_eq_self_iff.mpr fun c hc => bne_iff_ne.mpr (hname.ne_zero c hc)

theorem length_shortName_le (e : Slot) (hcase : e 12 = 0) : (shortName e).length ≤ 12 := by
  unfold shortName
  simp only [hcase]
  refine (takeWhile_sublist _).length_le.trans ?_
  have hbase := (takeWhile_sublist (l := (List.range 8).map e) (· != 0x20)).length_le
  have hext := (takeWhile_sublist (l := (List.range' 8 3).map e) (· != 0x20)).length_le
  rw [length_map, length_range] at hbase
  rw [length_map, length_range'] at hext
  rw [length_append]
  split_ifs
  · rw [length_nil]
    omega
  · rw [length_cons]
    omega

/-- The short entry of a new file is shown unless its first character says that it is deleted. -/
theorem entryUsable_buildSfnSlot (hfirst : FirstOf name sfn) (firstCluster size : ℕ) :
    entryUsable (buildSfnSlot sfn attrArchive firstCluster size) ↔ name.getD 0 0 ≠ 0xE5 := by
  have h0 := buildSfnSlot_name sfn attrArchive firstCluster size (i := 0) (by omega)
  have h11 : buildSfnSlot sfn attrArchive firstCluster size 11 = attrArchive := rfl
  rw [entryUsable, slotFree, h0, h11, hfirst.e5_iff]
  refine ⟨fun h h5 => h.1 (.inr h5), fun h => ⟨?_, by decide, by decide⟩⟩
  exact not_or.mpr ⟨hfirst.ne_zero, h⟩

end Short

/-! ### The whole set -/

/-- The short form and the long form that `build_name_entries` chooses for a name. -/
structure Prepared (name sfn : List UInt8) (units : Option (List ℕ)) : Prop where
  valid : validName name
  first : FirstOf name sfn
  short : units = none → makeExactSfn name = some sfn
  long : ∀ us, units = some us → utf8ToUtf16Units name = some us

/-- The name does not begin with the character that marks a slot as deleted, and none of its
characters ends a long name. -/
def Readable (name : List UInt8) (units : Option (List ℕ)) : Prop :=
  name.getD 0 0 ≠ 0xE5 ∧ ∀ us, units = some us → 0xFFFF ∉ us

section Set

variable {slot : ℕ → Slot} {lfn : LfnState} {name sfn : List UInt8} {units : Option (List ℕ)}
  {a i : ℕ} {qs : List ℕ}

/-- The slots of a new file stand at `a`. -/
def Stands (slot : ℕ → Slot) (a : ℕ) (sfn : List UInt8) (units : Option (List ℕ)) : Prop :=
  (∀ i < longSlots units, slot (a + i) = buildLfnSlot (longSlots units - i) (longSlots units)
      (shortChecksum fun i => sfn.getD i 0) (units.getD [])) ∧
    slot (a + longSlots units) = buildSfnSlot sfn attrArchive 0 0

/-- What the scanner makes of the entry behind `n` slots from `a` on. -/
def readAt (slot : ℕ → Slot) (lfn : LfnState) (a n : ℕ) : DirEnt :=
  decodeEntry (slot (a + n)) (lfnAfter slot lfn (List.range' a n)) (a + n)

/-- The scanner shows that entry. -/
def ShownAt (slot : ℕ → Slot) (lfn : LfnState) (a n : ℕ) : Prop :=
  shown (slot (a + n)) (lfnAfter slot lfn (List.range' a n)) (a + n)

instance (slot : ℕ → Slot) (lfn : LfnState) (a n : ℕ) : Decidable (ShownAt slot lfn a n) :=
  inferInstanceAs (Decidable (shown _ _ _))

theorem length_nameEntries (sfn : List UInt8) (units : Option (List ℕ)) (attr : UInt8)
    (firstCluster size : ℕ) :
    (nameEntries sfn units attr firstCluster size).length = longSlots units + 1 := by
  rw [nameEntries, length_append, length_map, length_range, length_singleton]

theorem Prepared.longSlots_le (h : Prepared name sfn units) : longSlots units ≤ maxLfnSlots := by
  cases hu : units with
  | none => exact Nat.zero_le _
  | some us =>
    have hlen := (utf8ToUtf16Units_spec h.valid (h.long us hu)).2.2.2
    rw [maxLfnChars] at hlen
    change (us.length + 1 + 12) / 13 ≤ 20
    omega

theorem longSlots_pos (us : List ℕ) : 0 < longSlots (some us) := by
  change 0 < (us.length + 1 + 12) / 13
  omega

theorem Stands.isPart (h : Stands slot a sfn units) (hp : Prepared name sfn units)
    (hi : i < longSlots units) :
    IsPart (slot (a + i)) (longSlots units - i) (longSlots units)
      (shortChecksum fun i => sfn.getD i 0) (units.getD []) := by
  have hle := hp.longSlots_le
  rw [h.1 i hi]
  refine isPart_buildLfnSlot (by omega) (by omega) _ ?_
  cases hu : units with
  | none =>
    rw [hu] at hi
    exact absurd hi (Nat.not_lt_zero i)
  | some us =>
    exact fun u hmem => ((utf8ToUtf16Units_spec hp.valid (hp.long us hu)).2.2.1 u hmem).2.1

/-- The slots before the short entry show nothing, and behind it the scanner starts anew. -/
theorem Stands.entries (h : Stands slot a sfn units) (hp : Prepared name sfn units) :
    entries slot lfn (List.range' a (longSlots units + 1) ++ qs) =
      (if ShownAt slot lfn a (longSlots units) then [readAt slot lfn a (longSlots units)]
        else []) ++ entries slot lfnReset qs := by
  have hparts : ∀ p ∈ List.range' a (longSlots units), slot p 0 ≠ 0 ∧ slot p 11 = attrLfn := by
    intro p hmem
    obtain ⟨h1, h2⟩ := mem_range'_1.mp hmem
    have hpart := h.isPart hp (i := p - a) (by omega)
    rw [Nat.add_sub_cancel' h1] at hpart
    exact ⟨fun h0 => hpart.used (.inl h0), hpart.attr_eq⟩
  have hquiet : Vfat.entries slot lfn (List.range' a (longSlots units)) = [] := by
    refine eq_nil_iff_forall_not_mem.mpr fun de hde => ?_
    obtain ⟨ps, rs, hsplit, -, hshown, -⟩ := mem_entries hde
    exact hshown.1.2.1 (hparts de.pos (hsplit ▸ mem_append_right ps mem_cons_self)).2
  have h0 : slot (a + longSlots units) 0 ≠ 0 := by
    rw [h.2, buildSfnSlot_name sfn attrArchive 0 0 (by omega)]
    exact hp.first.ne_zero
  have h11 : slot (a + longSlots units) 11 ≠ attrLfn := by
    rw [h.2]
    exact show ¬attrArchive = attrLfn by decide
  have hstep : ∀ st, lfnStep (slot (a + longSlots units)) st (a + longSlots units) = lfnReset :=
    fun st => if_neg fun hl => h11 hl.2
  rw [range'_1_concat, append_assoc, entries_append fun p hmem => (hparts p hmem).1,
    hquiet, nil_append, singleton_append, Vfat.entries, if_neg h0, hstep]
  rfl

section Long

variable {us : List ℕ}

theorem Stands.collected (h : Stands slot a sfn (some us)) (hp : Prepared name sfn (some us))
    (lfn : LfnState) :
    Collected (lfnAfter slot lfn (List.range' a (longSlots (some us)))) a (longSlots (some us))
      (longSlots (some us)) (shortChecksum fun i => sfn.getD i 0) us :=
  collected_lfnAfter (fun _ hi => h.isPart hp hi) hp.longSlots_le (le_refl _) (longSlots_pos us) lfn

/-- Behind the parts a short entry gets the long name, unless a character ends it too early. -/
theorem Stands.emits (h : Stands slot a sfn (some us)) (hp : Prepared name sfn (some us))
    (lfn : LfnState) {e : Slot} (he : ∀ i < 11, e i = sfn.getD i 0) :
    lfnEmit (lfnAfter slot lfn (List.range' a (longSlots (some us)))) e = some name ↔
      0xFFFF ∉ us := by
  have hcol := h.collected hp lfn
  have hunits := hp.long us rfl
  obtain ⟨-, -, -, hlen⟩ := utf8ToUtf16Units_spec hp.valid hunits
  have hlast : us.length < longSlots (some us) * 13 := by
    change us.length < (us.length + 1 + 12) / 13 * 13
    omega
  rw [hcol.emit (longSlots_pos us) hp.longSlots_le (shortChecksum_congr fun i hi => (he i hi).symm)]
  refine utf16ToUtf8_stored hp.valid hunits (fun k hk => ?_) fun hk => ?_
  · rw [hcol.chars_eq, if_pos (by omega)]
    exact if_pos hk
  · rw [hcol.chars_eq, if_pos (by omega)]
    exact (if_neg (lt_irrefl _)).trans (if_pos rfl)

end Long

/-- What the scanner reads in the short entry behind the parts. -/
theorem Stands.reads (h : Stands slot a sfn units) (hp : Prepared name sfn units)
    (hlfn : units = none → lfn = lfnReset) :
    (ShownAt slot lfn a (longSlots units) ∧ (readAt slot lfn a (longSlots units)).name = name ∧
      ((readAt slot lfn a (longSlots units)).lfnSlots = 0 ∨
        (readAt slot lfn a (longSlots units)).longName = some name)) ↔ Readable name units := by
  have huse := entryUsable_buildSfnSlot hp.first 0 0
  rw [ShownAt, readAt, h.2]
  set e := buildSfnSlot sfn attrArchive 0 0
  -- The name is shown if it is read.
  have hshown : ∀ st : LfnState, name.getD 0 0 ≠ 0xE5 →
      (decodeEntry e st (a + longSlots units)).name = name →
      shown e st (a + longSlots units) := by
    intro st h5 hname
    refine ⟨huse.mpr h5, ?_, ?_⟩
    · rw [hname]
      exact fun hnil => hp.valid.1 (by rw [hnil]; rfl)
    · rw [hname]
      exact hp.valid.2.2.1
  cases hu : units with
  | none =>
    obtain rfl := hlfn hu
    have hname : shortName e = name :=
      shortName_exact hp.valid (hp.short hu) (fun i hi => buildSfnSlot_name _ _ _ _ hi) rfl
    refine ⟨fun hs => ⟨huse.mp hs.1.1, nofun⟩, fun hr => ⟨?_, hname, .inl rfl⟩⟩
    exact hshown _ hr.1 hname
  | some us =>
    rw [hu] at h hp hshown
    have hcol := h.collected hp lfn
    have hlong := h.emits hp lfn fun i hi => buildSfnSlot_name sfn attrArchive 0 0 hi
    constructor
    · rintro ⟨hs, -, hslots | hname⟩
      · have htotal := (if_pos hcol.active_eq).symm.trans hslots
        rw [hcol.total_eq] at htotal
        exact absurd htotal (pos_iff_ne_zero.mp (longSlots_pos us))
      · refine ⟨huse.mp hs.1, fun us' hus => ?_⟩
        obtain rfl := Option.some.inj hus
        exact hlong.mp hname
    · rintro ⟨h5, hF⟩
      have hemit := hlong.mpr (hF us rfl)
      have hname : (decodeEntry e
          (lfnAfter slot lfn (List.range' a (longSlots (some us))))
          (a + longSlots (some us))).name = name := by
        change (lfnEmit _ _).getD _ = name
        rw [hemit]
        rfl
      exact ⟨hshown _ h5 hname, hname, .inr hemit⟩

end Set

end RHKernel.Vfat
