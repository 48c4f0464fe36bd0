import RHKernel.File.Vfat.Create

/-!
# Creating a file and finding it

A new file is found, and with it all the others, exactly if its name can be read back and there is
room for its slots where the scanner looks.

A set of slots that reaches beyond a new cluster lies in the cluster with the next number. If this
is one of the directory, the short entry there comes before the parts of its long name, and the
scanner does not put them together.
-/

namespace RHKernel.Vfat

open List LittleEndian Option Rows

section Placed

variable {slot slot' : ℕ → Slot} {pre post old : List ℕ} {a : ℕ} {name sfn want : List UInt8}
  {units : Option (List ℕ)} {de x y : DirEnt}

/-- The new file is found, and what was found before still is. -/
theorem found_of_placed (post : List ℕ) (hp : Prepared name sfn units) (hr : Readable name units)
    (hstands : Stands slot' a sfn units) (hvisible : ∀ p ∈ pre, slot p 0 ≠ 0)
    (hpre : ∀ p ∈ pre, slot' p = slot p) (hreset : lfnAfter slot lfnReset pre = lfnReset)
    {l2 : List DirEnt} (hl2 : l2 = [] ∨ l2 = entries slot' lfnReset post)
    (hold : entries slot lfnReset old = entries slot lfnReset pre ++ l2)
    (hnew : (entries slot lfnReset old).find? (named name) = none) :
    (readAt slot' lfnReset a (longSlots units)).name = name ∧
      ((readAt slot' lfnReset a (longSlots units)).lfnSlots = 0 ∨
        (readAt slot' lfnReset a (longSlots units)).longName = some name) ∧
      (entries slot' lfnReset (pre ++ (List.range' a (longSlots units + 1) ++ post))).find?
        (named name) = some (readAt slot' lfnReset a (longSlots units)) ∧
      ∀ want e, (entries slot lfnReset old).find? (named want) = some e →
        (entries slot' lfnReset (pre ++ (List.range' a (longSlots units + 1) ++ post))).find?
          (named want) = some e := by
  obtain ⟨hshown, hname, hlong⟩ := (hstands.reads hp fun _ => rfl).mpr hr
  have hafter : entries slot' lfnReset (pre ++ (List.range' a (longSlots units + 1) ++ post)) =
      entries slot lfnReset pre ++
        readAt slot' lfnReset a (longSlots units) :: entries slot' lfnReset post := by
    rw [entries_append fun p hmem => by rw [hpre p hmem]; exact hvisible p hmem,
      entries_congr hpre, lfnAfter_congr hpre, hreset, hstands.entries hp, if_pos hshown,
      singleton_append]
  rw [hold] at hnew ⊢
  rw [hafter]
  refine ⟨hname, hlong, ?_⟩
  refine find?_insert (named_iff.mpr (congrArg _ hname)) hnew hl2 fun w y hx hy => ?_
  have := named_iff.mpr ((named_iff.mp hy).trans (named_iff.mp hx).symm)
  rwa [hname] at this

/-- An entry in the last slot of the set is the new one, and the scanner gets there. -/
theorem read_of_placed (hp : Prepared name sfn units) (hstands : Stands slot' a sfn units)
    (hnodup : (pre ++ (List.range' a (longSlots units + 1) ++ post)).Nodup)
    (hmem : de ∈ entries slot' lfnReset (pre ++ (List.range' a (longSlots units + 1) ++ post)))
    (hpos : de.pos = a + longSlots units) (hname : de.name = name)
    (hlong : de.lfnSlots = 0 ∨ de.longName = some name)
    (hreset : (∀ p ∈ pre, slot' p 0 ≠ 0) → lfnAfter slot' lfnReset pre = lfnReset) :
    (∀ p ∈ pre, slot' p 0 ≠ 0) ∧ Readable name units := by
  obtain ⟨ps, rs, hsplit, hvis, hshown, hde⟩ := mem_entries hmem
  have hlist : pre ++ (List.range' a (longSlots units + 1) ++ post) =
      (pre ++ List.range' a (longSlots units)) ++ (a + longSlots units) :: post := by
    rw [range'_1_concat, append_assoc, append_assoc, singleton_append]
  rw [hlist] at hnodup
  have hnot := nodup_middle.mp hnodup
  rw [nodup_cons, mem_append, not_or] at hnot
  rw [hlist, hpos] at hsplit
  obtain ⟨hps, -, -⟩ := (append_cons_inj_of_notMem hnot.1.1 hnot.1.2).mp hsplit
  rw [← hps] at hvis hshown hde
  have hvis' : ∀ p ∈ pre, slot' p 0 ≠ 0 := fun p hmem => hvis p (mem_append_left _ hmem)
  rw [lfnAfter_append, hreset hvis', hpos] at hshown hde
  refine ⟨hvis', (hstands.reads hp fun _ => rfl).mp ⟨hshown, ?_, ?_⟩⟩
  · exact (congrArg DirEnt.name hde).symm.trans hname
  · rw [hde] at hlong
    exact hlong

end Placed

section Complete

variable {slot : ℕ → Slot} {ps : List ℕ} {lfn : LfnState} {e : Slot} {p : ℕ}

/-- The parts that are marked stand in slots that were scanned, and the first of them says so. -/
structure Marked (slot : ℕ → Slot) (ps : List ℕ) (lfn : LfnState) : Prop where
  first_mem : lfn.firstAbs ∈ ps
  first_flag : slot lfn.firstAbs 0 &&& 0x40 ≠ 0
  mem : ∀ k, lfn.mask.testBit k = true → lfn.firstAbs + (lfn.total - 1 - k) ∈ ps

theorem lfnTake_cases (lfn : LfnState) (e : Slot) (p : ℕ) :
    (lfnTake lfn e p).active = false ∨ (e 0 &&& 0x40 ≠ 0 ∧ lfnTake lfn e p = LfnState.put
        { lfnReset with active := true, total := lfnOrd e, checksum := e 13, firstAbs := p } e) ∨
      (e 0 &&& 0x40 = 0 ∧ lfn.active = true ∧ 0 < lfnOrd e ∧ lfnOrd e < lfn.total ∧
        p = lfn.firstAbs + (lfn.total - lfnOrd e) ∧ lfnTake lfn e p = lfn.put e) := by
  unfold lfnTake
  split_ifs with h1 h2 h3
  · exact .inl rfl
  · exact .inr (.inl ⟨h2, rfl⟩)
  · exact .inl rfl
  · rw [not_or] at h1
    simp only [not_or, Bool.not_eq_false, not_not, not_le] at h2 h3
    exact .inr (.inr ⟨h2, h3.1, Nat.pos_of_ne_zero h1.1, h3.2.2.1, h3.2.2.2, rfl⟩)

theorem testBit_put (lfn : LfnState) (e : Slot) (k : ℕ) :
    (lfn.put e).mask.testBit k = (lfn.mask.testBit k || decide (lfnOrd e - 1 = k)) := by
  change (lfn.mask ||| 1 <<< (lfnOrd e - 1)).testBit k = _
  rw [Nat.testBit_or, Nat.one_shiftLeft, Nat.testBit_two_pow]

theorem marked_lfnStep (h : lfn.active = true → Marked slot ps lfn)
    (hactive : (lfnStep (slot p) lfn p).active = true) :
    Marked slot (ps ++ [p]) (lfnStep (slot p) lfn p) := by
  unfold lfnStep at hactive ⊢
  split_ifs at hactive ⊢ with hlong
  · rcases lfnTake_cases lfn (slot p) p with h1 | ⟨hflag, heq⟩ | ⟨-, ha, hpos, hlt, hp, heq⟩
    · exact absurd (h1.symm.trans hactive) Bool.false_ne_true
    · rw [heq]
      refine ⟨mem_append_right _ (mem_singleton_self p), hflag, fun k hk => ?_⟩
      rw [testBit_put, show lfnReset.mask = 0 from rfl, Nat.zero_testBit, Bool.false_or,
        decide_eq_true_eq] at hk
      refine mem_append_right _ (mem_singleton.mpr ?_)
      change p + (lfnOrd (slot p) - 1 - k) = p
      omega
    · rw [heq]
      obtain ⟨h1, h2, h3⟩ := h ha
      refine ⟨mem_append_left _ h1, h2, fun k hk => ?_⟩
      rw [testBit_put, Bool.or_eq_true, decide_eq_true_eq] at hk
      rcases hk with hk | rfl
      · exact mem_append_left _ (h3 k hk)
      · refine mem_append_right _ (mem_singleton.mpr ?_)
        change lfn.firstAbs + (lfn.total - 1 - (lfnOrd (slot p) - 1)) = p
        omega
  · exact absurd hactive Bool.false_ne_true

theorem marked_lfnAfter (slot : ℕ → Slot) (ps : List ℕ)
    (h : (lfnAfter slot lfnReset ps).active = true) :
    Marked slot ps (lfnAfter slot lfnReset ps) := by
  induction ps using List.reverseRecOn with
  | nil => exact absurd h Bool.false_ne_true
  | append_singleton ps p ih =>
    rw [lfnAfter_append] at h ⊢
    exact marked_lfnStep ih h

/-- A name is given out only if all its parts are marked. -/
theorem lfnEmit_complete {name : List UInt8} (h : lfnEmit lfn e = some name) :
    lfn.active = true ∧ ∀ k < lfn.total, lfn.mask.testBit k = true := by
  unfold lfnEmit at h
  split_ifs at h with h1 h2 h3
  rw [not_or] at h1
  refine ⟨Bool.eq_true_of_not_eq_false h1.1, fun k hk => ?_⟩
  have hbit := congrArg (fun m => Nat.testBit m k) (not_not.mp h3)
  simp only [Nat.testBit_and, Nat.testBit_two_pow_sub_one, hk, decide_true, Bool.and_true] at hbit
  exact hbit

/-- Behind a part that is not the first, the long name began as many slots before as the number of
the part says. -/
theorem lfnStep_continued (hflag : e 0 &&& 0x40 = 0) (h : (lfnStep e lfn p).active = true) :
    p = (lfnStep e lfn p).firstAbs + ((lfnStep e lfn p).total - lfnOrd e) ∧
      lfnOrd e < (lfnStep e lfn p).total := by
  unfold lfnStep at h ⊢
  split_ifs at h ⊢ with hlong
  · rcases lfnTake_cases lfn e p with h1 | ⟨h1, -⟩ | ⟨-, -, -, hlt, hp, heq⟩
    · exact absurd (h1.symm.trans h) Bool.false_ne_true
    · exact absurd hflag h1
    · rw [heq]
      exact ⟨hp, hlt⟩
  · exact absurd h Bool.false_ne_true

end Complete

/-! ### What is claimed -/

/-- The slot of the entry was free before, or is not one of the directory as it was. -/
def New (d : Dir) (de : DirEnt) : Prop := de.pos ∉ d.positions ∨ slotFree (d.slot de.pos)

/-- The name is found in `d'` as a new and empty file with that long name, if it has a long name,
and what was found before still is. -/
structure FindsNew (d d' : Dir) (name : List UInt8) (de : DirEnt) : Prop where
  scan_eq : d'.scan name = some de
  name_eq : de.name = name
  long : de.lfnSlots = 0 ∨ de.longName = some name
  new : New d de
  empty : de.attr = attrArchive ∧ de.firstCluster = 0 ∧ de.size = 0
  still : ∀ want e, d.scan want = some e → d'.scan want = some e

/-- `vfat_create` returns 0, the name is found afterwards, and what was found before still is. -/
def CreatesAndFinds (d : Dir) (name : List UInt8) : Prop :=
  ∃ de, (vfatCreate d name true).1 = some de ∧ FindsNew d (vfatCreate d name true).2 name de

/-- There is room where the scanner looks: a window in a cluster with no end before it, or no end at
all in a directory that can be extended by a cluster in which the slots fit. -/
def Reach (d : Dir) (need : ℕ) : Prop :=
  (∃ cs c cs' k, d.clusters = cs ++ c :: cs' ∧ d.Window need c k ∧
      ∀ p ∈ cs.flatMap d.range ++ List.range' (d.start c) k, d.slot p 0 ≠ 0) ∨
    (d.fixed = false ∧ d.free ≠ [] ∧ need ≤ d.perCluster ∧ ∀ p ∈ d.positions, d.slot p 0 ≠ 0)

/-- The name can be stored and read back, and there is room for its slots. -/
def Creatable (d : Dir) (name : List UInt8) : Prop :=
  ∃ units, Form d.taken name units ∧ Readable name units ∧ Reach d (longSlots units + 1)

/-! ### The slots of the new file -/

/-- The directory after the slots of the name were written at `a`. -/
def Dir.place (d : Dir) (a : ℕ) (sfn : List UInt8) (units : Option (List ℕ)) : Dir :=
  d.put a (nameEntries sfn units attrArchive 0 0)

section Place

variable {d : Dir} {name sfn : List UInt8} {units : Option (List ℕ)} {a p i : ℕ}

theorem place_of_outside (h : p < a ∨ a + (longSlots units + 1) ≤ p) :
    (d.place a sfn units).slot p = d.slot p := by
  rw [← length_nameEntries sfn units attrArchive 0 0] at h
  exact if_neg (by omega)

theorem place_at (hi : i < longSlots units + 1) :
    (d.place a sfn units).slot (a + i) =
      (nameEntries sfn units attrArchive 0 0).getD i fun _ => 0 := by
  rw [← length_nameEntries sfn units attrArchive 0 0] at hi
  refine (if_pos (by omega)).trans ?_
  rw [Nat.add_sub_cancel_left]

theorem stands_place (d : Dir) (a : ℕ) (sfn : List UInt8) (units : Option (List ℕ)) :
    Stands (d.place a sfn units).slot a sfn units := by
  refine ⟨fun i hi => ?_, ?_⟩
  · have hi' : i < ((List.range (longSlots units)).map fun i =>
        buildLfnSlot (longSlots units - i) (longSlots units) (shortChecksum fun i => sfn.getD i 0)
          (units.getD [])).length := by
      rwa [length_map, length_range]
    rw [place_at (by omega), nameEntries, getD_append _ _ _ _ hi',
      getD_eq_getElem _ _ hi', getElem_map, getElem_range]
  · rw [place_at (by omega), nameEntries, getD_append_right _ _ _ _ (by
      rw [length_map, length_range]), length_map, length_range, Nat.sub_self]
    rfl

/-- The only slot of the set that shows an entry is the last one. -/
theorem pos_of_new (hp : Prepared name sfn units) (hfree : slotFree (d.slot p))
    (huse : entryUsable ((d.place a sfn units).slot p)) : p = a + longSlots units := by
  by_contra hne
  by_cases hin : a ≤ p ∧ p < a + longSlots units
  · have hpart := (stands_place d a sfn units).isPart hp (i := p - a) (by omega)
    rw [Nat.add_sub_cancel' hin.1] at hpart
    exact huse.2.1 hpart.attr_eq
  · rw [place_of_outside (by omega)] at huse
    exact huse.1 hfree

end Place

section Main

variable {d d' d₁ : Dir} {name sfn long : List UInt8} {units : Option (List ℕ)} {c k a n p need : ℕ}
  {cs cs' ps pre post rs qs : List ℕ} {de : DirEnt} {slot : ℕ → Slot}

theorem scan_eq_find? (d : Dir) (want : List UInt8) :
    d.scan want = (entries d.slot lfnReset d.positions).find? (named want) :=
  scanEntries_eq d.slot want d.positions lfnReset

theorem readAt_empty (h : Stands slot a sfn units) (lfn : LfnState) :
    (readAt slot lfn a (longSlots units)).attr = attrArchive ∧
      (readAt slot lfn a (longSlots units)).firstCluster = 0 ∧
      (readAt slot lfn a (longSlots units)).size = 0 := by
  have hhigh : rd (buildSfnSlot sfn attrArchive 0 0) 20 2 = 0 := by
    rfl
  have hlow : rd (buildSfnSlot sfn attrArchive 0 0) 26 2 = 0 := by
    rfl
  have hsize : rd (buildSfnSlot sfn attrArchive 0 0) 28 4 = 0 := by
    rfl
  rw [readAt, h.2]
  refine ⟨rfl, ?_, hsize⟩
  change (rd _ 20 2 * 2 ^ 16 + rd _ 26 2) % 2 ^ 28 = 0
  rw [hhigh, hlow]
  rfl

theorem positions_window (hsplit : d.clusters = cs ++ c :: cs')
    (hwindow : d.Window need c k) :
    d.positions = (cs.flatMap d.range ++ List.range' (d.start c) k) ++
      (List.range' (d.start c + k) need ++
        (List.range' (d.start c + k + need) (d.perCluster - k - need) ++ cs'.flatMap d.range)) := by
  rw [positions_split hsplit, range_split hwindow.1]
  simp only [append_assoc]

theorem outside_middle (h : (pre ++ (List.range' a n ++ post)).Nodup)
    (hp : p ∈ pre ∨ p ∈ post) : p < a ∨ a + n ≤ p := by
  by_contra hin
  have hmem : p ∈ List.range' a n := mem_range'_1.mpr (by omega)
  rcases hp with hp | hp
  · exact (nodup_append.mp h).2.2 p hp p (mem_append_left _ hmem) rfl
  · exact (nodup_append.mp (nodup_append.mp h).2.1).2.2 p hmem p hp rfl

theorem mem_entries_of_findsNew (h : FindsNew d d' name de) :
    de ∈ entries d'.slot lfnReset d'.positions := by
  have hfind := h.scan_eq
  rw [scan_eq_find?] at hfind
  exact mem_of_find?_eq_some hfind

theorem pos_mem_of_mem_entries {lfn : LfnState} (h : de ∈ entries slot lfn ps) : de.pos ∈ ps := by
  obtain ⟨qs, rs, rfl, -⟩ := mem_entries h
  exact mem_append_right _ mem_cons_self

theorem usable_of_mem_entries {lfn : LfnState} (h : de ∈ entries slot lfn ps) :
    entryUsable (slot de.pos) := by
  obtain ⟨qs, rs, -, -, hshown, -⟩ := mem_entries h
  exact hshown.1

/-- A place for `n` slots at `a`, in a directory that is `d` or an extension of it: `pre` stands
before and `post` behind it. -/
structure Spot (d d₁ : Dir) (n a : ℕ) (pre post : List ℕ) : Prop where
  positions : d₁.positions = pre ++ (List.range' a n ++ post)
  nodup : d₁.positions.Nodup
  same : ∀ p ∈ pre, d₁.slot p = d.slot p
  new : ∀ p ∈ List.range' a n, p ∉ d.positions ∨ slotFree (d.slot p)
  free : ∀ p ∈ d₁.positions, p ∉ d.positions ∨ slotFree (d.slot p) → slotFree (d₁.slot p)
  reset : (∀ p ∈ pre, d.slot p 0 ≠ 0) → lfnAfter d.slot lfnReset pre = lfnReset
  old : (∀ p ∈ pre, d.slot p 0 ≠ 0) → ∃ l, (l = [] ∨ l = entries d₁.slot lfnReset post) ∧
    entries d.slot lfnReset d.positions = entries d.slot lfnReset pre ++ l

/-- A file is found there exactly if the scanner looks there and can read the name. -/
theorem Spot.findsNew_iff (h : Spot d d₁ (longSlots units + 1) a pre post)
    (hp : Prepared name sfn units)
    (hnew : d.scan name = none) : (∃ de, FindsNew d (d₁.place a sfn units) name de) ↔
      Readable name units ∧ ∀ p ∈ pre, d.slot p 0 ≠ 0 := by
  have hstands := stands_place d₁ a sfn units
  have hnodup := h.positions ▸ h.nodup
  have hpre : ∀ p ∈ pre, (d₁.place a sfn units).slot p = d.slot p := fun p hmem =>
    (place_of_outside (outside_middle hnodup (.inl hmem))).trans (h.same p hmem)
  constructor
  · rintro ⟨de, hfinds⟩
    have hmem := mem_entries_of_findsNew hfinds
    have hpos := pos_of_new hp (h.free _ (pos_mem_of_mem_entries hmem) hfinds.new)
      (usable_of_mem_entries hmem)
    change de ∈ entries _ lfnReset d₁.positions at hmem
    rw [h.positions] at hmem
    obtain ⟨hvis, hr⟩ := read_of_placed hp hstands hnodup hmem hpos hfinds.name_eq hfinds.long
      fun hvis => by
        rw [lfnAfter_congr hpre]
        exact h.reset fun p hmem => hpre p hmem ▸ hvis p hmem
    exact ⟨hr, fun p hmem => hpre p hmem ▸ hvis p hmem⟩
  · rintro ⟨hr, hvisible⟩
    have hpost : entries (d₁.place a sfn units).slot lfnReset post =
        entries d₁.slot lfnReset post :=
      entries_congr fun p hmem => place_of_outside (outside_middle hnodup (.inr hmem))
    obtain ⟨l, hl, hold⟩ := h.old hvisible
    obtain ⟨hname, hlong, hfind, hstill⟩ := found_of_placed post hp hr hstands hvisible hpre
      (h.reset hvisible) (hl.imp_right fun h => h.trans hpost.symm) hold
      (by rw [← scan_eq_find?]; exact hnew)
    rw [← h.positions] at hfind hstill
    refine ⟨_, ?_, hname, hlong, h.new _ ?_, readAt_empty hstands _, fun want e he => ?_⟩
    · rw [scan_eq_find?]
      exact hfind
    · exact mem_range'_1.mpr ⟨Nat.le_add_right _ _, Nat.lt_succ_self _⟩
    · rw [scan_eq_find?] at he ⊢
      exact hstill want e he

theorem spot_window (hw : WellFormed d) (hsplit : d.clusters = cs ++ c :: cs')
    (hwindow : d.Window (n + 1) c k) : Spot d d (n + 1) (d.start c + k)
      (cs.flatMap d.range ++ List.range' (d.start c) k)
      (List.range' (d.start c + k + (n + 1)) (d.perCluster - k - (n + 1)) ++
        cs'.flatMap d.range) := by
  have hpositions := positions_window hsplit hwindow
  generalize cs.flatMap d.range ++ List.range' (d.start c) k = pre at hpositions ⊢
  have hfree : ∀ p ∈ List.range' (d.start c + k) (n + 1), slotFree (d.slot p) := by
    intro p hmem
    obtain ⟨h1, h2⟩ := mem_range'_1.mp hmem
    have := hwindow.2 (p - (d.start c + k)) (by omega)
    rwa [Nat.add_sub_cancel' h1] at this
  have hreset : (∀ p ∈ pre, d.slot p 0 ≠ 0) → lfnAfter d.slot lfnReset pre = lfnReset := by
    refine fun hvis => lfnAfter_eq_reset _ (hpositions ▸ hw.tidy) (fun _ => rfl) hvis fun q hq => ?_
    rw [range'_succ, cons_append, head?_cons, mem_some_iff] at hq
    exact hfree q (hq ▸ mem_range'_1.mpr ⟨le_refl _, by omega⟩)
  refine ⟨hpositions, hw.nodup_positions, fun _ _ => rfl, fun p hmem => .inr (hfree p hmem),
    fun p hin hnew => hnew.resolve_left (not_not.mpr hin), hreset, fun hvis => ?_⟩
  have hold := (congrArg (entries d.slot lfnReset) hpositions).trans (entries_append hvis)
  exact ⟨_, entries_free (cons_ne_nil _ _) hfree, hold⟩

/-! ### In a new cluster -/

variable {free : List ℕ}

theorem positions_extend (d : Dir) (c : ℕ) (free : List ℕ) :
    (d.extend c free).positions = d.positions ++ d.range c := by
  change (d.clusters ++ [c]).flatMap d.range = _
  rw [flatMap_append, flatMap_singleton]
  rfl

variable (hw : WellFormed d)

include hw

variable (hfree : d.free = c :: free)

include hfree

theorem WellFormed.new_not_mem (hp : p ∈ d.positions) : p ∉ d.range c := by
  intro hpc
  obtain ⟨c', hc', hpc'⟩ := mem_positions.mp hp
  have hc : c ∈ d.free := hfree ▸ mem_cons_self
  have heq := eq_of_mem_range (hw.valid c (mem_append_right _ hc)).1
    (hw.valid c' (mem_append_left _ hc')).1 hpc hpc'
  exact (nodup_append.mp hw.nodup).2.2 c' hc' c hc heq.symm

theorem extend_slot_of_mem (hp : p ∈ d.positions) :
    (d.extend c free).slot p = d.slot p :=
  if_neg fun hin => hw.new_not_mem hfree hp (mem_range.mpr hin)

theorem WellFormed.nodup_extend : (d.positions ++ d.range c).Nodup := by
  refine nodup_append.mpr ⟨hw.nodup_positions, nodup_range', ?_⟩
  rintro p hp q hq rfl
  exact hw.new_not_mem hfree hp hq

/-- The slot of a new entry in an extended directory was free. -/
theorem free_of_new_extend
    (hmem : p ∈ (d.extend c free).positions) (hnew : p ∉ d.positions ∨ slotFree (d.slot p)) :
    slotFree ((d.extend c free).slot p) := by
  by_cases hc : p ∈ d.range c
  · exact .inl (congrFun (if_pos (mem_range.mp hc)) 0)
  · rw [positions_extend, mem_append] at hmem
    have hin := hmem.resolve_right hc
    rw [extend_slot_of_mem hw hfree hin]
    exact hnew.resolve_left (not_not.mpr hin)

omit hfree

/-- The new entry stands behind the parts of its long name. -/
theorem pos_of_findsNew_extend (hp : Prepared name sfn units) (hfree : d.free = c :: free)
    (h : FindsNew d ((d.extend c free).place (d.start c) sfn units) name de) :
    de.pos = d.start c + longSlots units := by
  have hmem := mem_entries_of_findsNew h
  exact pos_of_new hp (free_of_new_extend hw hfree (pos_mem_of_mem_entries hmem) h.new)
    (usable_of_mem_entries hmem)

theorem spot_extend (hfree : d.free = c :: free) (hfits : n ≤ d.perCluster) :
    Spot d (d.extend c free) n (d.start c) d.positions
      (List.range' (d.start c + n) (d.perCluster - n)) := by
  have hrange : d.range c = List.range' (d.start c) n ++
      List.range' (d.start c + n) (d.perCluster - n) := by
    rw [range'_append_1, Dir.range, Nat.add_sub_cancel' hfits]
  refine ⟨?_, ?_, fun p => extend_slot_of_mem hw hfree, fun p hmem => .inl fun hin => ?_,
    fun p => free_of_new_extend hw hfree, fun hvis => ?_, fun _ => ⟨[], .inl rfl, ?_⟩⟩
  · rw [positions_extend, hrange]
  · rw [positions_extend]
    exact hw.nodup_extend hfree
  · exact hw.new_not_mem hfree hin (hrange ▸ mem_append_left _ hmem)
  · exact lfnAfter_eq_reset [] (by rw [append_nil]; exact hw.tidy) (fun _ => rfl) hvis
      fun _ h => absurd h (Option.not_mem_none _)
  · exact (append_nil _).symm

omit hw

/-! ### Beyond a new cluster -/

theorem start_succ (hc : 2 ≤ c) : d.start (c + 1) = d.start c + d.perCluster := by
  rw [Dir.start, Dir.start, show c + 1 - 2 = c - 2 + 1 by omega, Nat.succ_mul, add_assoc]

theorem Prepared.length_gt (hp : Prepared name sfn units) (h : 16 ≤ longSlots units) :
    12 < name.length := by
  cases hu : units with
  | none =>
    rw [hu] at h
    exact absurd h (by decide)
  | some us =>
    rw [hu] at h
    change 16 ≤ (us.length + 1 + 12) / 13 at h
    obtain ⟨-, hbytes, -⟩ := utf8ToUtf16Units_spec hp.valid (hp.long us hu)
    have hle := length_le_flatMap_utf8Of us
    rw [hbytes] at hle
    omega

/-- An entry beyond the new cluster lies in the cluster with the next number, and this is what the
scanner has seen before it. -/
theorem seen_before_beyond (hw : WellFormed d) (hc : 2 ≤ c) (hfree : d.free = c :: free)
    (hp : p = d.start c + n) (hbeyond : d.perCluster ≤ n) (hn : n < 2 * d.perCluster)
    (hsplit : d.positions ++ d.range c = ps ++ p :: rs) :
    ∃ cs rest, d.positions = ps ++ p :: rest ∧
      ps = cs ++ List.range' (d.start c + d.perCluster) (n - d.perCluster) := by
  have hnot : p ∉ d.range c := fun hin => by
    have := (mem_range.mp hin).2
    omega
  have hin : p ∈ d.positions := by
    have hmem : p ∈ d.positions ++ d.range c := hsplit ▸ mem_append_right _ mem_cons_self
    exact (mem_append.mp hmem).resolve_right hnot
  obtain ⟨c', hc', hpc⟩ := mem_positions.mp hin
  have hnext : c' = c + 1 := by
    refine eq_of_mem_range (hw.valid c' (mem_append_left _ hc')).1 (by omega) hpc (mem_range.mpr ?_)
    rw [start_succ hc]
    omega
  subst hnext
  obtain ⟨cs, cs', hclusters⟩ := append_of_mem hc'
  have hlist : d.positions = (cs.flatMap d.range ++
      List.range' (d.start (c + 1)) (n - d.perCluster)) ++ p ::
      (List.range' (p + 1) (d.perCluster - (n - d.perCluster) - 1) ++ cs'.flatMap d.range) := by
    rw [positions_split hclusters,
      range_split (c := c + 1) (k := n - d.perCluster) (n := 1) (by omega),
      show d.start (c + 1) + (n - d.perCluster) = p by rw [hp, start_succ hc]; omega]
    simp only [append_assoc, range'_one, cons_append, nil_append]
  have hnodup := hw.nodup_extend hfree
  rw [hlist, append_assoc, cons_append] at hsplit hnodup
  have hout := (nodup_cons.mp (nodup_middle.mp hnodup)).1
  rw [mem_append, not_or] at hout
  obtain ⟨hps, -, -⟩ := (append_cons_inj_of_notMem hout.1 hout.2).mp hsplit
  exact ⟨cs.flatMap d.range, _, hps ▸ hlist, by rw [← hps, start_succ hc]⟩

/-- The parts of a long name that lie beyond the new cluster are not complete without those in it,
which the scanner has not seen. -/
theorem not_complete_beyond (hp : Prepared name sfn units) (hstands : Stands slot a sfn units)
    (hn : 0 < n) (hlt : n < longSlots units)
    (hunseen : a + n - 1 ∉ qs ++ List.range' (a + n) (longSlots units - n)) {e : Slot} :
    lfnEmit (lfnAfter slot lfnReset (qs ++ List.range' (a + n) (longSlots units - n))) e ≠
      some long := by
  intro hemit
  obtain ⟨hactive, hfull⟩ := lfnEmit_complete hemit
  obtain ⟨hfirst, hflag, hmem⟩ := marked_lfnAfter slot _ hactive
  have hpart := hstands.isPart hp (i := longSlots units - 1) (by omega)
  have hlast : lfnAfter slot lfnReset (qs ++ List.range' (a + n) (longSlots units - n)) =
      lfnStep (slot (a + (longSlots units - 1)))
        (lfnAfter slot lfnReset (qs ++ List.range' (a + n) (longSlots units - n - 1)))
        (a + (longSlots units - 1)) := by
    rw [show longSlots units - n = longSlots units - n - 1 + 1 by omega, range'_1_concat,
      ← append_assoc, lfnAfter_append,
      show a + n + (longSlots units - n - 1) = a + (longSlots units - 1) by omega]
    rfl
  have hnoflag : slot (a + (longSlots units - 1)) 0 &&& 0x40 = 0 := by
    by_contra hset
    have := hpart.first_iff.mp hset
    omega
  have hcont := lfnStep_continued hnoflag (by rw [← hlast]; exact hactive)
  rw [← hlast, hpart.ord_eq] at hcont
  generalize lfnAfter slot lfnReset (qs ++ List.range' (a + n) (longSlots units - n)) = st at *
  obtain hle | hgt := lt_or_ge st.firstAbs (a + n)
  · -- The last slot of the new cluster would have to be seen.
    have hsee := hmem (st.total - 1 - (a + n - 1 - st.firstAbs)) (hfull _ (by omega))
    rw [show st.firstAbs + (st.total - 1 - (st.total - 1 - (a + n - 1 - st.firstAbs))) =
      a + n - 1 by omega] at hsee
    exact hunseen hsee
  · -- No part beyond the new cluster is the first one.
    have hpart := hstands.isPart hp (i := st.firstAbs - a) (by omega)
    rw [Nat.add_sub_cancel' (by omega)] at hpart
    have := hpart.first_iff.mp hflag
    omega

/-- Slots that do not fit into the new cluster are not put together again. -/
theorem not_findsNew_beyond (hw : WellFormed d) (hfixed : d.fixed = false)
    (hp : Prepared name sfn units) (hfree : d.free = c :: free)
    (hbeyond : d.perCluster ≤ longSlots units) :
    ¬FindsNew d ((d.extend c free).place (d.start c) sfn units) name de := by
  set d' := (d.extend c free).place (d.start c) sfn units with hd'
  intro h
  have hsize := hw.size hfixed
  have hmax : longSlots units ≤ 20 := hp.longSlots_le
  have hc := (hw.valid c (mem_append_right _ (hfree ▸ mem_cons_self))).1
  have hpos := pos_of_findsNew_extend hw hp hfree h
  have hstands := stands_place (d.extend c free) (d.start c) sfn units
  obtain ⟨ps, rs, hsplit, hvis, -, hde⟩ := mem_entries (mem_entries_of_findsNew h)
  change (d.extend c free).positions = _ at hsplit
  rw [positions_extend] at hsplit
  obtain ⟨qs, rest, hlist, hps⟩ := seen_before_beyond hw hc hfree hpos hbeyond (by omega) hsplit
  have hseen : ∀ p ∈ ps, p ∉ d.range c := fun p hmem =>
    hw.new_not_mem hfree (hlist ▸ mem_append_left _ hmem)
  -- The name is too long for a short one, so the parts were complete.
  have hlong : lfnEmit (lfnAfter d'.slot lfnReset ps) (d'.slot de.pos) = some name := by
    have hname := (congrArg DirEnt.name hde).symm.trans h.name_eq
    change (lfnEmit _ _).getD (shortName _) = name at hname
    cases hemit : lfnEmit (lfnAfter d'.slot lfnReset ps) (d'.slot de.pos) with
    | some long =>
      rw [hemit] at hname
      exact congrArg some hname
    | none =>
      rw [hemit, hpos, hstands.2, getD_none] at hname
      have hshort := length_shortName_le (buildSfnSlot sfn attrArchive 0 0) rfl
      have hlen := hp.length_gt (by omega)
      rw [hname] at hshort
      omega
  rcases eq_or_lt_of_le hbeyond with heq | hlt
  · -- All parts are in the new cluster: before the entry nothing is pending.
    have hnotin : de.pos ∉ ps := by
      have hnodup := hw.nodup_positions
      rw [hlist] at hnodup
      exact fun hmem => (nodup_append.mp hnodup).2.2 _ hmem _ mem_cons_self rfl
    have hsame : ∀ p ∈ ps, d'.slot p = d.slot p := by
      intro p hmem
      have hin : p ∈ d.positions := hlist ▸ mem_append_left _ hmem
      rw [hd', place_of_outside, extend_slot_of_mem hw hfree hin]
      have hout := mt mem_range.mpr (hseen p hmem)
      have hne : p ≠ de.pos := fun he => hnotin (he ▸ hmem)
      omega
    have hpfree : slotFree (d.slot de.pos) :=
      h.new.resolve_left (not_not.mpr (hlist ▸ mem_append_right _ mem_cons_self))
    have hreset : lfnAfter d.slot lfnReset ps = lfnReset := by
      refine lfnAfter_eq_reset _ (hlist ▸ hw.tidy) (fun _ => rfl) (fun p hmem => ?_) fun q hq => ?_
      · rw [← hsame p hmem]
        exact hvis p hmem
      · rw [head?_cons, mem_some_iff] at hq
        exact hq ▸ hpfree
    rw [lfnAfter_congr hsame, hreset] at hlong
    exact absurd (lfnEmit_complete hlong).1 Bool.false_ne_true
  · rw [hps] at hlong
    refine not_complete_beyond hp hstands (by omega) hlt (fun hmem => ?_) hlong
    rw [← hps] at hmem
    exact hseen _ hmem (mem_range.mpr (by omega))

/-! ### When a file is created and found -/

/-- What `vfat_create` does with the slots of the name. -/
theorem vfatCreate_eq (hdir : d.attr &&& attrDir ≠ 0) (hrw : d.readonly = false)
    (hnew : d.scan name = none) {set : List Slot}
    (hset : buildNameEntries d.taken name attrArchive 0 0 = some set) :
    vfatCreate d name true = if (dirWriteEntries d set).1 = true then
      ((dirWriteEntries d set).2.scan name, (dirWriteEntries d set).2)
    else (none, (dirWriteEntries d set).2) := by
  have hgo : ¬(d.attr &&& attrDir = 0 ∨ d.readonly = true ∨ true = false) := by
    rw [hrw, not_or, not_or]
    exact ⟨hdir, Bool.false_ne_true, Bool.noConfusion⟩
  rw [vfatCreate, if_neg hgo, if_neg (by rw [hnew]; exact Bool.false_ne_true), hset]
  simp only
  rcases dirWriteEntries d set with ⟨ok, d'⟩
  cases ok <;> rfl

theorem createsAndFinds_of_written (h : vfatCreate d name true = (d'.scan name, d')) :
    CreatesAndFinds d name ↔ ∃ de, FindsNew d d' name de := by
  rw [CreatesAndFinds, h]
  exact ⟨fun ⟨de, _, h2⟩ => ⟨de, h2⟩, fun ⟨de, h2⟩ => ⟨de, h2.scan_eq, h2⟩⟩

theorem not_createsAndFinds (h : vfatCreate d name true = (none, d')) :
    ¬CreatesAndFinds d name := by
  rintro ⟨de, hsome, -⟩
  rw [h] at hsome
  exact some_ne_none _ hsome.symm

/-- If the scanner gets to any window, it gets to the first one. -/
theorem visible_of_reach (hsplit : d.clusters = cs ++ c :: cs')
    (hwindow : d.Window need c k) (hfirst : ∀ k' < k, ¬d.Window need c k')
    (hbefore : ∀ c ∈ cs, ∀ k, ¬d.Window need c k) (h : Reach d need) :
    ∀ p ∈ cs.flatMap d.range ++ List.range' (d.start c) k, d.slot p 0 ≠ 0 := by
  -- All slots before the first window are slots before the one that is reached.
  have hmono : ∀ {l : List ℕ}, (∀ p ∈ cs.flatMap d.range ++ List.range' (d.start c) k, p ∈ l) →
      (∀ p ∈ l, d.slot p 0 ≠ 0) →
      ∀ p ∈ cs.flatMap d.range ++ List.range' (d.start c) k, d.slot p 0 ≠ 0 :=
    fun hsub hall p hp => hall p (hsub p hp)
  have hwhole : ∀ p ∈ cs.flatMap d.range ++ List.range' (d.start c) k,
      p ∈ (cs ++ [c]).flatMap d.range := by
    intro p hp
    rw [flatMap_append, flatMap_singleton]
    refine (mem_append.mp hp).elim (mem_append_left _) fun hin => ?_
    have := mem_range'_1.mp hin
    have := hwindow.1
    exact mem_append_right _ (mem_range.mpr (by omega))
  have hsame : ∀ k', d.Window need c k' → ∀ p ∈ cs.flatMap d.range ++ List.range' (d.start c) k,
      p ∈ cs.flatMap d.range ++ List.range' (d.start c) k' := by
    intro k' hwindow' p hp
    refine (mem_append.mp hp).elim (mem_append_left _) fun hin => ?_
    have hle : k ≤ k' := not_lt.mp fun hlt => hfirst k' hlt hwindow'
    have := mem_range'_1.mp hin
    exact mem_append_right _ (mem_range'_1.mpr (by omega))
  rcases h with ⟨ds, c', ds', k', hsplit', hwindow', hvis⟩ | ⟨-, -, -, hvis⟩
  · rw [hsplit] at hsplit'
    rcases append_eq_append_iff.mp hsplit' with ⟨l, rfl, hl⟩ | ⟨l, rfl, hl⟩
    · cases l with
      | nil =>
        obtain ⟨rfl, -⟩ := List.cons.inj hl
        rw [append_nil] at hvis
        exact hmono (hsame k' hwindow') hvis
      | cons x l =>
        obtain ⟨rfl, -⟩ := List.cons.inj hl
        refine hmono (fun p hp => mem_append_left _ ?_) hvis
        have hin := hwhole p hp
        rw [append_cons, flatMap_append]
        exact mem_append_left _ hin
    · cases l with
      | nil =>
        obtain ⟨rfl, -⟩ := List.cons.inj hl
        rw [append_nil] at hsame hmono ⊢
        exact hmono (hsame k' hwindow') hvis
      | cons x l =>
        obtain ⟨rfl, -⟩ := List.cons.inj hl
        exact absurd hwindow' (hbefore _ (mem_append_right _ mem_cons_self) k')
  · refine hmono (fun p hp => ?_) hvis
    rw [Dir.positions, hsplit, append_cons, flatMap_append]
    exact mem_append_left _ (hwhole p hp)

/-- `vfat_create` makes a file that is found, and leaves all others to be found, exactly if the name
can be read back and there is room for its slots where the scanner looks. -/
theorem createsAndFinds_iff_creatable (hw : WellFormed d) (hdir : d.attr &&& attrDir ≠ 0)
    (hrw : d.readonly = false) (hname : validName name) (hnew : d.scan name = none) :
    CreatesAndFinds d name ↔ Creatable d name := by
  obtain ⟨sfn, units, hbuild, hp, hform, -⟩ | ⟨hbuild, hnone⟩ :=
    buildNameEntries_cases d.taken hname attrArchive 0 0
  swap
  · have hfail : vfatCreate d name true = (none, d) := by
      rw [vfatCreate, if_neg (by rw [hrw]; simpa using hdir),
        if_neg (by rw [hnew]; exact Bool.false_ne_true), hbuild]
    exact iff_of_false (not_createsAndFinds hfail) fun ⟨units, hform, _⟩ => hnone units hform
  have hcreatable : Creatable d name ↔ Readable name units ∧ Reach d (longSlots units + 1) := by
    refine ⟨fun ⟨units', h1, h2⟩ => ?_, fun h => ⟨units, hform, h⟩⟩
    obtain rfl := hform.unique h1
    exact h2
  have hcreate := vfatCreate_eq hdir hrw hnew hbuild
  have hlen := length_nameEntries sfn units attrArchive 0 0
  rw [hcreatable]
  rw [dirWriteEntries, hlen] at hcreate
  cases findFree_cases d (Nat.succ_pos (longSlots units)) with
  | window cs cs' c k hsplit hfind hwindow hfirst hbefore =>
    have hc : c ∈ d.clusters := hsplit ▸ mem_append_right _ mem_cons_self
    have hend : d.start c + k + (longSlots units + 1) ≤ d.imageEnd := by
      have := (hw.valid c (mem_append_left _ hc)).2
      have := hwindow.1
      omega
    rw [hfind] at hcreate
    simp only [if_pos hend] at hcreate
    rw [createsAndFinds_of_written hcreate]
    refine ((spot_window hw hsplit hwindow).findsNew_iff hp hnew).trans
      (and_congr_right fun _ => ?_)
    exact ⟨fun hvis => .inl ⟨cs, c, cs', k, hsplit, hwindow, hvis⟩,
      visible_of_reach hsplit hwindow hfirst hbefore⟩
  | extend c free hnone hfixed hfree hfind =>
    have hreach : Reach d (longSlots units + 1) ↔
        longSlots units + 1 ≤ d.perCluster ∧ ∀ p ∈ d.positions, d.slot p 0 ≠ 0 := by
      refine ⟨fun h => ?_, fun h => .inr ⟨hfixed, by rw [hfree]; exact cons_ne_nil _ _, h⟩⟩
      rcases h with ⟨cs, c', cs', k, hsplit, hwindow, -⟩ | ⟨-, -, h⟩
      · exact absurd hwindow (hnone c' (hsplit ▸ mem_append_right _ mem_cons_self) k)
      · exact h
    rw [hreach]
    rw [hfind] at hcreate
    by_cases hend : d.start c + (longSlots units + 1) ≤ d.imageEnd
    · simp only [show (d.extend c free).imageEnd = d.imageEnd from rfl, if_pos hend] at hcreate
      rw [createsAndFinds_of_written hcreate]
      by_cases hfits : longSlots units + 1 ≤ d.perCluster
      · exact ((spot_extend hw hfree hfits).findsNew_iff hp hnew).trans
          (and_congr_right fun _ => (and_iff_right hfits).symm)
      · exact iff_of_false (fun ⟨de, h⟩ => not_findsNew_beyond hw hfixed hp hfree (by omega) h)
          fun h => hfits h.2.1
    · simp only [show (d.extend c free).imageEnd = d.imageEnd from rfl, if_neg hend] at hcreate
      refine iff_of_false (not_createsAndFinds hcreate) fun ⟨_, hfits, _⟩ => hend ?_
      have := (hw.valid c (mem_append_right _ (hfree ▸ mem_cons_self))).2
      omega
  | full hnone hfull hfind =>
    rw [hfind] at hcreate
    refine iff_of_false (not_createsAndFinds hcreate) fun ⟨_, hreach⟩ => ?_
    rcases hreach with ⟨cs, c', cs', k, hsplit, hwindow, -⟩ | ⟨hfixed, hfree, -⟩
    · exact hnone c' (hsplit ▸ mem_append_right _ mem_cons_self) k hwindow
    · rcases hfull with (h | h) | h
      · exact absurd (hfixed.symm.trans h) Bool.false_ne_true
      · exact hw.ne_nil h
      · exact hfree h

end Main

/-! ### A directory of one cluster -/

/-- An entry of a file without a long name. -/
def oneLetter : Slot := buildSfnSlot (padded 11 [0x41]) attrArchive 0 0

/-- The first `n` of the 16 slots are in use, the others were never used; one more cluster is
free. -/
def oneCluster (n : ℕ) : Dir :=
  ⟨attrDir, false, false, 16, 0, 32, [2], [3], fun p => if p < n then oneLetter else fun _ => 0⟩

theorem createsAndFinds_in_half : CreatesAndFinds (oneCluster 8) [0x62] := by
  refine (createsAndFinds_iff_creatable ⟨by decide, by decide, by decide, by decide,
    by decide⟩ (by decide) rfl (by decide) (by decide)).mpr ?_
  have hform : Form (oneCluster 8).taken [0x62] (some [0x62]) := by
    refine .inr ⟨rfl, by decide, fun sfn h => ?_, 1, by decide, by decide,
      [0x42, 0x20, 0x20, 0x20, 0x20, 0x20, 0x7E, 0x31, 0x20, 0x20, 0x20], by decide,
      by decide⟩
    exact absurd (h.symm.trans (show makeExactSfn [0x62] = none by decide)) (some_ne_none _)
  refine ⟨some [0x62], hform, ⟨by decide, fun us hus => ?_⟩, .inl ⟨[], 2, [], 8, rfl, ?_, ?_⟩⟩
  · obtain rfl := some.inj hus
    decide
  · exact ⟨by decide, by decide⟩
  · exact (by decide : ∀ p ∈ List.range' 0 8, (oneCluster 8).slot p 0 ≠ 0)

/-- One slot of the cluster was never used. The name needs two, and they go to a new cluster, where
the scanner does not look: `vfat_create` fails. -/
theorem create_behind_end_fails :
    WellFormed (oneCluster 15) ∧ (oneCluster 15).attr &&& attrDir ≠ 0 ∧
      (oneCluster 15).readonly = false ∧ validName [0x62] ∧
      (oneCluster 15).scan [0x62] = none ∧ (oneCluster 15).free = [3] ∧
      (vfatCreate (oneCluster 15) [0x62] true).1 = none :=
  ⟨⟨by decide, by decide, by decide, by decide, by decide⟩, by decide⟩

end RHKernel.Vfat
