import RHKernel.File.Exfat.Directory
import RHKernel.File.Exfat.RoundTrip
import RHKernel.Lib.Rows

/-!
# Creating a file and finding it

A scan of a directory goes from one file set to the next until it meets the end marker: `Passes`
says which files it comes by on the way. A new set is found again if the scan gets to it, and this
is decided by `dir_find_free`. It takes a run of free entries up to the end marker; if there is
none, a directory other than the root gets a new cluster, and the set is put there even if the end
marker stands before it.
-/

namespace RHKernel.Exfat

open List Option Rows Or

variable {fs : Volume} {d d' : Dir} {i j n fuel cp k need run start count index m : ℕ}
  {l l' l₁ l₂ : List DirEntry}
  {de x : DirEntry} {s : List UInt8} {e : Entry} {read read' : ℕ → Except Int Entry}

theorem paired_cons {u : UInt16} {s : List UInt16} (h : ¬highSurrogate u ∧ ¬lowSurrogate u)
    (hs : Paired s) : Paired (u :: s) := by
  cases s with
  | nil => exact h
  | cons v s =>
    rw [Paired, if_neg h.1]
    exact ⟨h.2, hs⟩

theorem not_surrogate_ofNat (h : cp < 0xD800 ∨ 0xDFFF < cp ∧ cp < 0x10000) :
    ¬highSurrogate (.ofNat cp) ∧ ¬lowSurrogate (.ofNat cp) := by
  have hval : (UInt16.ofNat cp).toNat = cp := by
    exact Nat.mod_eq_of_lt (by omega)
  simp only [highSurrogate, lowSurrogate, UInt16.le_iff_toNat_le, hval]
  exact ⟨fun hc => by have h1 : 0xD800 ≤ cp := hc.1; have h2 : cp ≤ 0xDBFF := hc.2; omega,
    fun hc => by have h1 : 0xDC00 ≤ cp := hc.1; have h2 : cp ≤ 0xDFFF := hc.2; omega⟩

theorem surrogates_ofNat (h : cp ≤ 0x10FFFF) :
    highSurrogate (.ofNat (0xD800 + (cp - 0x10000) / 1024)) ∧
      lowSurrogate (.ofNat (0xDC00 + (cp - 0x10000) % 1024)) := by
  have hval : ∀ x < 0x10000, (UInt16.ofNat x).toNat = x := fun x hx => by
    exact Nat.mod_eq_of_lt hx
  simp only [highSurrogate, lowSurrogate, UInt16.le_iff_toNat_le]
  rw [hval _ (by omega), hval _ (by omega)]
  exact ⟨⟨Nat.le_add_right _ _, show _ ≤ 0xDBFF by omega⟩,
    ⟨Nat.le_add_right _ _, show _ ≤ 0xDFFF by omega⟩⟩

theorem codePoint_range (h : codePoint s = some (cp, k)) :
    cp < 0xD800 ∨ 0xDFFF < cp ∧ cp ≤ 0x10FFFF := by
  unfold codePoint at h
  simp only at h
  split_ifs at h with h1 h2 h3 h4 h5 h6 h7
  · obtain ⟨rfl, -⟩ := Prod.mk.inj (some.inj h)
    have := (s.getD 0 0).toNat_lt
    omega
  · obtain ⟨rfl, -⟩ := Prod.mk.inj (some.inj h)
    omega
  · obtain ⟨rfl, -⟩ := Prod.mk.inj (some.inj h)
    omega
  · obtain ⟨rfl, -⟩ := Prod.mk.inj (some.inj h)
    omega

theorem paired_of_utf16From {units : List UInt16} (h : utf16From fuel s n = some units) :
    Paired units := by
  induction fuel generalizing s n units with
  | zero =>
    obtain rfl := some.inj h
    exact trivial
  | succ fuel ih =>
    rw [utf16From] at h
    split_ifs at h with h0
    · obtain rfl := some.inj h
      exact trivial
    rcases hc : codePoint s with _ | x
    · rw [hc] at h
      exact absurd h (some_ne_none units).symm
    rw [hc] at h
    have hrange := codePoint_range hc
    simp only [putUtf16] at h
    split_ifs at h with h1 h2 h3
    · obtain ⟨rest, hrest, rfl⟩ := map_eq_some_iff.mp h
      exact paired_cons (not_surrogate_ofNat (by omega)) (ih hrest)
    · obtain ⟨rest, hrest, rfl⟩ := map_eq_some_iff.mp h
      have hpair := surrogates_ofNat (show x.1 ≤ 0x10FFFF by omega)
      rw [Paired, if_pos hpair.1]
      exact ⟨hpair.2, ih hrest⟩

/-- The surrogates of a name that was converted are paired. -/
theorem paired_of_utf8ToUtf16 {units : List UInt16} (h : utf8ToUtf16 s = some units) :
    Paired units := by
  unfold utf8ToUtf16 at h
  cases hfrom : utf16From s.length s 0 with
  | none =>
    rw [hfrom] at h
    exact absurd h (some_ne_none units).symm
  | some l =>
    rw [hfrom] at h
    simp only at h
    split_ifs at h with h0
    obtain rfl := some.inj h
    exact paired_of_utf16From hfrom

/-! ### The way of a scan -/

theorem read_eq_ok : d.read i = .ok e ↔ d.slots[i]? = some e := by
  unfold Dir.read
  cases d.slots[i]? with
  | none => exact ⟨fun h => by injection h, nofun⟩
  | some x =>
    exact ⟨fun h => congrArg some (Except.ok.inj h), fun h => congrArg Except.ok (some.inj h)⟩

/-- What `parse_file_set` reads of the directory when it accepts a set. -/
theorem parseFileSet_reads (h : parseFileSet fs read i = .ok (de, n)) :
    ∃ file rest, read i = .ok file ∧ file 0 = entryFile ∧ n = (file 1).toNat + 1 ∧
      readSecondaries read i (file 1).toNat = .ok rest := by
  obtain ⟨file, hfile, h⟩ := Step.ok_bind h
  simp only at h
  split_ifs at h with h1 h2 h3
  obtain ⟨rest, hrest, h⟩ := Step.ok_bind h
  split_ifs at h with h4
  obtain ⟨x, -, h⟩ := Step.ok_bind h
  obtain ⟨y, -, h⟩ := Step.ok_bind h
  exact ⟨file, rest, hfile, not_not.mp h2, (congrArg Prod.snd (Except.ok.inj h)).symm, hrest⟩

theorem readSecondaries_congr (h : ∀ k < count, read' (i + (k + 1)) = read (i + (k + 1))) :
    readSecondaries read' i count = readSecondaries read i count := by
  induction count with
  | zero => rfl
  | succ count ih =>
    have hprev := ih fun k hk => h k (Nat.lt_succ_of_lt hk)
    unfold readSecondaries at hprev ⊢
    rw [range_succ, mapM_append, mapM_append, hprev, mapM_cons, mapM_cons,
      h count (Nat.lt_succ_self count)]
    rfl

theorem parseFileSet_congr (h : parseFileSet fs read i = .ok (de, n))
    (hread : ∀ k < n, read' (i + k) = read (i + k)) : parseFileSet fs read' i = .ok (de, n) := by
  obtain ⟨file, rest, h1, -, hn, -⟩ := parseFileSet_reads h
  have h1' : read' i = .ok file := (hread 0 (by omega)).trans h1
  have hrest : readSecondaries read' i (file 1).toNat = readSecondaries read i (file 1).toNat :=
    readSecondaries_congr fun k hk => hread (k + 1) (by omega)
  rw [← h, parseFileSet, parseFileSet, h1', h1, Step.bind_of_ok, Step.bind_of_ok]
  simp only [hrest]

theorem parseFileSet_inUse (h : parseFileSet fs d.read i = .ok (de, n)) (hk : k < n) :
    ∃ e, d.slots[i + k]? = some e ∧ e 0 ≠ entryEod ∧ inUse e := by
  obtain ⟨file, rest, h1, h2, hn, h4⟩ := parseFileSet_reads h
  obtain rfl | hpos := eq_zero_or_pos k
  · exact ⟨file, read_eq_ok.mp h1, by rw [h2]; decide, by rw [inUse, h2]; decide⟩
  obtain ⟨hlen, hget⟩ := mapM_range_ok h4
  have hsecond := hget (k - 1) (by omega)
  rw [show k - 1 + 1 = k by omega] at hsecond
  cases hr : d.read (i + k) with
  | error c =>
    rw [hr] at hsecond
    cases hsecond
  | ok e =>
    rw [hr] at hsecond
    simp only at hsecond
    split_ifs at hsecond with huse
    refine ⟨e, read_eq_ok.mp hr, fun h0 => huse ?_, huse⟩
    rw [h0]
    rfl

/-- A scan at the entry `i` comes by the files `l` and gets to the entry `j`. -/
inductive Passes (fs : Volume) (d : Dir) : ℕ → List DirEntry → ℕ → Prop
  | refl (i : ℕ) : Passes fs d i [] i
  | skip {i j : ℕ} {l : List DirEntry} {e : Entry} (h : d.slots[i]? = some e)
    (hend : e 0 ≠ entryEod) (hfile : e 0 ≠ entryFile) (hrest : Passes fs d (i + 1) l j) :
    Passes fs d i l j
  | file {i j n : ℕ} {l : List DirEntry} {de : DirEntry}
    (h : parseFileSet fs d.read i = .ok (de, n)) (hrest : Passes fs d (i + n) l j) :
    Passes fs d i (de :: l) j

theorem Passes.le (h : Passes fs d i l j) : i ≤ j := by
  induction h with
  | refl => exact le_refl _
  | skip _ _ _ _ ih => omega
  | file _ _ ih => omega

theorem Passes.trans (h : Passes fs d i l j) (h' : Passes fs d j l' k) :
    Passes fs d i (l ++ l') k := by
  induction h with
  | refl => exact h'
  | skip h1 h2 h3 _ ih => exact .skip h1 h2 h3 (ih h')
  | file h1 _ ih => exact .file h1 (ih h')

theorem Passes.congr (h : Passes fs d i l j)
    (hslots : ∀ k, i ≤ k → k < j → d'.slots[k]? = d.slots[k]?) : Passes fs d' i l j := by
  induction h with
  | refl => exact .refl _
  | skip h1 h2 h3 hrest ih =>
    have hle := hrest.le
    exact .skip ((hslots _ (le_refl _) (by omega)).trans h1) h2 h3
      (ih fun k hk => hslots k (by omega))
  | @file i j n l de h1 hrest ih =>
    have hle := hrest.le
    refine .file (parseFileSet_congr h1 fun k hk => ?_) (ih fun k hk => hslots k (by omega))
    obtain ⟨e, he, -⟩ := parseFileSet_inUse h1 hk
    rw [read_eq_ok.mpr he, read_eq_ok, hslots _ (by omega) (by omega), he]

/-- The file has this name, in the eyes of `name16_eq`. -/
def named (fs : Volume) (want : List UInt16) (de : DirEntry) : Bool := nameEq fs de.name16 want

theorem named_iff {want : List UInt16} : named fs want de = true ↔ nameEq fs de.name16 want :=
  decide_eq_true_iff

/-- What a scan finds: one of the files it comes by, or what is found from there on. -/
theorem scanFrom_passes (hfits : d.slots.length ≤ d.limit fs) (want : List UInt16)
    (h : Passes fs d i l j) (hfuel : d.limit fs ≤ i + fuel) :
    ∃ fuel', d.limit fs ≤ j + fuel' ∧ scanFrom fs d want fuel i =
      (l.find? (named fs want)).or (scanFrom fs d want fuel' j) := by
  induction h generalizing fuel with
  | refl => exact ⟨fuel, hfuel, rfl⟩
  | @skip i j l e h1 h2 h3 _ ih =>
    have hlt := (List.getElem?_eq_some_iff.mp h1).1
    obtain ⟨fuel, rfl⟩ : ∃ f, fuel = f + 1 := ⟨fuel - 1, by omega⟩
    have hscan : scanFrom fs d want (fuel + 1) i = scanFrom fs d want fuel (i + 1) := by
      rw [scanFrom, if_pos (by omega), read_eq_ok.mpr h1]
      simp only
      rw [if_neg h2]
      split_ifs <;> rfl
    rw [hscan]
    exact ih (by omega)
  | @file i j n l de h1 _ ih =>
    obtain ⟨file, rest, h2, h3, hn, -⟩ := parseFileSet_reads h1
    have hlt := (List.getElem?_eq_some_iff.mp (read_eq_ok.mp h2)).1
    obtain ⟨fuel, rfl⟩ : ∃ f, fuel = f + 1 := ⟨fuel - 1, by omega⟩
    rw [scanFrom, if_pos (by omega), h2]
    simp only
    rw [if_neg (by rw [h3]; decide), if_neg (by rw [inUse, h3]; decide),
      if_neg (not_not.mpr h3), h1]
    simp only
    split_ifs with hname
    · rw [find?_cons_of_pos (named_iff.mpr hname)]
      exact ⟨fuel + n, by have := Passes.le ‹_›; omega, rfl⟩
    · rw [find?_cons_of_neg (mt named_iff.mp hname)]
      exact ih (by omega)

/-- A free entry is not part of a set: the scan gets to it. -/
theorem Passes.split (h : Passes fs d i l j) (hi : i ≤ k) (hk : k < j)
    (hfree : ∀ e, d.slots[k]? = some e → ¬inUse e) :
    ∃ l₁ l₂, l = l₁ ++ l₂ ∧ Passes fs d i l₁ k ∧ Passes fs d k l₂ j := by
  induction h with
  | refl => omega
  | @skip i j l e h1 h2 h3 hrest ih =>
    obtain rfl | hne := hi.eq_or_lt
    · exact ⟨[], l, rfl, .refl _, .skip h1 h2 h3 hrest⟩
    · obtain ⟨l₁, l₂, rfl, h4, h5⟩ := ih hne hk
      exact ⟨l₁, l₂, rfl, .skip h1 h2 h3 h4, h5⟩
  | @file i j n l de h1 hrest ih =>
    have hge : i + n ≤ k := by
      by_contra hlt
      obtain ⟨e, he, -, huse⟩ := parseFileSet_inUse h1 (show k - i < n by omega)
      rw [Nat.add_sub_cancel' hi] at he
      exact hfree e he huse
    obtain ⟨l₁, l₂, rfl, h4, h5⟩ := ih hge hk
    exact ⟨de :: l₁, l₂, rfl, .file h1 h4, h5⟩

theorem Passes.drop (h : Passes fs d i l j) (hk : i + k ≤ j)
    (hfree : ∀ m < k, ∀ e, d.slots[i + m]? = some e → ¬inUse e) : Passes fs d (i + k) l j := by
  induction k with
  | zero => exact h
  | succ k ih =>
    have hprev := ih (by omega) fun m hm => hfree m (by omega)
    cases hprev with
    | refl => omega
    | skip _ _ _ hrest => exact hrest
    | file h1 _ =>
      obtain ⟨file, -, h2, h3, -⟩ := parseFileSet_reads h1
      exact absurd (by rw [inUse, h3]; decide)
        (hfree k (Nat.lt_succ_self k) file (read_eq_ok.mp h2))

/-! ### Directories in order -/

/-- The files of a directory from the entry `i` on and the place where a scan ends, unless a set on
the way is damaged. -/
def walk (fs : Volume) (d : Dir) : ℕ → ℕ → Option (List DirEntry × ℕ)
  | 0, i => some ([], i)
  | fuel + 1, i =>
    match d.slots[i]? with
    | none => some ([], i)
    | some e =>
      if e 0 = entryEod then some ([], i)
      else if e 0 ≠ entryFile then walk fs d fuel (i + 1)
      else
        match parseFileSet fs d.read i with
        | .error _ => none
        | .ok (de, n) => (walk fs d fuel (i + n)).map fun x => (de :: x.1, x.2)

/-- The entry marks the end of the directory. -/
def Dir.Ends (d : Dir) (i : ℕ) : Prop := ∃ e, d.slots[i]? = some e ∧ e 0 = entryEod

theorem walk_passes {x : List DirEntry × ℕ} (h : walk fs d fuel i = some x)
    (hfuel : d.slots.length ≤ i + fuel) (hi : i ≤ d.slots.length) :
    Passes fs d i x.1 x.2 ∧ (x.2 = d.slots.length ∨ d.Ends x.2) := by
  induction fuel generalizing i x with
  | zero =>
    obtain rfl := some.inj h
    exact ⟨.refl _, inl (by simp only; omega)⟩
  | succ fuel ih =>
    rw [walk] at h
    cases hs : d.slots[i]? with
    | none =>
      rw [hs] at h
      obtain rfl := some.inj h
      exact ⟨.refl _, inl (le_antisymm hi (List.getElem?_eq_none_iff.mp hs))⟩
    | some e =>
      have hlt := (List.getElem?_eq_some_iff.mp hs).1
      rw [hs] at h
      simp only at h
      split_ifs at h with h1 h2
      · obtain rfl := some.inj h
        exact ⟨.refl _, inr ⟨e, hs, h1⟩⟩
      · obtain ⟨h3, h4⟩ := ih h (by omega) (by omega)
        exact ⟨.skip hs h1 h2 h3, h4⟩
      cases hp : parseFileSet fs d.read i with
      | error c =>
        rw [hp] at h
        exact absurd h (some_ne_none x).symm
      | ok y =>
        rw [hp] at h
        obtain ⟨z, hz, rfl⟩ := map_eq_some_iff.mp h
        obtain ⟨file, rest, -, -, hn, -⟩ := parseFileSet_reads hp
        obtain ⟨e', he', -⟩ := parseFileSet_inUse hp (show y.2 - 1 < y.2 by omega)
        have hlast := (List.getElem?_eq_some_iff.mp he').1
        obtain ⟨h3, h4⟩ := ih hz (by omega) (by omega)
        exact ⟨.file hp h3, h4⟩

/-- A directory in order: it is not longer than the volume, and `parse_file_set` accepts the sets
that a scan meets. -/
structure WellFormed (fs : Volume) (d : Dir) : Prop where
  fits : d.slots.length ≤ d.limit fs
  sets : (walk fs d d.slots.length 0).isSome

theorem WellFormed.passes (h : WellFormed fs d) :
    ∃ l j, Passes fs d 0 l j ∧ (j = d.slots.length ∨ d.Ends j) := by
  obtain ⟨x, hx⟩ := isSome_iff_exists.mp h.sets
  exact ⟨x.1, x.2, walk_passes hx (by omega) (Nat.zero_le _)⟩

/-! ### Free entries -/

def Dir.Free (d : Dir) (i : ℕ) : Prop := ∃ e, d.slots[i]? = some e ∧ (e 0 = entryEod ∨ ¬inUse e)

/-- `need` free entries from `k` on, none of which is behind the end of the directory. -/
def Dir.Window (d : Dir) (need k : ℕ) : Prop :=
  (∀ m < need, d.Free (k + m)) ∧ ∀ i, i + 1 < k + need → ¬d.Ends i

theorem Dir.Free.lt (h : d.Free i) : i < d.slots.length := by
  obtain ⟨e, he, -⟩ := h
  exact (List.getElem?_eq_some_iff.mp he).1

theorem Dir.Free.not_inUse (h : d.Free i) (he : d.slots[i]? = some e) : ¬inUse e := by
  obtain ⟨e', he', h⟩ := h
  obtain rfl := some.inj (he'.symm.trans he)
  rcases h with h | h
  · rw [inUse, h]
    decide
  · exact h

theorem not_ends_succ (h : ∀ m < i, ¬d.Ends m) (hs : d.slots[i]? = some e)
    (hend : e 0 ≠ entryEod) : ∀ m < i + 1, ¬d.Ends m := by
  rintro m hm ⟨e', he', h0⟩
  obtain hlt | rfl := Nat.lt_succ_iff_lt_or_eq.mp hm
  · exact h m hlt ⟨e', he', h0⟩
  · obtain rfl := some.inj (hs.symm.trans he')
    exact hend h0

theorem no_window_of_length_le (h : FreeRun d.Free need i run start) (hlen : d.slots.length ≤ i) :
    ∀ k, ¬d.Window need k := by
  intro k hw
  have hpos := h.short
  have hlast := (hw.1 (need - 1) (by omega)).lt
  exact h.none k (by omega) hw.1

/-- How the search of `dir_find_free` ends. -/
theorem freeFrom_spec (hfits : d.slots.length ≤ d.limit fs) (h : FreeRun d.Free need i run start)
    (hgoing : ∀ m < i, ¬d.Ends m) (hfuel : d.limit fs ≤ i + fuel) :
    (∃ k, freeFrom fs d need fuel i run start = .at k ∧ d.Window need k) ∨
      (freeFrom fs d need fuel i run start = .failed ∧ d.isRoot = true ∨
        freeFrom fs d need fuel i run start = .exhausted) ∧ ∀ k, ¬d.Window need k := by
  induction fuel generalizing i run start with
  | zero => exact inr ⟨inr rfl, no_window_of_length_le h (by omega)⟩
  | succ fuel ih =>
    rw [freeFrom]
    by_cases hlim : i < d.limit fs
    · rw [if_pos hlim]
      cases hs : d.slots[i]? with
      | none =>
        have hlen := List.getElem?_eq_none_iff.mp hs
        refine inr ⟨inl ⟨?_, ?_⟩, no_window_of_length_le h hlen⟩
        · rw [Dir.read, hs]
          rfl
        · by_contra hroot
          rw [Dir.limit, if_neg hroot] at hlim
          exact absurd hlim (not_lt.mpr hlen)
      | some e =>
        rw [read_eq_ok.mpr hs]
        simp only
        by_cases hfree : e 0 = entryEod ∨ ¬inUse e
        · have hi : d.Free i := ⟨e, hs, hfree⟩
          have hshort := h.short
          rw [if_pos hfree, h.start_succ]
          by_cases henough : need ≤ run + 1
          · rw [if_pos henough]
            obtain ⟨hlast, hwin, -⟩ := h.found hi (by omega)
            exact inl ⟨_, rfl, hwin, fun m hm => hgoing m (by omega)⟩
          split_ifs with heod
          · refine inr ⟨inr rfl, fun k hw => h.no_window ?_ hw.1⟩
            by_contra hbeyond
            exact hw.2 i (by omega) ⟨e, hs, heod⟩
          · exact ih (h.next_free hi (by omega)) (not_ends_succ hgoing hs heod) (by omega)
        · rw [if_neg hfree]
          rw [not_or, not_not] at hfree
          exact ih (h.next_used fun hf => hf.not_inUse hs hfree.2) (not_ends_succ hgoing hs hfree.1)
            (by omega)
    · rw [if_neg hlim]
      exact inr ⟨inr rfl, no_window_of_length_le h (by omega)⟩

/-! ### The new set -/

theorem write_eq_some (h : i < d.slots.length) :
    d.write i e = some { d with slots := d.slots.set i e } := if_pos h

theorem writeEntries_spec (d : Dir) (index : ℕ) (set : List Entry)
    (h : index + set.length ≤ d.slots.length) :
    ∃ slots, writeEntries d index set = (true, { d with slots := slots }) ∧
      slots.length = d.slots.length ∧
      (∀ m < set.length, slots[index + m]? = set[m]?) ∧
      ∀ k, k < index ∨ index + set.length ≤ k → slots[k]? = d.slots[k]? := by
  induction set generalizing d index with
  | nil => exact ⟨d.slots, rfl, rfl, fun m hm => absurd hm (Nat.not_lt_zero m), fun _ _ => rfl⟩
  | cons e set ih =>
    rw [length_cons] at h
    obtain ⟨slots, h1, h2, h3, h4⟩ := ih { d with slots := d.slots.set index e } (index + 1)
      (by simp only [length_set]; omega)
    refine ⟨slots, ?_, h2.trans length_set, fun m hm => ?_, fun k hk => ?_⟩
    · rw [writeEntries, write_eq_some (by omega)]
      exact h1
    · cases m with
      | zero =>
        rw [add_zero, h4 index (inl (Nat.lt_succ_self index))]
        exact getElem?_set_self (by omega)
      | succ m =>
        have hm' := h3 m (by rw [length_cons] at hm; omega)
        rwa [add_right_comm] at hm'
    · rw [length_cons] at hk
      rw [h4 k (by omega)]
      exact getElem?_set_ne (by omega)

theorem writeEntries_fails (d : Dir) (index : ℕ) (set : List Entry)
    (h : d.slots.length < index + set.length) (hlen : index ≤ d.slots.length) :
    (writeEntries d index set).1 = false := by
  induction set generalizing d index with
  | nil =>
    rw [length_nil] at h
    omega
  | cons e set ih =>
    rw [writeEntries]
    by_cases hlt : index < d.slots.length
    · rw [write_eq_some hlt]
      exact ih _ _ (by simp only [length_set]; rw [length_cons] at h; omega)
        (by simp only [length_set]; omega)
    · rw [Dir.write, if_neg hlt]

/-- Behind the files `l` the scan gets to a set that was built: it is found, and so is everything
that was found among `l`. -/
theorem Passes.built {name : List UInt16} {set : List Entry}
    (hname : Paired name) (hbuild : buildFileSet fs name attrArchive 0 0 0 0 = some set)
    (hset : ∀ m < set.length, d.slots[index + m]? = set[m]?) :
    ∃ de, de.name16 = name ∧ Passes fs d index [de] (index + set.length) := by
  have hread : ∀ m (h : m < set.length), d.read (index + m) = .ok set[m] := fun m hm =>
    read_eq_ok.mpr ((hset m hm).trans (getElem?_eq_getElem hm))
  obtain ⟨h1, h2⟩ := parseFileSet_built name attrArchive 0 0 0 0 hbuild hread rfl
  obtain ⟨de, n, hparse⟩ := h2 ⟨Nat.le_refl _, by decide, fun h => absurd rfl h, hname⟩
  obtain ⟨-, rfl, utf8, -, rfl⟩ := h1 de n hparse
  exact ⟨_, rfl, .file hparse (.refl _)⟩

theorem buildFileSet_length {name : List UInt16} {attr : UInt16} {set : List Entry}
    (h : buildFileSet fs name attr 0 0 0 0 = some set) :
    set.length = 2 + (name.length + 14) / 15 := by
  unfold buildFileSet at h
  simp only at h
  split_ifs at h with h1 h2
  obtain rfl := some.inj h
  rw [length_cons, length_cons, length_map, length_range]
  omega

/-! ### What is found before and afterwards -/

theorem Passes.not_ends (h : Passes fs d i l j) (hi : i ≤ k) (hk : k < j) : ¬d.Ends k := by
  rintro ⟨e, he, h0⟩
  obtain ⟨-, l₂, -, -, hrest⟩ := h.split hi hk fun e' he' huse => by
    obtain rfl := some.inj (he.symm.trans he')
    rw [inUse, h0] at huse
    exact huse rfl
  cases hrest with
  | refl => omega
  | skip h1 h2 _ _ =>
    obtain rfl := some.inj (he.symm.trans h1)
    exact h2 h0
  | file h1 _ =>
    obtain ⟨file, -, h2, h3, -⟩ := parseFileSet_reads h1
    obtain rfl := some.inj (he.symm.trans (read_eq_ok.mp h2))
    exact absurd (h0.symm.trans h3) (by decide)

theorem Passes.eq_nil (h : Passes fs d i l i) : l = [] := by
  cases h with
  | refl => rfl
  | skip _ _ _ hrest => exact absurd hrest.le (by omega)
  | file h1 hrest =>
    obtain ⟨file, rest, -, -, hn, -⟩ := parseFileSet_reads h1
    exact absurd hrest.le (by omega)

/-- A scan that gets to the end finds the files it came by. -/
theorem scanDir_eq (hfits : d.slots.length ≤ d.limit fs) (h : Passes fs d 0 l j)
    (hend : j = d.slots.length ∨ d.Ends j) (want : List UInt16) :
    scanDir fs d want = l.find? (named fs want) := by
  obtain ⟨fuel', -, hscan⟩ := scanFrom_passes hfits want h (le_of_eq (zero_add _).symm)
  have hstop : scanFrom fs d want fuel' j = none := by
    cases fuel' with
    | zero => rfl
    | succ fuel' =>
      rw [scanFrom]
      split_ifs with hlim
      · rcases hend with rfl | ⟨e, he, h0⟩
        · rw [Dir.read, getElem?_eq_none (le_refl _)]
          rfl
        · rw [read_eq_ok.mpr he]
          exact if_pos h0
      · rfl
  rw [scanDir, hscan, hstop, or_none]

theorem scanDir_of_find? {want : List UInt16} (hfits : d.slots.length ≤ d.limit fs)
    (h : Passes fs d 0 l j) (hx : l.find? (named fs want) = some x) :
    scanDir fs d want = some x := by
  obtain ⟨fuel', -, hscan⟩ := scanFrom_passes hfits want h (le_of_eq (zero_add _).symm)
  rw [scanDir, hscan, hx, some_or]

/-- The name is found, and what was found before still is. -/
def FindsAlso (fs : Volume) (d d' : Dir) (name : List UInt16) : Prop :=
  (∃ de, scanDir fs d' name = some de ∧ de.name16 = name) ∧
    ∀ want de, scanDir fs d want = some de → scanDir fs d' want = some de

theorem findsAlso_of_passes (hfits' : d'.slots.length ≤ d'.limit fs)
    (hbefore : ∀ want, scanDir fs d want = (l₁ ++ l₂).find? (named fs want))
    (hnew : scanDir fs d de.name16 = none) (h1 : Passes fs d' 0 l₁ k) (h2 : Passes fs d' k [de] m)
    (h3 : l₂ = [] ∨ ∃ j', Passes fs d' m l₂ j') : FindsAlso fs d d' de.name16 := by
  obtain ⟨j', hway⟩ : ∃ j', Passes fs d' 0 (l₁ ++ de :: l₂) j' := by
    rcases h3 with rfl | ⟨j', h3⟩
    · exact ⟨m, h1.trans h2⟩
    · exact ⟨j', h1.trans (h2.trans h3)⟩
  rw [hbefore] at hnew
  obtain ⟨h4, h5⟩ := find?_insert (named_iff.mpr rfl) hnew (.inr rfl) fun w y hw hy =>
    named_iff.mpr ((named_iff.mp hy).trans (named_iff.mp hw).symm)
  refine ⟨⟨de, scanDir_of_find? hfits' hway h4, rfl⟩, fun want x hx => ?_⟩
  rw [hbefore] at hx
  exact scanDir_of_find? hfits' hway (h5 want x hx)

theorem Passes.window (h : Passes fs d 0 l j) (hend : j = d.slots.length ∨ d.Ends j)
    (hw : d.Window need k) (hneed : 2 ≤ need) :
    ∃ l₁ l₂, l = l₁ ++ l₂ ∧ Passes fs d 0 l₁ k ∧ (l₂ = [] ∨ Passes fs d (k + need) l₂ j) := by
  have hlast := (hw.1 (need - 1) (by omega)).lt
  have hle : k + need ≤ j + 1 := by
    rcases hend with rfl | hend
    · omega
    · by_contra hlt
      exact hw.2 j (by omega) hend
  have hfree : ∀ m < need, ∀ e, d.slots[k + m]? = some e → ¬inUse e :=
    fun m hm e he => (hw.1 m hm).not_inUse he
  obtain ⟨l₁, l₂, rfl, h1, h2⟩ := h.split (Nat.zero_le k) (by omega) (hfree 0 (by omega))
  obtain hlt | heq := lt_or_ge j (k + need)
  · -- The end marker is the last entry of the window.
    have hrest := h2.drop (show k + (need - 1) ≤ j by omega) fun m hm => hfree m (by omega)
    rw [show k + (need - 1) = j by omega] at hrest
    exact ⟨l₁, l₂, rfl, h1, inl hrest.eq_nil⟩
  · exact ⟨l₁, l₂, rfl, h1, inr (h2.drop heq hfree)⟩

/-! ### Creating and finding -/

/-- What `exfat_create` depends on: a window up to the end marker, or no end marker at all in a
directory that can be extended by a cluster, with the set in this cluster. -/
def Room (fs : Volume) (d : Dir) (need : ℕ) : Prop :=
  (∃ k, d.Window need k) ∨
    d.isRoot = false ∧ (∀ i, ¬d.Ends i) ∧ need ≤ fs.perCluster ∧ 0 < d.free

/-- The entries that a new file with the name takes. -/
def setLength (name : List UInt16) : ℕ := 2 + (name.length + 14) / 15

/-- The call succeeds: it returns 0, the name is found, and what was found before still is. -/
def CreatesAndFinds (fs : Volume) (d : Dir) (name : List UInt8) (name16 : List UInt16) : Prop :=
  (exfatCreate fs d name true).1 = 0 ∧ FindsAlso fs d (exfatCreate fs d name true).2 name16

section Create

variable {name : List UInt8} {name16 : List UInt16} {set : List Entry}

theorem exfatCreate_eq (hdir : d.attr &&& attrDirectory ≠ 0) (hrw : d.readonly = false)
    (hname : utf8ToUtf16 name = some name16) (hvalid : validNewName name16 = true)
    (hnew : scanDir fs d name16 = none)
    (hset : buildFileSet fs name16 attrArchive 0 0 0 0 = some set) :
    exfatCreate fs d name true =
      if (writeNewSet fs d set).1 = true ∧ (scanDir fs (writeNewSet fs d set).2 name16).isSome then
        (0, (writeNewSet fs d set).2)
      else (-1, (writeNewSet fs d set).2) := by
  unfold exfatCreate
  rw [if_neg (by simp [hdir, hrw]), hname]
  simp only
  rw [if_neg (by simp [hvalid]), if_neg (by simp [hnew]), hset]
  simp only
  obtain ⟨ok, d'⟩ := writeNewSet fs d set
  cases ok with
  | false => rfl
  | true =>
    simp only
    by_cases hfound : (scanDir fs d' name16).isSome
    · rw [if_pos hfound, if_pos ⟨trivial, hfound⟩]
    · rw [if_neg hfound, if_neg fun h => hfound h.2]

variable (hw : WellFormed fs d) (hnew : scanDir fs d name16 = none) (hpaired : Paired name16)
  (hset : buildFileSet fs name16 attrArchive 0 0 0 0 = some set)

include hw hnew hpaired hset

theorem writeNewSet_window (hk : d.Window set.length k)
    (hfree : dirFindFree fs d set.length = (some k, d)) :
    (writeNewSet fs d set).1 = true ∧ FindsAlso fs d (writeNewSet fs d set).2 name16 := by
  have hlen := buildFileSet_length hset
  have hlast := (hk.1 (set.length - 1) (by omega)).lt
  obtain ⟨slots, hwrite, hsame, hin, hout⟩ := writeEntries_spec d k set (by omega)
  obtain ⟨l, j, hpass, hend⟩ := hw.passes
  obtain ⟨l₁, l₂, rfl, h1, h2⟩ := hpass.window hend hk (by omega)
  have hresult : writeNewSet fs d set = (true, { d with slots := slots }) := by
    rw [writeNewSet, hfree]
    exact hwrite
  have hfits : slots.length ≤ Dir.limit fs { d with slots := slots } := by
    have hold := hw.fits
    unfold Dir.limit at hold ⊢
    simp only [hsame]
    exact hold
  obtain ⟨de, rfl, hde⟩ := Passes.built (d := { d with slots := slots }) hpaired hset hin
  rw [hresult]
  refine ⟨rfl, findsAlso_of_passes hfits (scanDir_eq hw.fits hpass hend) hnew
    (h1.congr fun m _ hm => hout m (inl hm)) hde (h2.imp_right fun h2 => ⟨j, ?_⟩)⟩
  exact h2.congr fun m hm _ => hout m (inr hm)

/-- A directory without an end marker gets a cluster, and the set is written there. -/
theorem writeNewSet_extend (hroot : d.isRoot = false) (hgoing : ∀ i, ¬d.Ends i)
    (hfit : set.length ≤ fs.perCluster)
    (hfree : dirFindFree fs d set.length = (some d.slots.length, d.extend fs)) :
    (writeNewSet fs d set).1 = true ∧ FindsAlso fs d (writeNewSet fs d set).2 name16 := by
  have hlong : (d.extend fs).slots.length = d.slots.length + fs.perCluster := by
    rw [Dir.extend, length_append, length_replicate]
  obtain ⟨slots, hwrite, hsame, hin, hout⟩ :=
    writeEntries_spec (d.extend fs) d.slots.length set (by omega)
  obtain ⟨l, j, hpass, hend⟩ := hw.passes
  obtain rfl := hend.resolve_right (hgoing j)
  have hresult : writeNewSet fs d set = (true, { d.extend fs with slots := slots }) := by
    rw [writeNewSet, hfree]
    exact hwrite
  have hfits : slots.length ≤ Dir.limit fs { d.extend fs with slots := slots } := by
    unfold Dir.limit
    rw [if_neg (by simp [Dir.extend, hroot])]
  obtain ⟨de, rfl, hde⟩ := Passes.built (d := { d.extend fs with slots := slots }) hpaired hset hin
  rw [hresult]
  have hbefore : ∀ want, scanDir fs d want = (l ++ []).find? (named fs want) := by
    rw [append_nil]
    exact scanDir_eq hw.fits hpass hend
  refine ⟨rfl, findsAlso_of_passes hfits hbefore hnew (hpass.congr fun m _ hm => ?_) hde (inl rfl)⟩
  refine (hout m (inl hm)).trans ?_
  rw [Dir.extend, getElem?_append_left hm]

omit hw hnew hpaired hset

theorem scanDir_behind (hw : WellFormed fs d) (hnew : scanDir fs d name16 = none)
    (hfits : d'.slots.length ≤ d'.limit fs) (hend : d.Ends i)
    (hsame : ∀ k < d.slots.length, d'.slots[k]? = d.slots[k]?) : scanDir fs d' name16 = none := by
  obtain ⟨l, j, hpass, hj⟩ := hw.passes
  have hlt : i < d.slots.length := by
    obtain ⟨e, he, -⟩ := hend
    exact (List.getElem?_eq_some_iff.mp he).1
  obtain ⟨e, he, h0⟩ : d.Ends j := by
    rcases hj with rfl | hj
    · exact absurd hend (hpass.not_ends (Nat.zero_le i) hlt)
    · exact hj
  have hjlt := (List.getElem?_eq_some_iff.mp he).1
  rw [scanDir_eq hw.fits hpass (inr ⟨e, he, h0⟩)] at hnew
  rw [scanDir_eq hfits (hpass.congr fun k _ hk => hsame k (by omega))
    (inr ⟨e, (hsame j hjlt).trans he, h0⟩)]
  exact hnew

/-- What is left to `dir_find_free` if there is no window. -/
theorem dirFindFree_cases (h : freeFrom fs d need (d.limit fs) 0 0 0 = .failed ∧ d.isRoot = true ∨
      freeFrom fs d need (d.limit fs) 0 0 0 = .exhausted) :
    (dirFindFree fs d need = (none, d) ∧ (d.isRoot = true ∨ d.free = 0)) ∨
      d.isRoot = false ∧ 0 < d.free ∧
        dirFindFree fs d need = (some d.slots.length, d.extend fs) := by
  unfold dirFindFree
  rcases h with ⟨h, hroot⟩ | h
  · rw [h]
    exact inl ⟨rfl, inl hroot⟩
  rw [h]
  split_ifs with h1 h2
  · exact inl ⟨rfl, inl h1⟩
  · exact inl ⟨rfl, inr h2⟩
  · exact inr ⟨Bool.eq_false_iff.mpr h1, Nat.pos_of_ne_zero h2, rfl⟩

/-- A set that was written to a new cluster: it fits into it, and the entries before are the
same. -/
theorem writeNewSet_extended (h : dirFindFree fs d set.length = (some d.slots.length, d.extend fs))
    (hok : (writeNewSet fs d set).1 = true) :
    set.length ≤ fs.perCluster ∧ (writeNewSet fs d set).2.isRoot = d.isRoot ∧
      ∀ k < d.slots.length, (writeNewSet fs d set).2.slots[k]? = d.slots[k]? := by
  have hlong : (d.extend fs).slots.length = d.slots.length + fs.perCluster := by
    rw [Dir.extend, length_append, length_replicate]
  have hresult : writeNewSet fs d set = writeEntries (d.extend fs) d.slots.length set := by
    rw [writeNewSet, h]
  rw [hresult] at hok ⊢
  have hfit : set.length ≤ fs.perCluster := by
    by_contra hlt
    rw [writeEntries_fails _ _ _ (by omega) (by omega)] at hok
    exact Bool.false_ne_true hok
  obtain ⟨slots, hwrite, -, -, hout⟩ :=
    writeEntries_spec (d.extend fs) d.slots.length set (by omega)
  rw [hwrite]
  refine ⟨hfit, rfl, fun k hk => ?_⟩
  refine (hout k (inl hk)).trans ?_
  rw [Dir.extend, getElem?_append_left hk]

/-- **`exfat_create`**, on a directory in order and a new name: the call succeeds and the name is
found together with all that was found before, if and only if there is room where a scan gets
to. -/
theorem createsAndFinds_iff (hw : WellFormed fs d) (hdir : d.attr &&& attrDirectory ≠ 0)
    (hrw : d.readonly = false) (hname : utf8ToUtf16 name = some name16)
    (hvalid : validNewName name16 = true) (hnew : scanDir fs d name16 = none) :
    CreatesAndFinds fs d name name16 ↔ Room fs d (setLength name16) := by
  have hpaired := paired_of_utf8ToUtf16 hname
  obtain ⟨set, hset⟩ := buildFileSet_isSome fs hvalid attrArchive 0 0 0 0
  have hlen : set.length = setLength name16 := buildFileSet_length hset
  have hpos : 0 < set.length := by
    rw [hlen, setLength]
    omega
  have hcreate := exfatCreate_eq hdir hrw hname hvalid hnew hset
  set r := writeNewSet fs d set with hr
  have hok : r.1 = true ∧ FindsAlso fs d r.2 name16 → CreatesAndFinds fs d name name16 := by
    rintro ⟨h1, h2⟩
    obtain ⟨⟨de, h3, -⟩, -⟩ := id h2
    rw [CreatesAndFinds, hcreate, if_pos ⟨h1, isSome_iff_exists.mpr ⟨de, h3⟩⟩]
    exact ⟨rfl, h2⟩
  have hbad : ¬(r.1 = true ∧ (scanDir fs r.2 name16).isSome) →
      ¬CreatesAndFinds fs d name name16 := by
    intro h1 h2
    rw [CreatesAndFinds, hcreate, if_neg h1] at h2
    exact absurd (show (-1 : Int) = 0 from h2.1) (by decide)
  rw [← hlen]
  obtain ⟨k, hfrom, hk⟩ | ⟨hfrom, hno⟩ :=
    freeFrom_spec hw.fits (FreeRun.zero d.Free hpos) (fun m hm => absurd hm m.not_lt_zero)
      (le_of_eq (zero_add _).symm)
  · have hfree : dirFindFree fs d set.length = (some k, d) := by
      rw [dirFindFree, hfrom]
    exact ⟨fun _ => inl ⟨k, hk⟩, fun _ => hok (writeNewSet_window hw hnew hpaired hset hk hfree)⟩
  have hroom : Room fs d set.length ↔ d.isRoot = false ∧ (∀ i, ¬d.Ends i) ∧
      set.length ≤ fs.perCluster ∧ 0 < d.free :=
    ⟨fun h => h.resolve_left fun ⟨k, hk⟩ => hno k hk, inr⟩
  rw [hroom]
  obtain hnone | ⟨hroot, hfree, hext⟩ := dirFindFree_cases hfrom
  · have hfail : r.1 = false := by
      rw [hr, writeNewSet, hnone.1]
    refine ⟨fun h => absurd h (hbad fun hc => ?_), fun h => ?_⟩
    · exact Bool.false_ne_true (hfail.symm.trans hc.1)
    · rcases hnone.2 with hroot | hfull
      · exact absurd (h.1.symm.trans hroot) Bool.false_ne_true
      · exact absurd h.2.2.2 (by omega)
  refine ⟨fun h => ?_, fun h => hok (writeNewSet_extend hw hnew hpaired hset hroot h.2.1
    h.2.2.1 hext)⟩
  by_contra hcond
  refine hbad (fun hc => hcond ?_) h
  obtain ⟨hfit, hroot', hsame⟩ := writeNewSet_extended hext hc.1
  have hlimit : r.2.slots.length ≤ r.2.limit fs := by
    rw [Dir.limit, if_neg (by rw [hroot', hroot]; exact Bool.false_ne_true)]
  refine ⟨hroot, fun i hend => ?_, hfit, hfree⟩
  rw [scanDir_behind hw hnew hlimit hend hsame] at hc
  exact Bool.false_ne_true hc.2

end Create

/-! ### Directories of one cluster -/

/-- A volume with 16 entries in a cluster. -/
def smallVolume : Volume := ⟨16, 512, 1, 512, 64, 2 ^ 20, none⟩

/-- A directory of one cluster; three more clusters are free. -/
def oneCluster (isRoot : Bool) (slots : List Entry) : Dir :=
  ⟨attrDirectory, isRoot, false, slots, 3⟩

/-- The first three entries belonged to a file that was removed. -/
def afterUnlink : Dir :=
  oneCluster true (List.replicate 3 (setByte zeroEntry 0 0x05) ++ List.replicate 13 zeroEntry)

theorem createsAndFinds_afterUnlink : CreatesAndFinds smallVolume afterUnlink [0x61] [0x61] := by
  have hwindow : afterUnlink.Window (setLength [0x61]) 0 := by
    refine ⟨fun m hm => ?_, fun i hi hend => ?_⟩
    · have hall : ∀ m < 3, ¬inUse (afterUnlink.slots.getD m zeroEntry) ∧
          m < afterUnlink.slots.length := by
        decide
      obtain ⟨h1, h2⟩ := hall m hm
      rw [← getElem_eq_getD (h := h2)] at h1
      exact ⟨_, by rw [zero_add]; exact getElem?_eq_getElem h2, inr h1⟩
    · have hall : ∀ i < 2, afterUnlink.slots.getD i zeroEntry 0 ≠ entryEod := by
        decide
      obtain ⟨e, he, h0⟩ := hend
      refine hall i (by change i + 1 < 0 + 3 at hi; omega) ?_
      rw [getD_eq_getElem?_getD, he]
      exact h0
  exact (createsAndFinds_iff ⟨by decide, by decide⟩ (by decide) rfl
    (by decide) (by decide) (by decide)).mpr (inl ⟨0, hwindow⟩)

/-- A new file with a name of one letter takes three entries, the directory is in order, and the
call fails. -/
def Refuses (d : Dir) : Prop :=
  WellFormed smallVolume d ∧ d.attr &&& attrDirectory ≠ 0 ∧ d.readonly = false ∧
    utf8ToUtf16 [0x61] = some [0x61] ∧ validNewName [0x61] = true ∧
    scanDir smallVolume d [0x61] = none ∧ setLength [0x61] = 3 ∧
    (exfatCreate smallVolume d [0x61] true).1 = -1

/-- In an empty directory, whose 16 entries all mark the end, `exfat_create` fails: it gives up at
the first of them in the root, and puts the set behind them in another directory. -/
theorem create_in_empty_fails :
    Refuses (oneCluster true (List.replicate 16 zeroEntry)) ∧
      Refuses (oneCluster false (List.replicate 16 zeroEntry)) :=
  ⟨⟨⟨by decide, by decide⟩, by decide⟩, ⟨⟨by decide, by decide⟩, by decide⟩⟩

end RHKernel.Exfat
