import RHKernel.File.Ext2.Records
import RHKernel.Lib.Step
import Mathlib.Data.List.Perm.Basic
import Mathlib.Data.List.Nodup

/-!
# A directory of ext2 as a map of names

`Holds` says which records the blocks of a directory are divided into; a directory whose records
have different names is a map from names to inode numbers, and `ext2_dir_find_entry` looks a name up
in this map. An entry that is added or removed changes the map at its own name only, as long as the
entry that is removed is not the first one of its block. In that case `ext2_dir_remove_entry` clears
the inode number and leaves the name, which `ext2_validate_dirent` rejects from then on: the scan
of the directory ends there, and the names behind it are gone.
-/

namespace RHKernel.Ext2

open Function List Option Relation

variable {g : Geometry} {d d' : Dir} {n fb fuel : ℕ} {recs : ℕ → List Rec} {name : List UInt8}
  {env : Env} {l : List Rec}

/-- The `n` blocks of the directory are divided into records. -/
structure Holds (g : Geometry) (d : Dir) (n : ℕ) (recs : ℕ → List Rec) : Prop where
  size_eq : d.size = n * g.blockSize
  tiles : ∀ fb < n, ∃ b stop, d.block fb = some b ∧ Tiles g b 0 (recs fb) stop

/-- The names of a directory. -/
def entries (recs : ℕ → List Rec) (n : ℕ) : List (List UInt8 × ℕ) :=
  (List.range n).flatMap fun fb => live (recs fb)

theorem entries_succ (recs : ℕ → List Rec) (n : ℕ) :
    entries recs (n + 1) = entries recs n ++ live (recs n) := by
  rw [entries, range_succ, flatMap_append, flatMap_singleton, ← entries]

theorem mem_entries {x : List UInt8 × ℕ} :
    x ∈ entries recs n ↔ ∃ fb < n, ∃ r ∈ recs fb, r.Is x.1 ∧ r.ino = x.2 := by
  simp only [entries, mem_flatMap, List.mem_range, mem_live]

theorem entries_update_of_le (h : n ≤ fb) : entries (update recs fb l) n = entries recs n := by
  refine flatMap_congr fun i hi => ?_
  rw [update_of_ne (by rw [List.mem_range] at hi; omega)]

/-- One name more or less in a block is one name more or less in the directory. -/
theorem entries_update {x : List UInt8 × ℕ} (h : fb < n)
    (hl : (live (recs fb)).Perm (x :: live l)) :
    (entries recs n).Perm (x :: entries (update recs fb l) n) := by
  induction n with
  | zero => omega
  | succ n ih =>
    rw [entries_succ, entries_succ]
    obtain rfl | hne := eq_or_ne fb n
    · rw [entries_update_of_le (le_refl _), update_self]
      exact (hl.append_left _).trans perm_middle
    · rw [update_of_ne hne.symm]
      exact (ih (by omega)).append_right _

/-! ### Looking a name up -/

theorem firstIs_eq_none {o : ℕ} (h : firstIs name o l = none) : ∀ r ∈ l, ¬r.Is name := by
  induction l generalizing o with
  | nil => exact nofun
  | cons r l ih =>
    rw [firstIs] at h
    split_ifs at h with his
    exact forall_mem_cons.mpr ⟨his, ih h⟩

theorem firstIs_eq_some {o : ℕ} {x : ℕ × Rec} (h : firstIs name o l = some x) :
    x.2 ∈ l ∧ x.2.Is name ∧ ∀ r ∈ l.head?, r.Is name → x.1 = o := by
  induction l generalizing o with
  | nil => exact absurd h (some_ne_none x).symm
  | cons r l ih =>
    rw [firstIs] at h
    split_ifs at h with his
    · obtain rfl := some.inj h
      exact ⟨mem_cons_self, his, fun _ _ _ => rfl⟩
    · obtain ⟨h1, h2, -⟩ := ih h
      refine ⟨mem_cons_of_mem _ h1, h2, fun q hq hqis => ?_⟩
      obtain rfl := some.inj hq
      exact absurd hqis his

theorem findFrom_spec (name : List UInt8) (fuel : ℕ) (h : Holds g d n recs)
    (hfuel : n ≤ fb + fuel) :
    (findFrom g d name fuel fb = none ∧ ∀ k, fb ≤ k → k < n → ∀ r ∈ recs k, ¬r.Is name) ∨
      ∃ hit, findFrom g d name fuel fb = some hit ∧ hit.fb < n ∧
        firstIs name 0 (recs hit.fb) = some (hit.boff, hit.entry) ∧
        ∀ k, fb ≤ k → k < hit.fb → ∀ r ∈ recs k, ¬r.Is name := by
  have hbs := g.blockSize_lt
  induction fuel generalizing fb with
  | zero => exact Or.inl ⟨rfl, fun k h1 h2 => absurd h2 (by omega)⟩
  | succ fuel ih =>
    rw [findFrom, h.size_eq]
    by_cases hlt : fb < n
    · obtain ⟨b, stop, hb, ht⟩ := h.tiles fb hlt
      have hleft : g.blockSize ≤ n * g.blockSize - fb * g.blockSize := by
        rw [← Nat.sub_mul]
        exact Nat.le_mul_of_pos_left _ (by omega)
      rw [if_pos (Nat.mul_lt_mul_of_pos_right hlt (by omega)), hb]
      simp only
      rw [findIn_eq ht hleft (by omega)]
      cases hfirst : firstIs name 0 (recs fb) with
      | none =>
        have hno := firstIs_eq_none hfirst
        have hskip : ∀ k, fb ≤ k → (fb + 1 ≤ k → ∀ r ∈ recs k, ¬r.Is name) →
            ∀ r ∈ recs k, ¬r.Is name := by
          intro k h1 h2
          obtain rfl | hne := eq_or_ne fb k
          · exact hno
          · exact h2 (by omega)
        obtain ⟨hf, hrest⟩ | ⟨hit, hf, h1, h2, h3⟩ := @ih (fb + 1) (by omega)
        · exact Or.inl ⟨hf, fun k hk hkn => hskip k hk fun hk' => hrest k hk' hkn⟩
        · exact Or.inr ⟨hit, hf, h1, h2, fun k hk hkn => hskip k hk fun hk' => h3 k hk' hkn⟩
      | some x =>
        exact Or.inr ⟨⟨fb, x.1, x.2⟩, rfl, hlt, hfirst, fun k h1 h2 => absurd h1 (not_le.mpr h2)⟩
    · rw [if_neg (not_lt.mpr (Nat.mul_le_mul_right _ (Nat.le_of_not_lt hlt)))]
      exact Or.inl ⟨rfl, fun k h1 h2 => absurd h2 (by omega)⟩

/-- The map of names of a directory. -/
def names (g : Geometry) (d : Dir) (name : List UInt8) : Option ℕ :=
  (dirFindEntry g d name).map fun hit => hit.entry.ino

/-- The names of a directory are different. -/
def Distinct (recs : ℕ → List Rec) (n : ℕ) : Prop := ((entries recs n).map Prod.fst).Nodup

theorem Holds.nameLenChecked (h : Holds g d n recs) {ino : ℕ} (hx : (name, ino) ∈ entries recs n) :
    nameLenChecked name := by
  obtain ⟨fb, hfb, r, hr, ⟨-, hne, rfl⟩, -⟩ := mem_entries.mp hx
  obtain ⟨b, stop, -, ht⟩ := h.tiles fb hfb
  exact ⟨hne, Nat.le_of_lt_succ (ht.name_lt hr)⟩

theorem names_eq_some_iff (h : Holds g d n recs) (hd : Distinct recs n) (ino : ℕ) :
    names g d name = some ino ↔ (name, ino) ∈ entries recs n := by
  have hbs := g.blockSize_lt
  have hfuel : n ≤ 0 + d.size := by
    rw [h.size_eq, zero_add]
    exact Nat.le_mul_of_pos_right _ (by omega)
  unfold names dirFindEntry
  split_ifs with hlen
  · obtain ⟨hf, hno⟩ | ⟨hit, hf, h1, h2, -⟩ := findFrom_spec name d.size h hfuel
    · rw [hf]
      refine ⟨nofun, fun hx => ?_⟩
      obtain ⟨fb, hfb, r, hr, hris, -⟩ := mem_entries.mp hx
      exact absurd hris (hno fb (Nat.zero_le _) hfb r hr)
    · obtain ⟨hmem, his, -⟩ := firstIs_eq_some h2
      have hx : (name, hit.entry.ino) ∈ entries recs n :=
        mem_entries.mpr ⟨hit.fb, h1, hit.entry, hmem, his, rfl⟩
      rw [hf, map_some, Option.some.injEq]
      exact ⟨fun he => he ▸ hx, fun hy => (Prod.mk.inj (inj_on_of_nodup_map hd hx hy rfl)).2⟩
  · exact ⟨nofun, fun hx => absurd (h.nameLenChecked hx) hlen⟩

/-! ### Adding and removing a name -/

/-- A block is divided into other records, one of the blocks or the next one. -/
theorem Holds.put {b : Block} {stop m size : ℕ} (h : Holds g d n recs) (ht : Tiles g b 0 l stop)
    (hsize : size = m * g.blockSize) (hm : ∀ k < m, k ≠ fb → k < n) :
    Holds g ⟨size, update d.block fb (some b)⟩ m (update recs fb l) := by
  refine ⟨hsize, fun k hk => ?_⟩
  obtain rfl | hne := eq_or_ne k fb
  · exact ⟨b, stop, update_self .., by rwa [update_self]⟩
  · obtain ⟨b', stop', hb, ht'⟩ := h.tiles k (hm k hk hne)
    exact ⟨b', stop', (update_of_ne hne ..).trans hb, by rwa [update_of_ne hne]⟩

/-- `ext2_dir_add_entry` adds one name: to a block with room for it, or in a new block. -/
theorem addFrom_spec {ino : ℕ} {fileType : UInt8} (ha : Addable g name ino fileType)
    (h : Holds g d n recs) (hfree : d.block n = none) (hfb : fb ≤ n)
    (hadd : addFrom g env d name ino fileType fuel fb = (true, d')) :
    ∃ n' recs', Holds g d' n' recs' ∧ (entries recs' n').Perm ((name, ino) :: entries recs n) := by
  have hbs := g.blockSize_lt
  induction fuel generalizing fb with
  | zero => exact absurd (congrArg Prod.fst hadd) Bool.false_ne_true
  | succ fuel ih =>
    rw [addFrom] at hadd
    obtain rfl | hlt := hfb.eq_or_lt
    · rw [hfree] at hadd
      simp only at hadd
      have hgrows : d.size < (fb + 1) * g.blockSize := by
        rw [h.size_eq]
        exact Nat.mul_lt_mul_of_pos_right (Nat.lt_succ_self fb) (by omega)
      split_ifs at hadd with h1 h2
      · exact absurd (congrArg Prod.fst hadd) Bool.false_ne_true
      · exact absurd (congrArg Prod.fst hadd) Bool.false_ne_true
      · obtain rfl := congrArg Prod.snd hadd
        refine ⟨fb + 1, _, h.put (newBlock_tiles ha) rfl (by omega), ?_⟩
        rw [entries_succ, update_self, entries_update_of_le (le_refl _), ha.live]
        exact perm_append_singleton _ _
    · obtain ⟨b, stop, hb, ht⟩ := h.tiles fb hlt
      rw [hb] at hadd
      simp only at hadd
      rcases hput : placeIn g b name ino fileType g.blockSize 0 with _ | b'
      · rw [hput] at hadd
        exact ih (by omega) hadd
      rw [hput] at hadd
      split_ifs at hadd with hw
      · exact absurd (congrArg Prod.fst hadd) Bool.false_ne_true
      obtain rfl := congrArg Prod.snd hadd
      obtain ⟨⟨l', ht', hlive⟩, -⟩ := placeIn_spec ha ht (by omega) hput
      rw [← update_self fb l' recs] at hlive
      have hperm := entries_update hlt hlive
      rw [update_idem, update_eq_self] at hperm
      exact ⟨n, _, h.put ht' h.size_eq fun _ hk _ => hk, hperm⟩

theorem cutIn_block {b : Block} {stop : ℕ} (h : Tiles g b 0 l stop)
    (hfirst : ∀ r ∈ l.head?, ¬r.Is name) :
    (cutIn g b name g.blockSize 0 none = none ∧ ∀ r ∈ l, ¬r.Is name) ∨
      ∃ b' l' ino, cutIn g b name g.blockSize 0 none = some b' ∧ Tiles g b' 0 l' stop ∧
        (live l).Perm ((name, ino) :: live l') := by
  have hbs := g.blockSize_lt
  cases l with
  | nil => exact absurd h.2 (by omega)
  | cons r l =>
    have hr : ¬r.Is name := hfirst r rfl
    have hcut : cutIn g b name g.blockSize 0 none =
        cutIn g b name (g.blockSize - 1) (0 + r.recLen) (some 0) := by
      rw [show g.blockSize = g.blockSize - 1 + 1 by omega, cutIn, if_pos (by omega), h.2.1]
      rw [if_neg (not_not.mpr h.2.2.1), if_neg hr, Nat.add_sub_cancel]
    have hfacts := h.2.2.1.facts
    rw [hcut]
    obtain ⟨hnone, hno⟩ | ⟨b', l', ino, h1, h2, h3, -⟩ :=
      cutIn_some name (g.blockSize - 1) h (by omega)
    · exact Or.inl ⟨hnone, forall_mem_cons.mpr ⟨hr, hno⟩⟩
    · exact Or.inr ⟨b', l', ino, h1, h2, h3⟩

/-- `ext2_dir_remove_entry` removes one name. -/
theorem removeFrom_spec {hit : Hit} (h : Holds g d n recs) (hfind : hit.fb < n)
    (hfirst : firstIs name 0 (recs hit.fb) = some (hit.boff, hit.entry)) (hboff : hit.boff ≠ 0)
    (hbefore : ∀ k < hit.fb, ∀ r ∈ recs k, ¬r.Is name) (hfb : fb ≤ hit.fb)
    (hremove : removeFrom g env d name fuel fb = (true, d')) :
    ∃ recs' ino, Holds g d' n recs' ∧ (entries recs n).Perm ((name, ino) :: entries recs' n) := by
  have hbs := g.blockSize_lt
  induction fuel generalizing fb with
  | zero => exact absurd (congrArg Prod.fst hremove) Bool.false_ne_true
  | succ fuel ih =>
    obtain ⟨hmem, his, hat⟩ := firstIs_eq_some hfirst
    obtain ⟨b, stop, hb, ht⟩ := h.tiles fb (by omega)
    have hhead : ∀ r ∈ (recs fb).head?, ¬r.Is name := by
      intro r hr hris
      obtain rfl | hlt := hfb.eq_or_lt
      · exact hboff (hat r hr hris)
      · exact hbefore fb hlt r (mem_of_mem_head? hr) hris
    have hbelow : fb * g.blockSize < d.size := by
      rw [h.size_eq]
      exact Nat.mul_lt_mul_of_pos_right (by omega) (by omega)
    rw [removeFrom, if_pos hbelow, hb] at hremove
    simp only at hremove
    obtain ⟨hcut, hno⟩ | ⟨b', l', ino, hcut, ht', hlive⟩ := cutIn_block ht hhead
    · rw [hcut] at hremove
      obtain rfl | hlt := hfb.eq_or_lt
      · exact absurd his (hno _ hmem)
      · exact ih (by omega) hremove
    · rw [hcut] at hremove
      split_ifs at hremove with hw
      · exact absurd (congrArg Prod.fst hremove) Bool.false_ne_true
      · obtain rfl := congrArg Prod.snd hremove
        exact ⟨_, ino, h.put ht' h.size_eq fun _ hk _ => hk, entries_update (by omega) hlive⟩

/-! ### Runs -/

/-- What a directory is for: a map from names to inode numbers. -/
abbrev NameMap : Type := List UInt8 → Option ℕ

/-- A call that changes a directory. -/
inductive Call
  | add (name : List UInt8) (ino : ℕ) (fileType : UInt8)
  | remove (name : List UInt8)

/-- A call that loses names, or a block of records that does not belong to the directory: the first
name of a block is removed, the new entry does not itself pass `ext2_validate_dirent`, or a block is
already mapped behind the end of the directory. -/
def Call.Bad (g : Geometry) (d : Dir) : Call → Prop
  | .add _ ino fileType =>
    g.inodesCount < ino ∨ ¬fileTypeValid fileType ∨ (d.block (d.size / g.blockSize)).isSome
  | .remove name => ∃ hit ∈ dirFindEntry g d name, hit.boff = 0

/-- A call that reports success: a new name is added or a present one removed. -/
inductive Call.Step (g : Geometry) : Call → Dir × NameMap → Dir × NameMap → Prop
  | add {name ino fileType env d d' m} (hino : ino < 2 ^ 32) (hnew : m name = none)
    (h : dirAddEntry g env d name ino fileType = (true, d')) :
    Step g (.add name ino fileType) (d, m) (d', update m name (some ino))
  | remove {name env d d' m} (hold : m name ≠ none)
    (h : dirRemoveEntry g env d name = (true, d')) :
    Step g (.remove name) (d, m) (d', update m name none)

variable {ino : ℕ} {m : NameMap}

/-- The directory is divided into records with different names, and these are the names of the
map. -/
def View (g : Geometry) (d : Dir) (m : NameMap) : Prop :=
  ∃ n recs, Holds g d n recs ∧ Distinct recs n ∧
    ∀ name ino, m name = some ino ↔ (name, ino) ∈ entries recs n

theorem View.names_eq (h : View g d m) (name : List UInt8) : names g d name = m name := by
  obtain ⟨n, recs, h1, h2, h3⟩ := h
  exact Option.ext fun ino => (names_eq_some_iff h1 h2 ino).trans (h3 name ino).symm

variable (hd : Distinct recs n) (hm : ∀ name ino, m name = some ino ↔ (name, ino) ∈ entries recs n)

include hd hm

theorem View.insert {n' : ℕ} {recs' : ℕ → List Rec} (hnew : m name = none)
    (h : Holds g d' n' recs') (hp : (entries recs' n').Perm ((name, ino) :: entries recs n)) :
    View g d' (update m name (some ino)) := by
  have habsent : ∀ j, (name, j) ∉ entries recs n := fun j hj =>
    absurd (hnew.symm.trans ((hm name j).mpr hj)) (some_ne_none j).symm
  refine ⟨n', recs', h, ?_, fun x j => ?_⟩
  · have hnodup : (((name, ino) :: entries recs n).map Prod.fst).Nodup := by
      rw [map_cons, nodup_cons]
      refine ⟨fun hx => ?_, hd⟩
      obtain ⟨y, hy, he⟩ := mem_map.mp hx
      exact habsent y.2 ((Prod.ext he rfl : y = (name, y.2)) ▸ hy)
    exact (hp.map Prod.fst).nodup_iff.mpr hnodup
  · rw [hp.mem_iff, mem_cons]
    obtain rfl | hne := eq_or_ne x name
    · rw [update_self, Option.some.injEq, Prod.mk.injEq]
      exact ⟨fun hj => Or.inl ⟨rfl, hj.symm⟩,
        fun hj => hj.elim (fun hj => hj.2.symm) fun hj => absurd hj (habsent j)⟩
    · rw [update_of_ne hne, hm]
      exact ⟨Or.inr, fun hj => hj.resolve_left fun he => hne (Prod.mk.inj he).1⟩

theorem View.erase {recs' : ℕ → List Rec} (h : Holds g d' n recs')
    (hp : (entries recs n).Perm ((name, ino) :: entries recs' n)) :
    View g d' (update m name none) := by
  have hnodup : (((name, ino) :: entries recs' n).map Prod.fst).Nodup :=
    (hp.map Prod.fst).nodup_iff.mp hd
  rw [map_cons, nodup_cons] at hnodup
  refine ⟨n, recs', h, hnodup.2, fun x j => ?_⟩
  obtain rfl | hne := eq_or_ne x name
  · rw [update_self]
    exact ⟨nofun, fun hj => absurd (mem_map_of_mem hj) hnodup.1⟩
  · rw [update_of_ne hne, hm, hp.mem_iff, mem_cons]
    exact ⟨fun hj => hj.resolve_left fun he => hne (Prod.mk.inj he).1, Or.inr⟩

omit hd hm

/-- A successful call changes the map at its own name. -/
theorem Call.Step.view {c : Call} {s s' : Dir × NameMap} (h : Call.Step g c s s')
    (hgood : ¬c.Bad g s.1) (hs : View g s.1 s.2) : View g s'.1 s'.2 := by
  have hnames := fun name => hs.names_eq name
  obtain ⟨n, recs, hh, hd, hm⟩ := hs
  have hbs := g.blockSize_lt
  cases h with
  | @add name ino fileType env d d' m hino hnew h =>
    unfold dirAddEntry at h
    split_ifs at h with h1 h2 h3
    · exact absurd (congrArg Prod.fst h) Bool.false_ne_true
    · exact absurd (congrArg Prod.fst h) Bool.false_ne_true
    · exact absurd (congrArg Prod.fst h) Bool.false_ne_true
    rw [not_or, not_not] at h1
    simp only [Bad, not_or, not_lt, not_not, Bool.not_eq_true, isSome_eq_false_iff,
      isNone_iff_eq_none] at hgood
    rw [hh.size_eq, Nat.mul_div_cancel _ (by omega)] at hgood
    obtain ⟨n', recs', hh', hp⟩ := addFrom_spec ⟨h1.1, hino, hgood.1, h1.2, hgood.2.1⟩ hh
      hgood.2.2 (Nat.zero_le _) h
    exact View.insert hd hm hnew hh' hp
  | @remove name env d d' m hold h =>
    have hfuel : n ≤ 0 + d.size := by
      rw [hh.size_eq, zero_add]
      exact Nat.le_mul_of_pos_right _ (by omega)
    unfold dirRemoveEntry at h
    split_ifs at h with h1 h2
    · exact absurd (congrArg Prod.fst h) Bool.false_ne_true
    · have hfind : dirFindEntry g d name = findFrom g d name d.size 0 := if_pos h1
      obtain ⟨hf, -⟩ | ⟨hit, hf, hlt, hfirst, hbefore⟩ := findFrom_spec name d.size hh hfuel
      · refine absurd ((hnames name).symm.trans ?_) hold
        rw [names, hfind, hf, map_none]
      · obtain ⟨recs', ino, hh', hp⟩ := removeFrom_spec hh hlt hfirst
          (fun h0 => hgood ⟨hit, hfind.trans hf, h0⟩) (fun k hk => hbefore k (Nat.zero_le _) hk)
          (Nat.zero_le _) h
        exact View.erase hd hm hh' hp
    · exact absurd (congrArg Prod.fst h) Bool.false_ne_true

/-- In every run of successful calls none of which loses names, the directory stays divided into
records that pass `ext2_validate_dirent`, and a look-up finds exactly the names of the map. -/
theorem names_of_run {d₀ d : Dir} {m : NameMap} (h0 : Holds g d₀ n recs) (hd0 : Distinct recs n)
    (hrun : ReflTransGen (fun s s' => ∃ c, Call.Step g c s s' ∧ ¬c.Bad g s.1) (d₀, names g d₀)
      (d, m)) :
    (∃ n' recs', Holds g d n' recs' ∧ Distinct recs' n') ∧ ∀ name, names g d name = m name := by
  have hview : View g d m := RHKernel.Step.run_invariant (I := fun s => View g s.1 s.2) hrun
      ⟨n, recs, h0, hd0, fun name ino => names_eq_some_iff h0 hd0 ino⟩
      fun hi ⟨_, hstep, hgood⟩ => hstep.view hgood hi
  obtain ⟨n', recs', h1, h2, -⟩ := id hview
  exact ⟨⟨n', recs', h1, h2⟩, hview.names_eq⟩

/-! ### Two blocks -/

instance decidableTiles (g : Geometry) (b : Block) :
    (boff : ℕ) → (l : List Rec) → (stop : ℕ) → Decidable (Tiles g b boff l stop)
  | _, [], _ => inferInstanceAs (Decidable (_ ∧ _))
  | boff, r :: l, stop =>
    have : Decidable (Tiles g b (boff + r.recLen) l stop) :=
      decidableTiles g b (boff + r.recLen) l stop
    inferInstanceAs (Decidable (_ ∧ _ ∧ _ ∧ _))

/-- A small file system. -/
def smallGeometry : Geometry := ⟨1024, 64, Or.inl rfl⟩

/-- The records of a directory of two blocks: `.` alone in the first, `a` and `b` in the second. -/
def twoRecs : ℕ → List Rec
  | 0 => [⟨2, 1024, 2, [46]⟩]
  | _ => [⟨11, 12, 1, [97]⟩, ⟨12, 1012, 1, [98]⟩]

/-- The bytes of such a block. -/
def blockOf : ℕ → List Rec → Block
  | _, [] => fun _ => 0
  | o, r :: l => putRec (blockOf (o + r.recLen) l) o r

/-- The directory of these two blocks. -/
def twoBlocks : Dir where
  size := 2048
  block fb := if fb < 2 then some (blockOf 0 (twoRecs fb)) else none

theorem twoBlocks_holds : Holds smallGeometry twoBlocks 2 twoRecs := by
  have htiles : ∀ fb < 2, Tiles smallGeometry (blockOf 0 (twoRecs fb)) 0 (twoRecs fb) 1024 := by
    decide
  exact ⟨rfl, fun fb h => ⟨_, 1024, if_pos h, htiles fb h⟩⟩

theorem twoRecs_distinct : Distinct twoRecs 2 := by
  unfold Distinct
  decide

/-- A call that meets no obstacle. -/
def calm : Env := ⟨true, true, true, true⟩

theorem names_of_run_addC :
    names smallGeometry (dirAddEntry smallGeometry calm twoBlocks [99] 13 1).2 [99] = some 13 := by
  have hstep : Call.Step smallGeometry (.add [99] 13 1) (twoBlocks, names smallGeometry twoBlocks)
      ((dirAddEntry smallGeometry calm twoBlocks [99] 13 1).2,
        update (names smallGeometry twoBlocks) [99] (some 13)) :=
    @Call.Step.add smallGeometry _ _ _ calm _ _ _ (by decide) (by decide) (Prod.ext (by decide) rfl)
  have hgood : ¬Call.Bad smallGeometry twoBlocks (.add [99] 13 1) := by
    unfold Call.Bad
    decide
  rw [(names_of_run twoBlocks_holds twoRecs_distinct
    (ReflTransGen.single ⟨_, hstep, hgood⟩)).2 [99], update_self]

/-- After the first entry of the second block is removed, the other one is not found any more. -/
theorem remove_first_hides :
    Holds smallGeometry twoBlocks 2 twoRecs ∧ Distinct twoRecs 2 ∧
      ∃ d', Call.Step smallGeometry (.remove [97]) (twoBlocks, names smallGeometry twoBlocks)
          (d', update (names smallGeometry twoBlocks) [97] none) ∧
        update (names smallGeometry twoBlocks) [97] none [98] = some 12 ∧
        names smallGeometry d' [98] = none := by
  refine ⟨twoBlocks_holds, twoRecs_distinct, (dirRemoveEntry smallGeometry calm twoBlocks [97]).2,
    @Call.Step.remove smallGeometry _ calm _ _ _ (by decide)
      (Prod.ext (by decide) rfl), ?_, by decide⟩
  decide

end RHKernel.Ext2
