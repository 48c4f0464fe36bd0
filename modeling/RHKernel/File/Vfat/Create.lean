import Mathlib.Data.List.Nodup
import RHKernel.File.Vfat.NameEntries
import RHKernel.Lib.Rows

/-!
# Creating a file in vfat

`vfat_create` looks for free slots one cluster after another and takes a new cluster if none has
enough of them. It does not ask whether the scanner gets there: a slot that was never used ends the
directory, also when files stand in the clusters behind it. Nor does it ask whether the slots fit
into the new cluster.

Where the slots go is the first window of free slots in a cluster, or the start of a new cluster.
-/

namespace RHKernel.Vfat

open Option Rows

/-- A directory and what it can be extended by. The root directory of FAT12 and FAT16, which is not
in clusters, counts as one cluster with all its slots and is `fixed`. -/
structure Dir where
  attr : UInt8
  fixed : Bool
  readonly : Bool
  perCluster : ℕ
  dataStart : ℕ
  imageEnd : ℕ
  clusters : List ℕ
  free : List ℕ
  slot : ℕ → Slot

/-- `cluster_off`: the position of the first slot of a cluster. -/
def Dir.start (d : Dir) (c : ℕ) : ℕ := d.dataStart + (c - 2) * d.perCluster

/-- The positions of the slots of a cluster. -/
def Dir.range (d : Dir) (c : ℕ) : List ℕ := List.range' (d.start c) d.perCluster

/-- The positions of the slots of a directory. -/
def Dir.positions (d : Dir) : List ℕ := d.clusters.flatMap d.range

/-- `scan_dir` for a name. -/
def Dir.scan (d : Dir) (want : List UInt8) : Option DirEnt :=
  scanEntries d.slot want d.positions lfnReset

/-- `sfn_exists`. -/
def Dir.taken (d : Dir) (sfn : List UInt8) : Bool := sfnExists d.slot d.positions sfn

/-- The loop of `dir_find_free_fixed` and `dir_find_free_chain` over the slots from `s` on, `left`
of them; the last `run` slots are free, from `start` on. -/
def freeFrom (slot : ℕ → Slot) (s need : ℕ) : ℕ → ℕ → ℕ → ℕ → Option ℕ
  | 0, _, _, _ => none
  | left + 1, i, run, start =>
    if slotFree (slot (s + i)) then
      if run + 1 = need then some (if run = 0 then i else start)
      else freeFrom slot s need left (i + 1) (run + 1) (if run = 0 then i else start)
    else freeFrom slot s need left (i + 1) 0 start

/-- The search for free slots in one cluster. -/
def Dir.freeIn (d : Dir) (need c : ℕ) : Option ℕ :=
  (freeFrom d.slot (d.start c) need d.perCluster 0 0 0).map (d.start c + ·)

/-- The directory with one more cluster, which `fat_alloc_cluster` filled with zeros. -/
def Dir.extend (d : Dir) (c : ℕ) (free : List ℕ) : Dir :=
  { d with
    clusters := d.clusters ++ [c]
    free := free
    slot := fun p => if d.start c ≤ p ∧ p < d.start c + d.perCluster then fun _ => 0 else d.slot p }

/-- `dir_find_free_fixed` and `dir_find_free_chain`. -/
def dirFindFree (d : Dir) (need : ℕ) : Option ℕ × Dir :=
  match d.clusters.findSome? (d.freeIn need) with
  | some a => (some a, d)
  | none =>
    if d.fixed = true ∨ d.clusters = [] then (none, d)
    else
      match d.free with
      | [] => (none, d)
      | c :: free => (some (d.start c), d.extend c free)

/-- `write_bytes` of whole slots. -/
def Dir.put (d : Dir) (a : ℕ) (set : List Slot) : Dir :=
  { d with
    slot := fun p => if a ≤ p ∧ p < a + set.length then set.getD (p - a) fun _ => 0 else d.slot p }

def dirWriteEntries (d : Dir) (set : List Slot) : Bool × Dir :=
  match dirFindFree d set.length with
  | (none, d) => (false, d)
  | (some a, d) => if a + set.length ≤ d.imageEnd then (true, d.put a set) else (false, d)

/-- `vfat_create`: the entry that the node is made from if it returns 0, and the directory
afterwards; `file` says that the type is `VFS_NODE_FILE`. -/
def vfatCreate (d : Dir) (name : List UInt8) (file : Bool) : Option DirEnt × Dir :=
  if d.attr &&& attrDir = 0 ∨ d.readonly = true ∨ file = false then (none, d)
  else if (d.scan name).isSome then (none, d)
  else
    match buildNameEntries d.taken name attrArchive 0 0 with
    | none => (none, d)
    | some set =>
      match dirWriteEntries d set with
      | (false, d) => (none, d)
      | (true, d) => (d.scan name, d)

section Search

variable {d : Dir} {slot : ℕ → Slot} {s need left i run start c : ℕ}

theorem freeFrom_spec (left : ℕ) (h : FreeRun (fun i => slotFree (slot (s + i))) need i run start) :
    (∃ k, freeFrom slot s need left i run start = some k ∧ k + need ≤ i + left ∧
        Window (fun i => slotFree (slot (s + i))) need k ∧
        ∀ k' < k, ¬Window (fun i => slotFree (slot (s + i))) need k') ∨
      freeFrom slot s need left i run start = none ∧
        ∀ k, k + need ≤ i + left → ¬Window (fun i => slotFree (slot (s + i))) need k := by
  induction left generalizing i run start with
  | zero => exact .inr ⟨rfl, h.none⟩
  | succ left ih =>
    rw [freeFrom, ← add_assoc, add_right_comm i left 1]
    by_cases hi : slotFree (slot (s + i))
    · rw [if_pos hi, h.start_succ]
      have hshort := h.short
      split_ifs with hneed
      · obtain ⟨h1, h2, h3⟩ := h.found hi hneed
        exact .inl ⟨_, rfl, by omega, h2, h3⟩
      · exact ih (h.next_free hi (by omega))
    · rw [if_neg hi]
      exact ih (h.next_used hi)

/-- `need` free slots from the slot `k` of a cluster on. -/
def Dir.Window (d : Dir) (need c k : ℕ) : Prop :=
  k + need ≤ d.perCluster ∧ ∀ m < need, slotFree (d.slot (d.start c + k + m))

theorem freeIn_spec (d : Dir) (hneed : 0 < need) (c : ℕ) :
    (∃ k, d.freeIn need c = some (d.start c + k) ∧ d.Window need c k ∧
        ∀ k' < k, ¬d.Window need c k') ∨
      d.freeIn need c = none ∧ ∀ k, ¬d.Window need c k := by
  have hiff : ∀ k, d.Window need c k ↔ k + need ≤ d.perCluster ∧
      Rows.Window (fun i => slotFree (d.slot (d.start c + i))) need k := by
    intro k
    refine and_congr_right fun _ => forall_congr' fun m => imp_congr_right fun _ => ?_
    rw [add_assoc]
  rw [Dir.freeIn]
  obtain ⟨k, h1, h2, h3, h4⟩ | ⟨h1, h2⟩ := freeFrom_spec d.perCluster
      (FreeRun.zero (fun i => slotFree (d.slot (d.start c + i))) hneed)
  · rw [zero_add] at h2
    refine .inl ⟨k, by rw [h1]; rfl, (hiff k).mpr ⟨h2, h3⟩, fun k' hk' hw => h4 k' hk' ?_⟩
    exact ((hiff k').mp hw).2
  · rw [zero_add] at h2
    exact .inr ⟨by rw [h1]; rfl, fun k hw => h2 k hw.1 ((hiff k).mp hw).2⟩

/-- Where `dir_find_free` puts the slots. -/
inductive FindFree (d : Dir) (need : ℕ) : Prop
  /-- The first window. -/
  | window (cs cs' : List ℕ) (c k : ℕ) (hsplit : d.clusters = cs ++ c :: cs')
      (hfind : dirFindFree d need = (some (d.start c + k), d)) (hwindow : d.Window need c k)
      (hfirst : ∀ k' < k, ¬d.Window need c k') (hbefore : ∀ c ∈ cs, ∀ k, ¬d.Window need c k)
  /-- A new cluster. -/
  | extend (c : ℕ) (free : List ℕ) (hnone : ∀ c ∈ d.clusters, ∀ k, ¬d.Window need c k)
      (hfixed : d.fixed = false) (hfree : d.free = c :: free)
      (hfind : dirFindFree d need = (some (d.start c), d.extend c free))
  /-- There is no room. -/
  | full (hnone : ∀ c ∈ d.clusters, ∀ k, ¬d.Window need c k)
      (hfull : (d.fixed = true ∨ d.clusters = []) ∨ d.free = [])
      (hfind : dirFindFree d need = (none, d))

theorem findFree_cases (d : Dir) (hneed : 0 < need) : FindFree d need := by
  cases hsome : d.clusters.findSome? (d.freeIn need) with
  | some a =>
    obtain ⟨cs, c, cs', hsplit, hc, hcs⟩ := List.findSome?_eq_some_iff.mp hsome
    obtain ⟨k, h1, h2, h3⟩ | ⟨h1, -⟩ := freeIn_spec d hneed c
    · obtain rfl := some.inj (h1.symm.trans hc)
      refine .window cs cs' c k hsplit (by rw [dirFindFree, hsome]) h2 h3 fun c' hc' k' hw => ?_
      obtain ⟨k, h4, -⟩ | ⟨-, h4⟩ := freeIn_spec d hneed c'
      · exact some_ne_none _ (h4.symm.trans (hcs c' hc'))
      · exact h4 k' hw
    · exact absurd (h1.symm.trans hc) (some_ne_none _).symm
  | none =>
    have hnone : ∀ c ∈ d.clusters, ∀ k, ¬d.Window need c k := by
      intro c hc k hw
      obtain ⟨k, h1, -⟩ | ⟨-, h1⟩ := freeIn_spec d hneed c
      · exact some_ne_none _ (h1.symm.trans (List.findSome?_eq_none_iff.mp hsome c hc))
      · exact h1 k hw
    by_cases hfixed : d.fixed = true ∨ d.clusters = []
    · exact .full hnone (.inl hfixed) (by rw [dirFindFree, hsome]; exact if_pos hfixed)
    cases hfree : d.free with
    | nil =>
      exact .full hnone (.inr hfree) (by rw [dirFindFree, hsome, hfree]; exact if_neg hfixed)
    | cons c free =>
      refine .extend c free hnone (Bool.eq_false_iff.mpr fun h => hfixed (.inl h)) hfree ?_
      rw [dirFindFree, hsome, hfree]
      exact if_neg hfixed

end Search

section Orphans

variable {slot slot' : ℕ → Slot} {ps qs : List ℕ} {lfn : LfnState} {long : Bool}

/-- The slot has a part of a long name. -/
def isLong (e : Slot) : Bool := decide (e 0 ≠ 0xE5 ∧ e 11 = attrLfn)

/-- Up to the end, a slot in use follows each part of a long name; `long` says that the slot before
is one. -/
def orphanFree (slot : ℕ → Slot) : Bool → List ℕ → Bool
  | long, [] => !long
  | long, p :: ps =>
    (!long || !decide (slotFree (slot p))) &&
      (slot p 0 == 0 || orphanFree slot (isLong (slot p)) ps)

/-- Before a free slot and at the end of a directory no part of a long name is pending. -/
theorem lfnAfter_eq_reset (qs : List ℕ) (h : orphanFree slot long (ps ++ qs) = true)
    (hlong : long = false → lfn = lfnReset) (hps : ∀ p ∈ ps, slot p 0 ≠ 0)
    (hqs : ∀ q ∈ qs.head?, slotFree (slot q)) : lfnAfter slot lfn ps = lfnReset := by
  induction ps generalizing long lfn with
  | nil =>
    cases qs with
    | nil => exact hlong (Bool.not_eq_true' _ ▸ h)
    | cons q qs =>
      rw [List.nil_append, orphanFree, Bool.and_eq_true, decide_eq_true (hqs q rfl)] at h
      refine hlong ?_
      cases long with
      | false => rfl
      | true => exact absurd h.1 (by decide)
  | cons p ps ih =>
    rw [List.cons_append, orphanFree, Bool.and_eq_true] at h
    have hrest := (Bool.or_eq_true _ _ ▸ h.2).resolve_left fun h0 =>
      hps p List.mem_cons_self (beq_iff_eq.mp h0)
    refine ih hrest (fun hp => ?_) fun q hq => hps q (List.mem_cons_of_mem _ hq)
    exact if_neg (of_decide_eq_false hp)

end Orphans

/-! ### Directories in order -/

/-- The clusters of a directory are distinct, lie in the image and, unless it is the fixed root,
have at least the size of a sector; no part of a long name stands alone. Otherwise slots in use,
deleted and never used may stand anywhere. -/
structure WellFormed (d : Dir) : Prop where
  ne_nil : d.clusters ≠ []
  nodup : (d.clusters ++ d.free).Nodup
  valid : ∀ c ∈ d.clusters ++ d.free, 2 ≤ c ∧ d.start c + d.perCluster ≤ d.imageEnd
  size : d.fixed = false → 16 ≤ d.perCluster
  tidy : orphanFree d.slot false d.positions = true

section Positions

variable {d : Dir} {c c' k n p : ℕ} {cs cs' l : List ℕ}

theorem mem_range : p ∈ d.range c ↔ d.start c ≤ p ∧ p < d.start c + d.perCluster :=
  List.mem_range'_1

theorem mem_positions : p ∈ d.positions ↔ ∃ c ∈ d.clusters, p ∈ d.range c := List.mem_flatMap

theorem eq_of_mem_range (hc : 2 ≤ c) (hc' : 2 ≤ c') (h : p ∈ d.range c) (h' : p ∈ d.range c') :
    c = c' := by
  have key : ∀ {x}, p ∈ d.range x → (p - d.dataStart) / d.perCluster = x - 2 := by
    intro x hx
    obtain ⟨h1, h2⟩ := mem_range.mp hx
    rw [Dir.start] at h1 h2
    refine Nat.div_eq_of_lt_le (by omega) ?_
    rw [Nat.succ_mul]
    omega
  have := (key h).symm.trans (key h')
  omega

theorem nodup_flatMap_range (hl : l.Nodup) (hv : ∀ c ∈ l, 2 ≤ c) : (l.flatMap d.range).Nodup := by
  refine List.nodup_flatMap.mpr ⟨fun c _ => List.nodup_range', hl.imp_of_mem ?_⟩
  intro c c' hc hc' hne p hp hp'
  exact hne (eq_of_mem_range (hv c hc) (hv c' hc') hp hp')

/-- A cluster is what stands before some of its slots, these slots, and what stands behind. -/
theorem range_split (h : k + n ≤ d.perCluster) :
    d.range c = List.range' (d.start c) k ++ (List.range' (d.start c + k) n ++
      List.range' (d.start c + k + n) (d.perCluster - k - n)) := by
  rw [List.range'_append_1, List.range'_append_1, Dir.range]
  congr 1
  omega

theorem positions_split (h : d.clusters = cs ++ c :: cs') :
    d.positions = cs.flatMap d.range ++ (d.range c ++ cs'.flatMap d.range) := by
  rw [Dir.positions, h, List.flatMap_append, List.flatMap_cons]

theorem WellFormed.nodup_positions (h : WellFormed d) : d.positions.Nodup :=
  nodup_flatMap_range h.nodup.of_append_left fun c hc => (h.valid c (List.mem_append_left _ hc)).1

end Positions

section Forms

variable {taken : List UInt8 → Bool} {name : List UInt8} {units units' : Option (List ℕ)}

/-- The long form that the name gets: none if its own short form is not taken; otherwise its
characters, if a number makes a short name for it. -/
def Form (taken : List UInt8 → Bool) (name : List UInt8) (units : Option (List ℕ)) : Prop :=
  (units = none ∧ ∃ sfn, makeExactSfn name = some sfn ∧ taken sfn = false) ∨
    (units.isSome ∧ utf8ToUtf16Units name = units ∧
      (∀ sfn, makeExactSfn name = some sfn → taken sfn = true) ∧ NumberFree taken name)

theorem Form.unique (h : Form taken name units) (h' : Form taken name units') : units = units' := by
  have clash : ∀ {p : Prop}, (∃ sfn, makeExactSfn name = some sfn ∧ taken sfn = false) →
      (∀ sfn, makeExactSfn name = some sfn → taken sfn = true) → p := by
    rintro p ⟨sfn, h1, h2⟩ h3
    exact absurd (h2.symm.trans (h3 sfn h1)) Bool.false_ne_true
  rcases h with ⟨h1, h2⟩ | ⟨-, h1, h2, -⟩ <;> rcases h' with ⟨h3, h4⟩ | ⟨-, h3, h4, -⟩
  · exact h1.trans h3.symm
  · exact clash h2 h4
  · exact clash h4 h2
  · exact h1.symm.trans h3

theorem buildNameEntries_cases (taken : List UInt8 → Bool) (hname : validName name) (attr : UInt8)
    (firstCluster size : ℕ) :
    (∃ sfn units, buildNameEntries taken name attr firstCluster size =
        some (nameEntries sfn units attr firstCluster size) ∧ Prepared name sfn units ∧
        Form taken name units ∧ taken sfn = false) ∨
      buildNameEntries taken name attr firstCluster size = none ∧
        ∀ units, ¬Form taken name units := by
  unfold buildNameEntries
  rw [if_neg (not_not.mpr hname)]
  by_cases hexact : ∃ sfn, makeExactSfn name = some sfn ∧ taken sfn = false
  · obtain ⟨sfn, h1, h2⟩ := hexact
    rw [makeSfn, h1, filter_some_pos (by rw [h2]; rfl)]
    exact .inl ⟨sfn, none, rfl, ⟨hname, firstOf_exact hname h1, fun _ => h1,
      fun _ h => absurd h.symm (some_ne_none _)⟩, .inl ⟨rfl, sfn, h1, h2⟩, h2⟩
  have hno : ∀ sfn, makeExactSfn name = some sfn → taken sfn = true := by
    intro sfn h1
    by_contra h2
    exact hexact ⟨sfn, h1, Bool.eq_false_iff.mpr h2⟩
  obtain ⟨sfn, h1, h2, hfree, h3⟩ | ⟨h1, h2⟩ := makeSfn_numbered_cases hno
  · rw [h1]
    cases hu : utf8ToUtf16Units name with
    | none =>
      refine .inr ⟨rfl, fun units hform => ?_⟩
      rcases hform with ⟨-, hex⟩ | ⟨hsome, hunits, -⟩
      · exact hexact hex
      · rw [← hunits, hu] at hsome
        exact Bool.false_ne_true hsome
    | some us =>
      have hp : Prepared name sfn (some us) :=
        ⟨hname, h2, fun h => absurd h (some_ne_none us), fun us' h => h ▸ hu⟩
      have hle := hp.longSlots_le
      have hpos := longSlots_pos us
      have hslots : ¬(lfnSlotsFor us.length = 0 ∨ maxLfnSlots < lfnSlotsFor us.length) :=
        not_or.mpr ⟨pos_iff_ne_zero.mp hpos, not_lt.mpr hle⟩
      simp only
      rw [if_neg hslots]
      exact .inl ⟨sfn, some us, rfl, hp, .inr ⟨rfl, hu, hno, h3⟩, hfree⟩
  · rw [h1]
    refine .inr ⟨rfl, fun units hform => ?_⟩
    rcases hform with ⟨-, hex⟩ | ⟨-, -, -, hnum⟩
    · exact hexact hex
    · exact h2 hnum

end Forms

section ReadBack

variable {slot : ℕ → Slot} {st : LfnState} {ps : List ℕ} {a : ℕ} {name : List UInt8} {attr : UInt8}
  {firstCluster size : ℕ} {parts : List Slot} {e : Slot}

/-- `lfn_take` on slots at consecutive positions from `a` on. -/
def lfnTakeAll : LfnState → ℕ → List Slot → LfnState
  | st, _, [] => st
  | st, a, e :: es => lfnTakeAll (lfnTake st e a) (a + 1) es

/-- The long name is read back from its slots, and the short one is new to the directory. -/
structure RoundTrips (slot : ℕ → Slot) (ps : List ℕ) (name : List UInt8) (parts : List Slot)
    (e : Slot) : Prop where
  emitted : ∀ st a, lfnEmit (lfnTakeAll st a parts) e = some name
  fresh : ∀ p ∈ ps.takeWhile (slot · 0 != 0), slot p 0 ≠ 0xE5 → slot p 11 ≠ attrLfn →
    ∃ i < 11, slot p i ≠ e i

theorem lfnTakeAll_eq (h : ∀ i (hi : i < parts.length), slot (a + i) = parts[i] ∧
    slot (a + i) 0 ≠ 0xE5 ∧ slot (a + i) 11 = attrLfn) :
    lfnTakeAll st a parts = lfnAfter slot st (List.range' a parts.length) := by
  induction parts generalizing st a with
  | nil => rfl
  | cons e es ih =>
    obtain ⟨h0, hused, hattr⟩ := h 0 (Nat.succ_pos _)
    have hstep : lfnStep (slot a) st a = lfnTake st e a := by
      rw [lfnStep, if_pos ⟨hused, hattr⟩]
      exact congrArg (lfnTake st · a) h0
    change lfnTakeAll (lfnTake st e a) (a + 1) es =
      lfnAfter slot (lfnStep (slot a) st a) (List.range' (a + 1) es.length)
    rw [hstep]
    refine ih fun i hi => ?_
    rw [Nat.add_assoc, Nat.add_comm 1 i]
    exact h (i + 1) (Nat.succ_lt_succ hi)

theorem exists_stands (a : ℕ) (sfn : List UInt8) (units : Option (List ℕ)) :
    ∃ slot, Stands slot a sfn units := by
  refine ⟨fun p => if p < a + longSlots units then buildLfnSlot (longSlots units - (p - a))
    (longSlots units) (shortChecksum fun i => sfn.getD i 0) (units.getD [])
      else buildSfnSlot sfn attrArchive 0 0, fun i hi => ?_, if_neg (lt_irrefl _)⟩
  refine (if_pos (Nat.add_lt_add_left hi a)).trans ?_
  rw [Nat.add_sub_cancel_left]

/-- A short name that `sfn_exists` does not find is none of the directory's. -/
theorem fresh_of_not_sfnExists {sfn : List UInt8} (hlen : sfn.length = 11)
    (h : sfnExists slot ps sfn = false) {p : ℕ} (hp : p ∈ ps.takeWhile (slot · 0 != 0))
    (hused : slot p 0 ≠ 0xE5) (hattr : slot p 11 ≠ attrLfn) :
    ∃ i < 11, slot p i ≠ sfn.getD i 0 := by
  by_contra! hsame
  have heq : (List.range 11).map (slot p) = sfn := by
    refine List.ext_getElem (by simp [hlen]) fun i _ hi => ?_
    rw [List.getElem_map, List.getElem_range, hsame i (hlen ▸ hi), List.getD_eq_getElem _ _ hi]
  have hmiss := List.any_eq_false.mp h p hp
  rw [heq] at hmiss
  exact hmiss (by simp [hused, hattr])

/-- A name with long-name slots is read back from them, and its short name is new, exactly if
U+FFFF, at which the reader stops, is not in it. -/
theorem roundTrips_iff (hname : validName name)
    (hbuild : buildNameEntries (sfnExists slot ps) name attr firstCluster size =
      some (parts ++ [e])) (hlong : parts ≠ []) :
    RoundTrips slot ps name parts e ↔
      ∀ units, utf8ToUtf16Units name = some units → 0xFFFF ∉ units := by
  obtain ⟨sfn, units, hset, hp, -, hfree⟩ | ⟨hnone, -⟩ :=
    buildNameEntries_cases (sfnExists slot ps) hname attr firstCluster size
  swap
  · exact absurd (hnone.symm.trans hbuild) (Option.some_ne_none _).symm
  obtain ⟨hparts, he⟩ := List.append_inj' (Option.some.inj (hset.symm.trans hbuild)) rfl
  rcases hu : units with _ | us
  · subst hu
    exact absurd hparts.symm hlong
  subst hu
  have hlen : parts.length = longSlots (some us) := by
    rw [← hparts, List.length_map, List.length_range]
  have he : ∀ i < 11, e i = sfn.getD i 0 := fun i hi => by
    rw [← List.singleton_inj.mp he]
    exact buildSfnSlot_name sfn attr firstCluster size hi
  have hemit : ∀ st a, lfnEmit (lfnTakeAll st a parts) e = some name ↔ 0xFFFF ∉ us := by
    intro st a
    obtain ⟨slot', hstands⟩ := exists_stands a sfn (some us)
    rw [lfnTakeAll_eq fun i hi => ?_, hlen]
    · exact hstands.emits hp st he
    · have hpart := hstands.isPart hp (hlen ▸ hi)
      refine ⟨(hstands.1 i (hlen ▸ hi)).trans ?_, fun h => hpart.used (.inr h), hpart.attr_eq⟩
      simp only [← hparts, List.getElem_map, List.getElem_range]
  have hus : (∀ units, utf8ToUtf16Units name = some units → 0xFFFF ∉ units) ↔ 0xFFFF ∉ us := by
    rw [hp.long us rfl]
    exact ⟨fun h => h us rfl, fun h units heq => Option.some.inj heq ▸ h⟩
  rw [hus]
  refine ⟨fun h => (hemit lfnReset 0).mp (h.emitted lfnReset 0), fun h => ?_⟩
  refine ⟨fun st a => (hemit st a).mpr h, fun p hp' hused hattr => ?_⟩
  obtain ⟨i, hi, hne⟩ := fresh_of_not_sfnExists hp.first.length_eq hfree hp' hused hattr
  exact ⟨i, hi, he i hi ▸ hne⟩

/-- In an empty directory the name `b` needs a long-name slot, and is read back. -/
theorem roundTrips_one_letter : ∃ parts e,
    buildNameEntries (sfnExists (fun _ _ => 0) []) [0x62] attrArchive 0 0 = some (parts ++ [e]) ∧
      RoundTrips (fun _ _ => 0) [] [0x62] parts e := by
  refine ⟨_, _, rfl, (roundTrips_iff (by decide) rfl (by decide)).mpr ?_⟩
  intro units hunits
  rw [← Option.some.inj hunits]
  decide

/-- The name ends in U+FFFF, and what is read back has lost it. -/
theorem lfnEmit_ends_early : ∃ parts e,
    validName [0x62, 0xEF, 0xBF, 0xBF] ∧ parts ≠ [] ∧
    buildNameEntries (sfnExists (fun _ _ => 0) []) [0x62, 0xEF, 0xBF, 0xBF] attrArchive 0 0 =
        some (parts ++ [e]) ∧
      lfnEmit (lfnTakeAll lfnReset 0 parts) e = some [0x62] := by
  refine ⟨_, _, ?_, ?_, rfl, ?_⟩
  · decide
  · decide
  · decide +kernel

end ReadBack

end RHKernel.Vfat
