import RHKernel.Memory.Pmm.Pages
import RHKernel.Memory.Vmm.Model

/-!
# Page tables as trees

The tables on the way from a root to the last level form a radix tree whose nodes are pages. What
an address translates to depends on the entries along one path, so an operation on one page is
understood once it is known that no two paths of interest share a table. Which paths are of
interest is a parameter `W`: the path to one faulting address, or all user paths of all address
spaces.

`Tables` is the invariant: the paths in `W` lead to different pages, every one of them is held
from the allocator, and physical memory fits into the address field of an entry. Walking with
`allocate` keeps it and changes no last-level entry (`Grown`); storing a last-level entry changes
that entry and no other.
-/

namespace RHKernel.Vmm

open Function List PageFlags Pmm Radix Step

variable {x i r virt k n t root : ℕ} {c : Config}

/-- An address that the address field of an entry can hold. -/
def IsFrame (c : Config) (x : ℕ) : Prop := pageSize ∣ x ∧ x < 2 ^ c.physBits

theorem IsFrame.pfn_mul (h : IsFrame c x) : pfn x * pageSize = x := pfn_mul_pageSize h.1

theorem IsFrame.testBit (h : IsFrame c x) (hi : ¬(12 ≤ i ∧ i < c.physBits)) :
    x.testBit i = false := by
  obtain ⟨⟨y, rfl⟩, hlt⟩ := h
  by_cases h12 : 12 ≤ i
  · exact Nat.testBit_lt_two_pow (hlt.trans_le (Nat.pow_le_pow_right two_pos (by omega)))
  · rw [show pageSize = 2 ^ 12 from rfl, mul_comm, Nat.testBit_mul_two_pow]
    simp [h12]

theorem frame_or (h : IsFrame c x) {flags : Pte}
    (hf : ∀ i, 12 ≤ i → i < c.physBits → flags.getLsbD i = false) :
    frame c ((BitVec.ofNat 64 x &&& c.physAddrMask) ||| flags) = x := by
  have hle := c.physBits_le
  have hx : x < 2 ^ 64 := h.2.trans_le (Nat.pow_le_pow_right two_pos (by omega))
  have heq : ((BitVec.ofNat 64 x &&& c.physAddrMask) ||| flags) &&& c.physAddrMask =
      BitVec.ofNat 64 x := by
    refine BitVec.eq_of_getLsbD_eq fun i hi => ?_
    rw [BitVec.getLsbD_and, BitVec.getLsbD_or, BitVec.getLsbD_and, getLsbD_physAddrMask,
      BitVec.getLsbD_ofNat]
    by_cases hfield : 12 ≤ i ∧ i < c.physBits
    · rw [hf i hfield.1 hfield.2]
      simp [hi, hfield.1, hfield.2]
    · rw [h.testBit hfield]
      by_cases h12 : 12 ≤ i <;> by_cases hb : i < c.physBits <;> simp_all
  rw [frame, heq, BitVec.toNat_ofNat, Nat.mod_eq_of_lt hx]

theorem frame_ofNat (h : IsFrame c x) : frame c (BitVec.ofNat 64 x) = x := by
  have hfr := @frame_or x c h 0#64 (by simp)
  rw [BitVec.or_zero, frame, BitVec.and_assoc, BitVec.and_self] at hfr
  exact hfr

theorem isFrame_frame (c : Config) (e : Pte) : IsFrame c (frame c e) := by
  have hbit : ∀ i, (frame c e).testBit i = true → 12 ≤ i ∧ i < c.physBits := by
    intro i hi
    have hb : (e &&& c.physAddrMask).getLsbD i = true := hi
    rw [BitVec.getLsbD_and, getLsbD_physAddrMask] at hb
    simp only [Bool.and_eq_true, decide_eq_true_eq] at hb
    exact hb.2
  refine ⟨?_, ?_⟩
  · rw [show pageSize = 2 ^ 12 from rfl, Nat.dvd_iff_mod_eq_zero]
    refine Nat.eq_of_testBit_eq fun i => ?_
    rw [Nat.testBit_mod_two_pow, Nat.zero_testBit]
    by_cases hb : (frame c e).testBit i = true
    · simp [not_lt.mpr (hbit i hb).1]
    · simp [hb]
  · refine Nat.lt_pow_two_of_testBit _ fun i hi => ?_
    by_contra hb
    have := hbit i (by simpa using hb)
    omega

/-! ### Entries and paths -/

/-- The table an entry points at. -/
def next (c : Config) (mem : ℕ → ℕ → Pte) (table index : ℕ) : Option ℕ :=
  if (mem table index).has present && !(mem table index).has huge then
    some (frame c (mem table index)) else none

/-- The indices on the way to `virt`, down to level `n`. -/
def path (c : Config) (virt n : ℕ) : List ℕ := (List.range n).map (levelIndex c virt)

@[simp]
theorem path_zero (c : Config) (virt : ℕ) : path c virt 0 = [] := rfl

theorem path_succ (c : Config) (virt n : ℕ) :
    path c virt (n + 1) = path c virt n ++ [levelIndex c virt n] := by
  rw [path, path, range_succ, map_append, map_singleton]

theorem path_add (c : Config) (virt n m : ℕ) :
    path c virt (n + m) =
      path c virt n ++ (List.range m).map fun k => levelIndex c virt (n + k) := by
  rw [path, path, range_add, map_append, map_map]
  rfl

/-- A closed set of paths contains the way to each path in it. -/
theorem path_mem_of_le {W : Set (ℕ × List ℕ)} (hW : Closed W)
    (h : (r, path c virt n) ∈ W) (hk : k ≤ n) : (r, path c virt k) ∈ W := by
  obtain ⟨m, rfl⟩ := Nat.exists_eq_add_of_le hk
  rw [path_add] at h
  exact hW h

/-- The entry `i` of the table that `p` leads to from `r`; absent tables read as empty. -/
def entryAt (c : Config) (mem : ℕ → ℕ → Pte) (r : ℕ) (p : List ℕ) (i : ℕ) : Pte :=
  ((follow (next c mem) p r).map fun t => mem t i).getD 0

theorem entryAt_of_follow {mem : ℕ → ℕ → Pte} {p : List ℕ}
    (h : follow (next c mem) p r = some t) (i : ℕ) : entryAt c mem r p i = mem t i := by
  rw [entryAt, h]
  rfl

theorem next_congr {mem mem' : ℕ → ℕ → Pte} (h : mem' t i = mem t i) :
    next c mem' t i = next c mem t i := by
  rw [next, next, h]

/-- A walk that does not allocate follows the entries that are there. -/
theorem walkFrom_false (c : Config) (virt : ℕ) (s : State) (n level table : ℕ) :
    walkFrom c virt false n level table s =
      .ok (follow (next c s.mem) ((List.range' level n).map (levelIndex c virt)) table, s) := by
  induction n generalizing level table with
  | zero => rfl
  | succ n ih =>
    set i := levelIndex c virt level
    have hnext : getNextTable c s table i false =
        .ok (next c s.mem table i, s) := by
      unfold getNextTable next
      simp only [Bool.not_false, if_true]
      cases (s.mem table i).has present <;>
        cases (s.mem table i).has huge <;> rfl
    rw [walkFrom, hnext, bind_of_ok, range'_succ, map_cons, follow]
    cases next c s.mem table i with
    | none => rfl
    | some t => exact ih (level + 1) t

theorem walkToLevel_false (c : Config) (s : State) (hroot : IsFrame c root)
    (virt target : ℕ) :
    walkToLevel c s root virt target false =
      .ok (follow (next c s.mem) (path c virt target) root, s) := by
  rw [walkToLevel, frame_ofNat hroot, walkFrom_false, path, range_eq_range']

/-- `get_pte_ptr` finds the last table on the path. -/
theorem getPtePtr_eq (c : Config) (s : State) (hroot : IsFrame c root) (virt : ℕ) :
    getPtePtr c s virt root = (follow (next c s.mem) (path c virt (c.levels - 1)) root).map
        fun t => (t, levelIndex c virt (c.levels - 1)) := by
  rw [getPtePtr, walkToLevel_false c s hroot]
  cases follow (next c s.mem) (path c virt (c.levels - 1)) root <;> rfl

/-! ### The invariant -/

/-- The paths in `W` lead to different pages, all of them held; page `0` is not managed and
physical addresses fit into an entry. -/
structure Tables (c : Config) (managed : ℕ → ℕ) (W : Set (ℕ × List ℕ)) (live : ℕ → ℕ)
    (s : State) : Prop where
  closed : Closed W
  inv : Inv managed live s.pmm
  zero : managed 0 = 0
  fits : ∀ {p}, managed p ≠ 0 → p * pageSize < 2 ^ c.physBits
  apart : Apart (next c s.mem) W
  held : ∀ {x}, Reached (next c s.mem) W x → IsFrame c x ∧ live (pfn x) ≠ 0

section Invariant

variable {c : Config} {managed live live' : ℕ → ℕ} {W : Set (ℕ × List ℕ)} {s s' : State}
  {pmm' : Pmm.State} {phys t i r m j r' : ℕ} {p p' : List ℕ}

variable (hT : Tables c managed W live s)

include hT

/-- Only the tables that the paths lead to matter. -/
theorem Tables.of_follow (hinv : Inv managed live' s'.pmm)
    (hf : ∀ {r p}, (r, p) ∈ W → follow (next c s'.mem) p r = follow (next c s.mem) p r)
    (hl : ∀ {x}, Reached (next c s.mem) W x → live' (pfn x) ≠ 0) :
    Tables c managed W live' s' where
  closed := hT.closed
  inv := hinv
  zero := hT.zero
  fits := hT.fits
  apart hp hp' h h' := hT.apart hp hp' (hf hp ▸ h) (hf hp' ▸ h')
  held := by
    rintro x ⟨r, p, hp, hx⟩
    have hr : Reached (next c s.mem) W x := ⟨r, p, hp, hf hp ▸ hx⟩
    exact ⟨(hT.held hr).1, hl hr⟩

theorem Tables.not_reached
    (ht : PageTaken managed live s.pmm pmm' phys) : ¬Reached (next c s.mem) W phys :=
  fun hr => (hT.held hr).2 ht.fresh

theorem Tables.isFrame_of_taken (ht : PageTaken managed live s.pmm pmm' phys) : IsFrame c phys := by
  have h : IsFrame c (pfn phys * pageSize) :=
    ⟨Dvd.intro_left _ rfl, hT.fits (by rw [ht.usable]; exact one_ne_zero)⟩
  rwa [pfn_mul_pageSize ht.aligned] at h

theorem Tables.of_taken (ht : PageTaken managed live s.pmm pmm' phys) (hpmm : s'.pmm = pmm')
    (hm : ∀ {m}, m ≠ phys → s'.mem m = s.mem m) :
    Tables c managed W (update live (pfn phys) 1) s' := by
  refine hT.of_follow (hpmm ▸ ht.inv) (fun hp => follow_of_unreached hT.closed (fun hr => ?_) hp)
    fun {x} hr => ?_
  · exact next_congr (congrFun (hm fun h => hT.not_reached ht (h ▸ hr)) _)
  · rw [update_of_ne fun h : pfn x = pfn phys => (hT.held hr).2 (h ▸ ht.fresh)]
    exact (hT.held hr).2

omit hT

/-! ### Stores -/

theorem setWord_mem (s : State) (t i : ℕ) (e : Pte) (m j : ℕ) :
    (s.setWord t i e).mem m j = if m = t ∧ j = i then e else s.mem m j := by
  unfold State.setWord
  by_cases hm : m = t
  · subst hm
    by_cases hj : j = i <;> simp [hj]
  · simp [hm]

theorem setWord_mem_congr (h : s'.mem = s.mem) (t i : ℕ) (e : Pte) :
    (s'.setWord t i e).mem = (s.setWord t i e).mem := by
  rw [State.setWord, State.setWord, h]

theorem mem_of_unref (h : unref s phys = .ok s') : s'.mem = s.mem := by
  obtain ⟨pmm, -, h⟩ := ok_bind h
  cases h
  rfl

theorem setWord_mem_of_ne {e : Pte} (h : (m, j) ≠ (t, i)) :
    (s.setWord t i e).mem m j = s.mem m j := by
  rw [setWord_mem, if_neg fun heq => h (Prod.ext heq.1 heq.2)]

variable (hT : Tables c managed W live s)

include hT

variable (hp : (r, p) ∈ W) (ht : follow (next c s.mem) p r = some t) (hleaf : (r, p ++ [i]) ∉ W)

include hp ht hleaf

theorem Tables.follow_setWord (e : Pte)
    (hp' : (r', p') ∈ W) :
    follow (next c (s.setWord t i e).mem) p' r' = follow (next c s.mem) p' r' :=
  follow_of_leaf hT.closed hT.apart hp ht hleaf (fun hne => next_congr (setWord_mem_of_ne hne)) hp'

theorem Tables.setWord (e : Pte) :
    Tables c managed W live (s.setWord t i e) :=
  hT.of_follow hT.inv (hT.follow_setWord hp ht hleaf e) fun hr => (hT.held hr).2

theorem Tables.entryAt_setWord (e : Pte)
    (hp' : (r', p') ∈ W) :
    entryAt c (s.setWord t i e).mem r' p' j =
      if r' = r ∧ p' = p ∧ j = i then e else entryAt c s.mem r' p' j := by
  have hf := hT.follow_setWord hp ht hleaf e hp'
  split_ifs with heq
  · obtain ⟨rfl, rfl, rfl⟩ := heq
    rw [entryAt_of_follow (hf.trans ht), setWord_mem, if_pos ⟨rfl, rfl⟩]
  cases hm : follow (next c s.mem) p' r' with
  | none => rw [entryAt, entryAt, hf, hm]; rfl
  | some m =>
    rw [entryAt_of_follow (hf.trans hm), entryAt_of_follow hm, setWord_mem, if_neg]
    rintro ⟨rfl, rfl⟩
    obtain ⟨rfl, rfl⟩ := hT.apart hp' hp hm ht
    exact heq ⟨rfl, rfl, rfl⟩

omit hp ht hleaf

theorem Tables.follow_of_mem
    (hx : ¬Reached (next c s.mem) W x) {mem' : ℕ → ℕ → Pte} (hm : ∀ {m}, m ≠ x → mem' m = s.mem m)
    (hp : (r, p) ∈ W) : follow (next c mem') p r = follow (next c s.mem) p r :=
  follow_of_unreached hT.closed
    (fun {_ i} hr => next_congr (congrFun (hm fun heq => hx (heq ▸ hr)) i)) hp

end Invariant

section Growth

variable {c : Config} {managed live live' live'' : ℕ → ℕ} {W : Set (ℕ × List ℕ)} {s s' s'' : State}
  {i phys t r virt level table : ℕ} {p : List ℕ} {x : Option ℕ}

/-- Every entry on the way that is present has a property. -/
def Through (c : Config) (W : Set (ℕ × List ℕ)) (mem : ℕ → ℕ → Pte) (P : Pte → Prop) : Prop :=
  ∀ ⦃r p i t⦄, (r, p ++ [i]) ∈ W → follow (next c mem) p r = some t →
    (mem t i).has present → P (mem t i)

/-- The entry maps a page: it is present, and it is a last-level entry or has the huge bit one or
two levels above. -/
def IsLeaf (c : Config) (level : ℕ) (e : Pte) : Prop :=
  e.has present ∧
    (level + 1 = c.levels ∨ (level + 2 = c.levels ∨ level + 3 = c.levels) ∧ e.has huge)

/-- The entry that translates `virt` below the root `r`, with its level. -/
def Leaf (c : Config) (mem : ℕ → ℕ → Pte) (r virt level : ℕ) (e : Pte) : Prop :=
  ∃ t, follow (next c mem) (path c virt level) r = some t ∧ mem t (levelIndex c virt level) = e ∧
    IsLeaf c level e

theorem IsLeaf.lt {e : Pte} (h : IsLeaf c level e) : level < c.levels := by
  rcases h.2 with h | ⟨h | h, -⟩ <;> omega

/-- Missing tables have been filled in: paths keep their targets, last-level entries and pages
that are no tables keep their contents, and every page that is newly held is a table. -/
structure Grown (c : Config) (managed : ℕ → ℕ) (W : Set (ℕ × List ℕ)) (live live' : ℕ → ℕ)
    (s s' : State) : Prop where
  tables : Tables c managed W live' s'
  held : ∀ {p}, live p ≠ 0 → live' p ≠ 0
  follow_old : ∀ {r p t}, (r, p) ∈ W → follow (next c s.mem) p r = some t →
    follow (next c s'.mem) p r = some t
  entry : ∀ {r p i}, (r, p) ∈ W → (r, p ++ [i]) ∉ W →
    entryAt c s'.mem r p i = entryAt c s.mem r p i
  other : ∀ {x}, live (pfn x) ≠ 0 → ¬Reached (next c s.mem) W x →
    s'.mem x = s.mem x ∧ ¬Reached (next c s'.mem) W x
  new : ∀ p, live' p = live p ∨ (live p = 0 ∧ Reached (next c s'.mem) W (p * pageSize))
  getRef : ∀ q, live' (pfn q) = live (pfn q) → getRef s'.pmm q = getRef s.pmm q
  getRef_new : ∀ q, live' (pfn q) ≠ live (pfn q) → Pmm.getRef s'.pmm q = 1
  unrefs : s'.unrefs = s.unrefs
  through : ∀ {P : Pte → Prop}, (∀ phys, P (tableEntry c phys)) → Through c W s.mem P →
    Through c W s'.mem P
  leaf : (∀ {r p}, (r, p) ∈ W → p.length < c.levels) →
    ∀ {r virt level e}, (r, path c virt (c.levels - 1)) ∈ W →
    (Leaf c s'.mem r virt level e ↔ Leaf c s.mem r virt level e)

theorem Grown.refl (hT : Tables c managed W live s) : Grown c managed W live live s s where
  tables := hT
  held := id
  follow_old _ h := h
  entry _ _ := rfl
  other _ h := ⟨rfl, h⟩
  new _ := .inl rfl
  getRef _ _ := rfl
  getRef_new _ h := absurd rfl h
  unrefs := rfl
  through _ h := h
  leaf _ _ _ _ _ _ := Iff.rfl

theorem Grown.trans (h : Grown c managed W live live' s s')
    (h' : Grown c managed W live' live'' s' s'') : Grown c managed W live live'' s s'' where
  tables := h'.tables
  held hp := h'.held (h.held hp)
  follow_old hp hf := h'.follow_old hp (h.follow_old hp hf)
  entry hp hl := (h'.entry hp hl).trans (h.entry hp hl)
  other hl hx := by
    obtain ⟨h1, h2⟩ := h.other hl hx
    obtain ⟨h3, h4⟩ := h'.other (h.held hl) h2
    exact ⟨h3.trans h1, h4⟩
  new p := by
    rcases h.new p with h1 | ⟨h1, r, q, hq, hr⟩
    · rcases h'.new p with h2 | ⟨h2, h3⟩
      · exact .inl (h2.trans h1)
      · exact .inr ⟨h1 ▸ h2, h3⟩
    · exact .inr ⟨h1, r, q, hq, h'.follow_old hq hr⟩
  getRef q hq := by
    have hmid : live' (pfn q) = live (pfn q) := by
      rcases h.new (pfn q) with h1 | ⟨h1, hr⟩
      · exact h1
      · -- a page that becomes a table stays held
        have h2 := (h.tables.held hr).2
        rw [pfn_mul] at h2
        exact absurd (hq.trans h1) (h'.held h2)
    rw [h'.getRef q (hq.trans hmid.symm), h.getRef q hmid]
  getRef_new q hq := by
    rcases h.new (pfn q) with h1 | ⟨h0, h1⟩
    · exact h'.getRef_new q (h1 ▸ hq)
    -- a page that became a table in the first part is left alone in the second
    have hheld := (h.tables.held h1).2
    rw [pfn_mul] at hheld
    have hsame : live'' (pfn q) = live' (pfn q) :=
      (h'.new (pfn q)).resolve_right fun h2 => hheld h2.1
    rw [h'.getRef q hsame]
    exact h.getRef_new q fun heq => hheld (heq.trans h0)
  unrefs := h'.unrefs.trans h.unrefs
  through hP hi := h'.through hP (h.through hP hi)
  leaf hlen _ _ _ _ hv := (h'.leaf hlen hv).trans (h.leaf hlen hv)

theorem getLsbD_tableEntry (c : Config) (phys : ℕ) (h : i < 12) :
    (tableEntry c phys).getLsbD i = (present ||| write ||| user).getLsbD i := by
  rw [tableEntry, BitVec.getLsbD_or, getLsbD_address c phys (.inl h), Bool.false_or]

theorem has_present_tableEntry (c : Config) (phys : ℕ) : (tableEntry c phys).has present := by
  rw [Pte.has_present, getLsbD_tableEntry c phys (by decide)]
  rfl

theorem not_has_huge_tableEntry (c : Config) (phys : ℕ) : !(tableEntry c phys).has huge := by
  rw [Pte.has_huge, getLsbD_tableEntry c phys (by decide)]
  rfl

theorem frame_tableEntry (h : IsFrame c phys) : frame c (tableEntry c phys) = phys := by
  refine frame_or h fun i hi _ => ?_
  have h0 : ¬0 = i := by omega
  have h1 : ¬1 = i := by omega
  have h2 : ¬2 = i := by omega
  simp only [present, write, user, BitVec.getLsbD_or, BitVec.getLsbD_twoPow, h0, h1, h2,
    decide_false, Bool.and_false, Bool.or_false]

theorem next_tableEntry {mem : ℕ → ℕ → Pte} (hf : IsFrame c phys)
    (h : mem t i = tableEntry c phys) : next c mem t i = some phys := by
  unfold next
  rw [h, has_present_tableEntry, Bool.true_and, not_has_huge_tableEntry, if_pos rfl,
    frame_tableEntry hf]

theorem next_of_zero {mem : ℕ → ℕ → Pte} (h : mem t i = 0) : next c mem t i = none := by
  unfold next
  rw [h]
  rfl

/-- What `get_next_table` stores when it fills a missing entry. -/
theorem fill_mem (s : State) (t i phys : ℕ) (e : Pte) (m j : ℕ) :
    ((s.zeroPage phys).setWord t i e).mem m j =
      if m = t ∧ j = i then e else if m = phys then 0 else s.mem m j := by
  rw [setWord_mem]
  congr 1
  by_cases hm : m = phys <;> simp [State.zeroPage, hm]

/-- Filling the missing entry `i` of a table with a new table. -/
theorem Tables.fill {pmm' : Pmm.State} (hT : Tables c managed W live s) (hp : (r, p ++ [i]) ∈ W)
    (hat : follow (next c s.mem) p r = some t) (hnull : (s.mem t i).has present = false)
    (htaken : PageTaken managed live s.pmm pmm' phys) (hpmm : s'.pmm = pmm')
    (hmem : s'.mem = ((s.zeroPage phys).setWord t i (tableEntry c phys)).mem)
    (hlog : s'.unrefs = s.unrefs) :
    Grown c managed W live (update live (pfn phys) 1) s s' ∧
      follow (next c s'.mem) (p ++ [i]) r = some phys := by
  have hfr := hT.isFrame_of_taken htaken
  have hfresh := hT.not_reached htaken
  have ht : Reached (next c s.mem) W t := ⟨r, p, hT.closed hp, hat⟩
  have htp : t ≠ phys := fun h => hfresh (h ▸ ht)
  have hm : ∀ m j, s'.mem m j =
      if m = t ∧ j = i then tableEntry c phys else if m = phys then 0 else s.mem m j := by
    intro m j
    rw [hmem, fill_mem]
  have hkeep : ∀ {m j}, (m, j) ≠ (t, i) → m ≠ phys → s'.mem m j = s.mem m j := by
    intro m j h1 h2
    rw [hm, if_neg fun h => h1 (Prod.ext h.1 h.2), if_neg h2]
  have hzero : ∀ j, s'.mem phys j = 0 := by
    intro j
    rw [hm, if_neg fun h => htp h.1.symm, if_pos rfl]
  have hg : GrowsAt (next c s.mem) (next c s'.mem) W r p i t phys := by
    refine ⟨hp, hat, ?_, next_tableEntry hfr ?_, fun h1 h2 => next_congr (hkeep h1 h2),
      fun j => next_of_zero (hzero j), hfresh⟩
    · rw [next, hnull]
      rfl
    · rw [hm, if_pos ⟨rfl, rfl⟩]
  have hpfn : ∀ q, q ≠ pfn phys → update live (pfn phys) 1 q = live q :=
    fun q hq => update_of_ne hq _ _
  refine ⟨?_, hg.follow_new hT.closed⟩
  constructor
  case tables =>
    refine ⟨hT.closed, hpmm ▸ htaken.inv, hT.zero, hT.fits, hg.apart hT.closed hT.apart, ?_⟩
    rintro x ⟨r', p', hp', hx⟩
    rcases hg.follow_cases hT.closed hT.apart hp' hx with hold | ⟨-, -, rfl⟩
    · obtain ⟨h1, h2⟩ := hT.held ⟨r', p', hp', hold⟩
      refine ⟨h1, ?_⟩
      rw [hpfn (pfn x) fun h => h2 (h ▸ htaken.fresh)]
      exact h2
    · exact ⟨hfr, by rw [update_self]; exact one_ne_zero⟩
  case held =>
    intro q hq
    rw [hpfn q fun h => hq (h ▸ htaken.fresh)]
    exact hq
  case follow_old =>
    intro r' p' m hp' hf
    exact hg.follow_old hT.closed hp' hf
  case entry =>
    intro r' p' j hp' hleaf
    cases hf : follow (next c s.mem) p' r' with
    | some m =>
      rw [entryAt_of_follow hf, entryAt_of_follow (hg.follow_old hT.closed hp' hf)]
      refine hkeep (fun heq => ?_) fun h => hfresh (h ▸ ⟨r', p', hp', hf⟩)
      obtain ⟨rfl, rfl⟩ := Prod.mk.inj heq
      obtain ⟨rfl, rfl⟩ := hT.apart (hT.closed hp) hp' hat hf
      exact hleaf hp
    | none =>
      have hold : entryAt c s.mem r' p' j = 0 := by rw [entryAt, hf]; rfl
      rw [hold]
      cases hf' : follow (next c s'.mem) p' r' with
      | none => rw [entryAt, hf']; rfl
      | some m =>
        rcases hg.follow_cases hT.closed hT.apart hp' hf' with h | ⟨-, -, rfl⟩
        · rw [hf] at h
          cases h
        · rw [entryAt_of_follow hf', hzero]
  case other =>
    intro x hx hnr
    have hxp : x ≠ phys := fun h => hx (h ▸ htaken.fresh)
    refine ⟨funext fun j => hkeep (fun h => hnr ((Prod.mk.inj h).1 ▸ ht)) hxp, ?_⟩
    rintro ⟨r', p', hp', hr⟩
    rcases hg.follow_cases hT.closed hT.apart hp' hr with h | ⟨-, -, h⟩
    · exact hnr ⟨r', p', hp', h⟩
    · exact hxp h
  case new =>
    intro q
    by_cases hq : q = pfn phys
    · subst hq
      refine .inr ⟨htaken.fresh, r, p ++ [i], hp, ?_⟩
      rw [hfr.pfn_mul]
      exact hg.follow_new hT.closed
    · exact .inl (hpfn q hq)
  case getRef =>
    intro q hq
    rw [hpmm, htaken.getRef, if_neg]
    intro heq
    rw [heq, update_self, htaken.fresh] at hq
    exact one_ne_zero hq
  case getRef_new =>
    intro q hq
    rw [hpmm, htaken.getRef, if_pos]
    by_contra hne
    exact hq (hpfn (pfn q) hne)
  case unrefs => exact hlog
  case through =>
    intro P hP hi r' p' j m hp' hf hpres
    rcases hg.follow_cases hT.closed hT.apart (hT.closed hp') hf with h | ⟨-, -, rfl⟩
    · by_cases heq : (m, j) = (t, i)
      · obtain ⟨rfl, rfl⟩ := Prod.mk.inj heq
        rw [hm, if_pos ⟨rfl, rfl⟩]
        exact hP phys
      · have hkm := hkeep heq fun hmp => hfresh (hmp ▸ ⟨r', p', hT.closed hp', h⟩)
        rw [hkm] at hpres ⊢
        exact hi hp' h hpres
    · rw [hzero] at hpres
      cases hpres
  case leaf =>
    intro hlen r' virt level e hv
    have hpath {k : ℕ} (hk : k < c.levels) : (r', path c virt k) ∈ W :=
      path_mem_of_le hT.closed hv (by omega)
    constructor
    · rintro ⟨m, hf, rfl, hleaf⟩
      rcases hg.follow_cases hT.closed hT.apart (hpath hleaf.lt) hf with hold | ⟨-, -, rfl⟩
      · have hne : (m, levelIndex c virt level) ≠ (t, i) := by
          intro heq
          have heq' := Prod.mk.inj heq
          obtain ⟨rfl, -⟩ := Prod.mk.inj heq
          obtain ⟨-, hpp⟩ := hT.apart (hT.closed hp) (hpath hleaf.lt) hat hold
          -- a table pointer maps a page on the last level only, where there is none
          have hshort := hlen hp
          rw [length_append, hpp, path, length_map, length_range, length_singleton] at hshort
          have hbit := not_has_huge_tableEntry c phys
          have hlast := hleaf.2
          rw [hm, if_pos heq'] at hlast
          rcases hlast with h | ⟨-, h⟩
          · omega
          · rw [h] at hbit
            cases hbit
        have hkm := hkeep hne fun hmp => hfresh (hmp ▸ ⟨r', _, hpath hleaf.lt, hold⟩)
        rw [hkm] at hleaf ⊢
        exact ⟨m, hold, rfl, hleaf⟩
      · have hpres := hleaf.1
        rw [hzero] at hpres
        cases hpres
    · rintro ⟨m, hf, rfl, hleaf⟩
      have hne : (m, levelIndex c virt level) ≠ (t, i) := by
        intro heq
        obtain ⟨rfl, hi⟩ := Prod.mk.inj heq
        have hpres := hleaf.1
        rw [hi, hnull] at hpres
        cases hpres
      have hkm := hkeep hne fun hmp => hfresh (hmp ▸ ⟨r', _, hpath hleaf.lt, hf⟩)
      exact ⟨m, hg.follow_old hT.closed (hpath hleaf.lt) hf, hkm, hleaf⟩

/-- `get_next_table` with `allocate`: the path grows by one table, or nothing is found. -/
theorem Tables.getNextTable (hT : Tables c managed W live s) (hp : (r, p ++ [i]) ∈ W)
    (hat : follow (next c s.mem) p r = some t) (h : Vmm.getNextTable c s t i true = .ok (x, s')) :
    ∃ live', Grown c managed W live live' s s' ∧
      ∀ y, x = some y → follow (next c s'.mem) (p ++ [i]) r = some y := by
  unfold Vmm.getNextTable at h
  simp only [Bool.not_true, Bool.false_eq_true, if_false] at h
  cases hpres : (s.mem t i).has present with
  | true =>
    rw [hpres, if_pos rfl] at h
    cases hh : (s.mem t i).has huge with
    | true =>
      rw [hh, if_pos rfl] at h
      cases h
      exact ⟨live, .refl hT, fun y hy => by cases hy⟩
    | false =>
      rw [hh, if_neg Bool.false_ne_true] at h
      cases h
      refine ⟨live, .refl hT, fun y hy => ?_⟩
      cases hy
      refine follow_snoc_eq_some.mpr ⟨t, hat, ?_⟩
      rw [next, hpres, hh]
      rfl
  | false =>
    rw [hpres, if_neg Bool.false_ne_true] at h
    obtain ⟨⟨phys, s1⟩, halloc, h⟩ := ok_bind h
    obtain ⟨⟨phys', pmm'⟩, hpg, halloc⟩ := ok_bind halloc
    simp only at halloc h
    rcases alloc_page hpg hT.inv with ⟨rfl, hinv, hget⟩ | htaken
    · rw [if_pos rfl] at halloc
      cases halloc
      cases h
      refine ⟨live, ?_, fun y hy => by cases hy⟩
      have hT' : Tables c managed W live { s with pmm := pmm' } :=
        hT.of_follow hinv (fun _ => rfl) fun hr => (hT.held hr).2
      exact ⟨hT', id, fun _ hf => hf, fun _ _ => rfl, fun _ hx => ⟨rfl, hx⟩, fun _ => .inl rfl,
        fun q _ => hget q, fun q hq => absurd rfl hq, rfl, fun _ h => h,
        fun _ _ _ _ _ _ => Iff.rfl⟩
    · rw [if_neg htaken.ne_zero] at halloc
      cases halloc
      rw [if_neg htaken.ne_zero] at h
      cases h
      refine ⟨_, (hT.fill hp hat hpres htaken (by rfl) (by rfl) (by rfl)).1, fun y hy => ?_⟩
      cases hy
      rw [frame_ofNat (hT.isFrame_of_taken htaken)]
      exact (hT.fill hp hat hpres htaken (by rfl) (by rfl) (by rfl)).2

theorem Tables.walkFrom (hT : Tables c managed W live s) (hp : (r, path c virt (level + n)) ∈ W)
    (hat : follow (next c s.mem) (path c virt level) r = some table)
    (h : Vmm.walkFrom c virt true n level table s = .ok (x, s')) :
    ∃ live', Grown c managed W live live' s s' ∧
      ∀ y, x = some y → follow (next c s'.mem) (path c virt (level + n)) r = some y := by
  induction n generalizing level table s live with
  | zero =>
    cases h
    refine ⟨live, .refl hT, fun y hy => ?_⟩
    cases hy
    exact hat
  | succ n ih =>
    obtain ⟨⟨nxt, s1⟩, hnext, h⟩ := ok_bind h
    have hp' : (r, path c virt (level + 1 + n)) ∈ W := by rwa [add_assoc, add_comm 1 n]
    have hmem : (r, path c virt (level + 1)) ∈ W := by
      exact path_mem_of_le hT.closed hp' (by omega)
    rw [path_succ] at hmem
    obtain ⟨live1, hg, hfound⟩ := hT.getNextTable hmem hat hnext
    obtain _ | nxt := nxt
    · cases h
      exact ⟨live1, hg, fun y hy => by cases hy⟩
    have hat' := hfound nxt rfl
    rw [← path_succ] at hat'
    obtain ⟨live2, hg2, hfound2⟩ := ih hg.tables hp' hat' h
    refine ⟨live2, hg.trans hg2, fun y hy => ?_⟩
    rw [← hfound2 y hy]
    congr 2
    omega

/-! ### Mapping one page -/

/-- Missing tables have been filled in and the last-level entry `i` at the end of `p` is now `e`;
no other last-level entry has changed. -/
structure Mapped (c : Config) (managed : ℕ → ℕ) (W : Set (ℕ × List ℕ)) (live live' : ℕ → ℕ)
    (s s' : State) (r : ℕ) (p : List ℕ) (i : ℕ) (e : Pte) : Prop where
  tables : Tables c managed W live' s'
  held : ∀ {p}, live p ≠ 0 → live' p ≠ 0
  found : ∃ t, follow (next c s'.mem) p r = some t
  follow_old : ∀ {r' p' t}, (r', p') ∈ W → follow (next c s.mem) p' r' = some t →
    follow (next c s'.mem) p' r' = some t
  entry : ∀ {r' p' j}, (r', p') ∈ W → (r', p' ++ [j]) ∉ W → entryAt c s'.mem r' p' j =
    if r' = r ∧ p' = p ∧ j = i then e else entryAt c s.mem r' p' j
  other : ∀ {x}, live (pfn x) ≠ 0 → ¬Reached (next c s.mem) W x →
    s'.mem x = s.mem x ∧ ¬Reached (next c s'.mem) W x
  new : ∀ p, live' p = live p ∨ (live p = 0 ∧ Reached (next c s'.mem) W (p * pageSize))
  getRef : ∀ q, live' (pfn q) = live (pfn q) → getRef s'.pmm q = getRef s.pmm q
  getRef_new : ∀ q, live' (pfn q) ≠ live (pfn q) → Pmm.getRef s'.pmm q = 1
  unrefs : s'.unrefs = s.unrefs
  through : ∀ {P : Pte → Prop}, (∀ phys, P (tableEntry c phys)) → Through c W s.mem P →
    Through c W s'.mem P

theorem Grown.setWord (hg : Grown c managed W live live' s s') (hp : (r, p) ∈ W)
    (hleaf : (r, p ++ [i]) ∉ W) (ht : follow (next c s'.mem) p r = some t) (e : Pte) :
    Mapped c managed W live live' s (s'.setWord t i e) r p i e := by
  have hT := hg.tables
  have hf {r' : ℕ} {p' : List ℕ} (hp' : (r', p') ∈ W) := hT.follow_setWord hp ht hleaf e hp'
  have hreach {x : ℕ} (hx : Reached (next c (s'.setWord t i e).mem) W x) :
      Reached (next c s'.mem) W x := by
    obtain ⟨r', p', hp', hx⟩ := hx
    exact ⟨r', p', hp', hf hp' ▸ hx⟩
  constructor
  case tables => exact hT.setWord hp ht hleaf e
  case held => exact hg.held
  case found => exact ⟨t, (hf hp).trans ht⟩
  case follow_old =>
    intro r' p' m hp' hm
    exact (hf hp').trans (hg.follow_old hp' hm)
  case entry =>
    intro r' p' j hp' hl
    rw [hT.entryAt_setWord hp ht hleaf e hp', hg.entry hp' hl]
  case other =>
    intro x hx hnr
    obtain ⟨h1, h2⟩ := hg.other hx hnr
    refine ⟨h1 ▸ funext fun j => setWord_mem_of_ne fun heq => ?_, fun hr => h2 (hreach hr)⟩
    exact h2 ((Prod.mk.inj heq).1 ▸ ⟨r, p, hp, ht⟩)
  case new =>
    intro q
    refine (hg.new q).imp_right fun ⟨h1, r', p', hp', hr⟩ => ⟨h1, r', p', hp', ?_⟩
    exact (hf hp').trans hr
  case getRef => exact hg.getRef
  case getRef_new => exact hg.getRef_new
  case unrefs => exact hg.unrefs
  case through =>
    intro P hP hi r' p' j m hp' hm hpres
    rw [hf (hT.closed hp')] at hm
    have hne : (m, j) ≠ (t, i) := by
      intro heq
      obtain ⟨rfl, rfl⟩ := Prod.mk.inj heq
      obtain ⟨rfl, rfl⟩ := hT.apart hp (hT.closed hp') ht hm
      exact hleaf hp'
    rw [setWord_mem_of_ne hne] at hpres ⊢
    exact hg.through hP hi hp' hm hpres

theorem Tables.walkToLevel (hT : Tables c managed W live s) (hr : IsFrame c r)
    (hp : (r, path c virt n) ∈ W) (h : Vmm.walkToLevel c s r virt n true = .ok (x, s')) :
    ∃ live', Grown c managed W live live' s s' ∧
      ∀ y, x = some y → follow (next c s'.mem) (path c virt n) r = some y := by
  rw [Vmm.walkToLevel, frame_ofNat hr] at h
  have hp' : (r, path c virt (0 + n)) ∈ W := by rwa [zero_add]
  obtain ⟨live', hg, hfound⟩ := hT.walkFrom hp' rfl h
  rw [zero_add] at hfound
  exact ⟨live', hg, hfound⟩

variable (hT : Tables c managed W live s) (hr : IsFrame c r)
  (hp : (r, path c virt (c.levels - 1)) ∈ W)
  (hleaf : (r, path c virt (c.levels - 1) ++ [levelIndex c virt (c.levels - 1)]) ∉ W)

include hT hr hp hleaf

theorem Tables.mapPage {flags : Pte} (h : Vmm.mapPage c s virt phys flags .size4K r = .ok s') :
    ∃ live', Mapped c managed W live live' s s' r (path c virt (c.levels - 1))
      (levelIndex c virt (c.levels - 1))
      ((BitVec.ofNat 64 phys &&& c.physAddrMask) ||| makeLeafFlags c flags .size4K) := by
  obtain ⟨⟨table, s1⟩, hwalk, h⟩ := ok_bind h
  obtain ⟨live', hg, hfound⟩ := hT.walkToLevel hr hp hwalk
  cases table with
  | none => cases h
  | some table =>
    cases h
    exact ⟨live', hg.setWord hp hleaf (hfound table rfl) _⟩

theorem Tables.mapSoftwarePage {flags state : Pte}
    (h : Vmm.mapSoftwarePage c s virt flags state r = .ok s') :
    ∃ live', Mapped c managed W live live' s s' r (path c virt (c.levels - 1))
      (levelIndex c virt (c.levels - 1)) (makeSoftwarePte flags state) := by
  unfold Vmm.mapSoftwarePage at h
  split at h
  · cases h
  obtain ⟨⟨table, s1⟩, hwalk, h⟩ := ok_bind h
  obtain ⟨live', hg, hfound⟩ := hT.walkToLevel hr hp hwalk
  cases table with
  | none => cases h
  | some table =>
    cases h
    exact ⟨live', hg.setWord hp hleaf (hfound table rfl) _⟩

end Growth

end RHKernel.Vmm
