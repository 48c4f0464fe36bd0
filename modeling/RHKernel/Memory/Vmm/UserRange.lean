import RHKernel.Memory.Vmm.MapRange

/-!
# Checking user buffers

Before the kernel reads or writes a user buffer it asks `user_range_mapped`. The answer is meant
to be sound: each byte can be reached at once, or the access faults and `handle_fault` makes the
page present. The check and the fault handler classify the same entries with different code, and
they differ in one point: below a stack the check does not look at the guard mark of a missing
page, the handler does.

`userRangeMapped_sound_iff` states soundness for a range that was accepted: it holds exactly when
no page of the range has a missing entry with the guard mark. That the allocator has memory is an
assumption of the kernel and of the theorem.
-/

namespace RHKernel.Vmm

open Bits Function Option PageFlags Pmm Radix Step Vma Pte

/-- Every table on the way to a level may be used by the access. -/
def Uppers (c : Config) (mem : ℕ → ℕ → Pte) (r virt : ℕ) (isWrite : Bool) (level : ℕ) : Prop :=
  ∀ k < level, ∀ t, follow (next c mem) (path c virt k) r = some t →
    isWrite → (mem t (levelIndex c virt k)).has write

/-- How the check accepts a page: by an entry that maps it, by a demand-zero mark, or because a
missing entry lies in the stack area. -/
inductive Accepted (c : Config) (mem : ℕ → ℕ → Pte) (r virt : ℕ) (isWrite stack : Bool) : Prop
  | leaf {level : ℕ} {e : Pte} (hleaf : Leaf c mem r virt level e) (huser : e.has user)
      (hwrite : isWrite → e.has write ∨ (level + 1 = c.levels ∧ e.has cow))
      (hup : Uppers c mem r virt isWrite level)
  | demandZero {t : ℕ}
      (hat : follow (next c mem) (path c virt (c.levels - 1)) r = some t)
      (habsent : (mem t (levelIndex c virt (c.levels - 1))).has present = false)
      (hguard : (mem t (levelIndex c virt (c.levels - 1))).has guard = false)
      (hmark : (mem t (levelIndex c virt (c.levels - 1))).has demandZero)
      (hwrite : isWrite → (mem t (levelIndex c virt (c.levels - 1))).has write)
      (hup : Uppers c mem r virt isWrite (c.levels - 1))
  | stack {level t : ℕ} (hlt : level < c.levels)
      (hat : follow (next c mem) (path c virt level) r = some t)
      (habsent : (mem t (levelIndex c virt level)).has present = false) (hstack : stack = true)
      (hup : Uppers c mem r virt isWrite level)

section Check

variable {c : Config} {s : State} {r virt level t n table : ℕ} {isWrite stack : Bool}

theorem Uppers.snoc (h : Uppers c s.mem r virt isWrite level)
    (hat : follow (next c s.mem) (path c virt level) r = some t)
    (hw : isWrite → (s.mem t (levelIndex c virt level)).has write) :
    Uppers c s.mem r virt isWrite (level + 1) := by
  intro k hk t' hf hisw
  rcases Nat.lt_succ_iff_lt_or_eq.mp hk with hlt | rfl
  · exact h k hlt t' hf hisw
  · rw [hat] at hf
    obtain rfl := some.inj hf
    exact hw hisw

theorem accepted_of_accessibleFrom (hn : level + n = c.levels)
    (hat : follow (next c s.mem) (path c virt level) r = some table)
    (hup : Uppers c s.mem r virt isWrite level)
    (h : accessibleFrom c s virt isWrite stack n level table = true) :
    Accepted c s.mem r virt isWrite stack := by
  induction n generalizing level table with
  | zero => cases h
  | succ n ih =>
    rw [accessibleFrom] at h
    cases hp : (s.mem table (levelIndex c virt level)).has present with
    | false =>
      rw [hp, Bool.not_false, if_pos rfl] at h
      split_ifs at h with hdz
      · obtain ⟨hlast, -, hguard, hmark⟩ := hdz
        obtain rfl : level = c.levels - 1 := by omega
        refine .demandZero hat hp (by simpa using hguard) hmark (fun hw => ?_) hup
        simpa [hw] using h
      · exact .stack (by omega) hat hp h hup
    | true =>
      rw [hp, Bool.not_true, if_neg Bool.false_ne_true] at h
      split at h
      · cases h
      rename_i huser
      rw [Bool.not_eq_true, Bool.not_eq_false'] at huser
      split at h
      · cases h
      rename_i hwrite
      have hw : isWrite → (s.mem table (levelIndex c virt level)).has write ∨
          (level + 1 = c.levels ∧ (s.mem table (levelIndex c virt level)).has cow) := by
        intro hisw
        simpa [hisw, or_iff_not_imp_left] using hwrite
      split at h
      · rename_i hleaf
        refine .leaf ⟨table, hat, rfl, hp, ?_⟩ huser hw hup
        simp only [isHuge1g, isHuge2m, Bool.or_eq_true, Bool.and_eq_true, decide_eq_true_eq]
          at hleaf
        rcases hleaf with (⟨h1, h2⟩ | ⟨h1, h2⟩) | h1
        · exact .inr ⟨.inr h1, h2⟩
        · exact .inr ⟨.inl h1, h2⟩
        · exact .inl h1
      rename_i hnot
      split at h
      · cases h
      rename_i hhuge
      have hlast : level + 1 ≠ c.levels := by
        intro heq
        simp [heq] at hnot
      refine ih (by omega) ?_ (hup.snoc hat fun hisw => ?_) h
      · rw [path_succ, follow_snoc, hat, bind_some, next, hp, Bool.eq_false_iff.mpr hhuge]
        rfl
      · exact (hw hisw).resolve_right fun hc => hlast hc.1

end Check

/-! ### Accesses of the kernel -/

/-- What an access of the kernel asks of an entry. -/
def Allows (isWrite : Bool) (e : Pte) : Prop := isWrite → e.has write

/-- The processor lets an access of the kernel through: there is an entry that maps the page, and
for a write all entries on the way are writable. -/
def KernelAccess (c : Config) (mem : ℕ → ℕ → Pte) (r virt : ℕ) (isWrite : Bool) : Prop :=
  (∃ level e, Leaf c mem r virt level e ∧ Allows isWrite e) ∧
    Through c (pathsTo c r virt) mem (Allows isWrite)

/-- The error code of a fault on an access of the kernel. -/
structure AccessError (c : Config) (mem : ℕ → ℕ → Pte) (r virt : ℕ) (isWrite : Bool)
    (err : BitVec 64) : Prop where
  present : has err pfPresent = true ↔ ∃ level e, Leaf c mem r virt level e
  write : has err pfWrite = isWrite
  user : has err pfUser = false
  instr : has err pfInstr = false

/-- The access goes through a user page at once, or it faults and `handle_fault` resolves it. -/
def AccessSound (c : Config) (s : State) (t : Task) (addr : ℕ) (isWrite : Bool) : Prop :=
  (KernelAccess c s.mem t.cr3 addr isWrite ∧
    ∃ level e, Leaf c s.mem t.cr3 addr level e ∧ e.has user) ∨
  ∀ err, AccessError c s.mem t.cr3 addr isWrite err →
    ∃ s', handleFault c s t addr err = .ok (true, s') ∧
      KernelAccess c s'.mem t.cr3 addr isWrite

/-- The next `n` calls of `pmm::alloc` for a page succeed. -/
def Supplies : ℕ → Pmm.State → Prop
  | 0, _ => True
  | n + 1, s => ∃ phys s', alloc s pageSize = .ok (phys, s') ∧ phys ≠ 0 ∧ Supplies n s'

instance decidableSupplies : ∀ n s, Decidable (Supplies n s)
  | 0, _ => isTrue trivial
  | n + 1, s =>
    match h : alloc s pageSize with
    | .error _ => isFalse fun ⟨_, _, h', _⟩ => by rw [h] at h'; cases h'
    | .ok (phys, s') =>
      have := decidableSupplies n s'
      decidable_of_iff (phys ≠ 0 ∧ Supplies n s')
        ⟨fun ⟨h1, h2⟩ => ⟨phys, s', h, h1, h2⟩, fun ⟨_, _, h', h1, h2⟩ => by
          rw [h] at h'
          cases h'
          exact ⟨h1, h2⟩⟩

theorem Supplies.mono {n : ℕ} {s : Pmm.State} (h : Supplies (n + 1) s) : Supplies n s := by
  induction n generalizing s with
  | zero => trivial
  | succ n ih =>
    obtain ⟨phys, s', halloc, hne, h⟩ := h
    exact ⟨phys, s', halloc, hne, ih h⟩

section Access

variable {c : Config} {managed live live' : ℕ → ℕ} {s s' : State}
  {r virt level r' i t table index n : ℕ}
  {isWrite : Bool} {e : Pte} {W : Set (ℕ × List ℕ)}

/-- A path below the root of an address has an end on the way to that address. -/
theorem snoc_mem_pathsTo {p : List ℕ} (h : (r', p ++ [i]) ∈ pathsTo c r virt) :
    ∃ k < c.levels - 1, r' = r ∧ p = path c virt k ∧ i = levelIndex c virt k := by
  obtain ⟨k, hk, heq⟩ := h
  obtain ⟨rfl, hp⟩ := Prod.mk.inj heq
  cases k with
  | zero => simp at hp
  | succ k =>
    rw [path_succ] at hp
    obtain ⟨rfl, hi⟩ := List.append_inj' hp rfl
    exact ⟨k, hk, rfl, rfl, (List.cons.inj hi).1⟩

/-- The tables on the way to a missing entry. -/
theorem through_of_absent (hat : follow (next c s.mem) (path c virt level) r = some t)
    (habsent : (s.mem t (levelIndex c virt level)).has present = false)
    (hup : Uppers c s.mem r virt isWrite level) :
    Through c (pathsTo c r virt) s.mem fun e => e.has huge = false ∧ Allows isWrite e := by
  intro r' p i m hp hf hpres
  obtain ⟨k, hk, rfl, rfl, rfl⟩ := snoc_mem_pathsTo hp
  rcases lt_trichotomy k level with hlt | rfl | hlt
  · refine ⟨?_, hup k hlt m hf⟩
    obtain ⟨d, rfl⟩ := Nat.exists_eq_add_of_le hlt
    rw [path_add, path_succ, follow_append, follow_snoc, hf, bind_some, next, hpres,
      Bool.true_and] at hat
    by_contra hhuge
    rw [Bool.not_eq_false] at hhuge
    rw [hhuge] at hat
    cases hat
  · rw [hat] at hf
    obtain rfl := some.inj hf
    rw [habsent] at hpres
    cases hpres
  · obtain ⟨d, rfl⟩ := Nat.exists_eq_add_of_le hlt
    rw [path_add, path_succ, follow_append, follow_snoc, hat, bind_some, next, habsent] at hf
    cases hf

theorem through_of_leaf (h : Leaf c s.mem r virt level e)
    (hw : level + 1 < c.levels → Allows isWrite e) (hup : Uppers c s.mem r virt isWrite level) :
    Through c (pathsTo c r virt) s.mem (Allows isWrite) := by
  obtain ⟨t, hat, rfl, hleaf⟩ := h
  intro r' p i m hp hf hpres
  obtain ⟨k, hk, rfl, rfl, rfl⟩ := snoc_mem_pathsTo hp
  rcases lt_trichotomy k level with hlt | rfl | hlt
  · exact hup k hlt m hf
  · rw [hat] at hf
    obtain rfl := some.inj hf
    exact hw (by omega)
  · obtain ⟨d, rfl⟩ := Nat.exists_eq_add_of_le hlt
    rw [path_add, path_succ, follow_append, follow_snoc, hat, bind_some,
      next_of_isLeaf hleaf (by omega)] at hf
    cases hf

theorem allows_tableEntry (c : Config) (isWrite : Bool) (phys : ℕ) :
    Allows isWrite (tableEntry c phys) := by
  intro _
  rw [has_write, getLsbD_tableEntry c phys (by decide)]
  rfl

/-- A last-level entry that was just stored. -/
theorem Mapped.kernelAccess
    (h : Mapped c managed (pathsTo c r virt) live live' s s' r (path c virt (c.levels - 1))
      (levelIndex c virt (c.levels - 1)) e) (hpres : e.has present) (hw : Allows isWrite e)
    (ht : Through c (pathsTo c r virt) s.mem (Allows isWrite)) :
    KernelAccess c s'.mem r virt isWrite := by
  obtain ⟨t, hat⟩ := h.found
  have hentry := h.entry (mem_pathsTo c r virt le_rfl) (not_mem_pathsTo c r virt _)
    (j := levelIndex c virt (c.levels - 1))
  rw [entryAt_of_follow hat, if_pos ⟨rfl, rfl, rfl⟩] at hentry
  have hpos := c.levels_pos
  exact ⟨⟨c.levels - 1, e, ⟨t, hat, hentry, hpres, .inl (by omega)⟩, hw⟩,
    h.through (allows_tableEntry c isWrite) ht⟩

/-- The last-level entry that `get_pte_ptr` finds, after a store. -/
theorem Tables.kernelAccess_setWord (hT : Tables c managed (pathsTo c r virt) live s)
    (hptr : getPtePtr c s virt r = some (table, index)) (hpres : e.has present)
    (hw : Allows isWrite e) (ht : Through c (pathsTo c r virt) s.mem (Allows isWrite)) :
    KernelAccess c (s.setWord table index e).mem r virt isWrite := by
  obtain ⟨hat, rfl⟩ := follow_of_getPtePtr hT.isFrame_root hptr
  have hmapped := (Grown.refl hT).setWord (i := levelIndex c virt (c.levels - 1))
    (mem_pathsTo c r virt le_rfl) (not_mem_pathsTo c r virt _) hat e
  exact hmapped.kernelAccess hpres hw ht

/-- A walk with `allocate` reaches its end when no large page is in the way and the allocator
has memory. -/
theorem exists_walkFrom (hT : Tables c managed W live s) (hp : (r, path c virt (level + n)) ∈ W)
    (hat : follow (next c s.mem) (path c virt level) r = some table)
    (hsmall : Through c W s.mem fun e => e.has huge = false) (hsup : Supplies n s.pmm) :
    ∃ y s', walkFrom c virt true n level table s = .ok (some y, s') := by
  induction n generalizing level table s live with
  | zero => exact ⟨table, s, rfl⟩
  | succ n ih =>
    have hp' : (r, path c virt (level + 1 + n)) ∈ W := by rwa [add_assoc, add_comm 1 n]
    have hmem : (r, path c virt (level + 1)) ∈ W := path_mem_of_le hT.closed hp' (by omega)
    rw [path_succ] at hmem
    obtain ⟨y, s1, hnext, hsup1⟩ : ∃ y s1, getNextTable c s table (levelIndex c virt level) true =
        .ok (some y, s1) ∧ Supplies n s1.pmm := by
      unfold getNextTable
      cases hpres : (s.mem table (levelIndex c virt level)).has present with
      | true =>
        simp only [hpres, if_true, hsmall hmem hat hpres, Bool.false_eq_true, if_false]
        exact ⟨_, s, rfl, hsup.mono⟩
      | false =>
        obtain ⟨phys, pmm', halloc, hne, hsup⟩ := hsup
        simp only [hpres, Bool.not_true, Bool.false_eq_true, if_false, allocPageTable, halloc,
          bind_of_ok, hne]
        exact ⟨_, _, rfl, hsup⟩
    obtain ⟨live1, hg, hfound⟩ := hT.getNextTable hmem hat hnext
    have hat1 := hfound y rfl
    rw [← path_succ] at hat1
    have hsmall1 : Through c W s1.mem fun e => e.has huge = false :=
      hg.through (fun phys => by simpa using not_has_huge_tableEntry c phys) hsmall
    obtain ⟨y', s', hwalk⟩ := ih hg.tables hp' hat1 hsmall1 hsup1
    exact ⟨y', s', by rw [walkFrom, hnext]; exact hwalk⟩

/-- So does `map_page` for a page of the smallest size. -/
theorem exists_mapPage (phys : ℕ) (flags : Pte) (hT : Tables c managed W live s) (hr : IsFrame c r)
    (hp : (r, path c virt (c.levels - 1)) ∈ W)
    (hsmall : Through c W s.mem fun e => e.has huge = false)
    (hsup : Supplies (c.levels - 1) s.pmm) :
    ∃ s', mapPage c s virt phys flags .size4K r = .ok s' := by
  have hp' : (r, path c virt (0 + (c.levels - 1))) ∈ W := by rwa [zero_add]
  obtain ⟨y, s1, hwalk⟩ := exists_walkFrom hT hp' rfl hsmall hsup
  refine ⟨s1.setWord y (levelIndex c virt (c.levels - 1)) (leafEntry c phys flags .size4K), ?_⟩
  rw [mapPage, leafLevel, walkToLevel, frame_ofNat hr, hwalk]
  rfl

end Access

section Resolve

variable {c : Config} {managed live : ℕ → ℕ} {s s' : State} {t : Task}
  {addr n table index phys pml4 page i virt size a : ℕ}
  {isWrite : Bool} {err : BitVec 64}

theorem Supplies.not_outOfMemory (h : Supplies (n + 1) s.pmm) : ¬OutOfMemory s := by
  obtain ⟨phys, pmm', halloc, hne, -⟩ := h
  exact Vmm.not_outOfMemory halloc hne

theorem Supplies.one {pmm : Pmm.State} (h : Supplies (n + 1) pmm) : Supplies 1 pmm := by
  obtain ⟨phys, pmm', halloc, hne, -⟩ := h
  exact ⟨phys, pmm', halloc, hne, trivial⟩

theorem exists_handleDemandZeroFault (c : Config) (t : Task) (addr : ℕ) (err : BitVec 64)
    (hsup : Supplies 1 s.pmm) :
    ∃ done s', handleDemandZeroFault c s t addr err = .ok (done, s') := by
  obtain ⟨phys, pmm', halloc, hne, -⟩ := hsup
  unfold handleDemandZeroFault
  split
  · exact ⟨_, _, rfl⟩
  split
  · exact ⟨_, _, rfl⟩
  · split
    · exact ⟨_, _, rfl⟩
    · simp [halloc, bind_of_ok, hne]

theorem resolve_demandZero (hT : Tables c managed (pathsTo c t.cr3 addr) live s)
    (hsup : Supplies 1 s.pmm) (herr : AccessError c s.mem t.cr3 addr isWrite err)
    (hthrough : Through c (pathsTo c t.cr3 addr) s.mem (Allows isWrite))
    (htakes : TakesDemandZero c s t addr err) :
    ∃ s', handleFault c s t addr err = .ok (true, s') ∧
      KernelAccess c s'.mem t.cr3 addr isWrite := by
  obtain ⟨done, s', h⟩ := exists_handleDemandZeroFault c t addr err hsup
  rcases handleDemandZeroFault_cases hT.inv hT.zero h with ⟨-, -, hno⟩ |
    ⟨rfl, -, -, table, index, phys, pmm', hptr, hdz, htaken, hs'⟩
  · exact absurd ⟨htakes, hsup.not_outOfMemory⟩ hno
  refine ⟨s', by rw [handleFault, h]; rfl, ?_⟩
  have hwalk := hT.zeroPage htaken
  rw [hs', hwalk.row hptr]
  refine hwalk.tables.kernelAccess_setWord (hwalk.ptr.trans hptr)
    (has_present_demandZeroEntry c phys _) (fun hw => ?_) (hwalk.through hthrough)
  simp only [demandZeroAllows, herr.write, hw, Bool.and_eq_true, Bool.not_true,
    Bool.false_or] at hdz
  rw [has_write_demandZeroEntry]
  exact hdz.1.2

theorem resolve_stack (hT : Tables c managed (pathsTo c t.cr3 addr) live s)
    (hsup : Supplies c.levels s.pmm)
    (hthrough : Through c (pathsTo c t.cr3 addr) s.mem fun e =>
      e.has huge = false ∧ Allows isWrite e)
    (hno : ¬TakesDemandZero c s t addr err) (htakes : TakesStack c s t addr err) :
    ∃ s', handleFault c s t addr err = .ok (true, s') ∧
      KernelAccess c s'.mem t.cr3 addr isWrite := by
  obtain ⟨n, hn⟩ : ∃ n, c.levels = n + 1 := ⟨c.levels - 1, by have := c.levels_pos; omega⟩
  rw [hn] at hsup
  obtain ⟨done, s1, h1⟩ := exists_handleDemandZeroFault c t addr err hsup.one
  rcases handleDemandZeroFault_cases hT.inv hT.zero h1 with ⟨rfl, rfl, -⟩ | ⟨-, h, -⟩
  · obtain ⟨phys, pmm', halloc, hne, hsup⟩ := hsup
    have htaken := (alloc_page halloc hT.inv).resolve_left fun h => hne h.1
    have hwalk := hT.zeroPage htaken
    have hthrough1 := hwalk.through hthrough
    have hpath := mem_pathsTo c t.cr3 addr (le_refl (c.levels - 1))
    rw [← path_alignDown] at hpath
    obtain ⟨s', hmap⟩ := exists_mapPage phys (write ||| user ||| nx) hwalk.tables hT.isFrame_root
      hpath (fun _ _ _ _ hp hf hpres => (hthrough1 hp hf hpres).1)
      (by rw [hn, Nat.add_sub_cancel]; exact hsup)
    refine ⟨s', ?_, ?_⟩
    · obtain ⟨hp, hi, hvma, hclear⟩ := htakes
      have hany : ((getPtePtr c s1 (alignDown addr pageSize) t.cr3).any fun p =>
          has (s1.mem p.1 p.2) present || has (s1.mem p.1 p.2) guard) = false := by
        rw [any_eq_false]
        intro x hx
        rw [(hclear x hx).1, (hclear x hx).2]
        decide
      rw [handleFault, h1, bind_of_ok]
      simp only [Bool.false_eq_true, if_false, handleStackFault, hp, hi, hvma, Bool.not_true, hany,
        halloc, bind_of_ok, hne, hmap, if_true]
    · obtain ⟨live', hmapped⟩ := hwalk.tables.mapPage hT.isFrame_root hpath
        (by rw [path_alignDown]; exact not_mem_pathsTo c t.cr3 addr _) hmap
      rw [path_alignDown, levelIndex_alignDown] at hmapped
      have hperm := permits_stackEntry c phys (show has pfWrite pfInstr = false by decide)
      exact hmapped.kernelAccess hperm.1 (fun _ => hperm.2.2.1 (by decide))
        fun _ _ _ _ hp hf hpres => (hthrough1 hp hf hpres).2
  · exact absurd h hno

theorem exists_unref (hs : Pmm.Sound s.pmm) (ha : pageSize ∣ phys) :
    ∃ s', unref s phys = .ok s' := by
  obtain ⟨pmm, h⟩ := exists_unrefPage hs ha
  exact ⟨⟨pmm, s.mem, s.pageTableBytes, (s.pmm, phys) :: s.unrefs⟩, by rw [unref, h]; rfl⟩

theorem exists_resolveWrite (hi : Inv managed live s.pmm) (hsup : Supplies 1 s.pmm)
    (table index : ℕ) : ∃ s', resolveWrite c s table index = .ok (true, s') := by
  obtain ⟨phys, pmm', halloc, hne, -⟩ := hsup
  have htaken := (alloc_page halloc hi).resolve_left fun h => hne h.1
  obtain ⟨s1, hunref⟩ := exists_unref
    (s := (s.withPmm pmm').copyPage phys (frame c (s.mem table index))) htaken.inv.sound
    (isFrame_frame c (s.mem table index)).1
  unfold resolveWrite
  dsimp only
  split
  · exact ⟨_, rfl⟩
  · rw [halloc, bind_of_ok]
    simp [hne, hunref, bind_of_ok]

theorem resolve_write (hT : Tables c managed (pathsTo c t.cr3 addr) live s)
    (hsup : Supplies 1 s.pmm) (hp : has err pfPresent = true) (hw : has err pfWrite = true)
    (hptr : getPtePtr c s addr t.cr3 = some (table, index))
    (hpres : (s.mem table index).has present) (hcow : (s.mem table index).has cow)
    (hthrough : Through c (pathsTo c t.cr3 addr) s.mem (Allows isWrite)) :
    ∃ s', handleFault c s t addr err = .ok (true, s') ∧
      KernelAccess c s'.mem t.cr3 addr isWrite := by
  obtain ⟨s', h⟩ := exists_resolveWrite (c := c) hT.inv hsup table index
  refine ⟨s', ?_, ?_⟩
  · have h1 : handleDemandZeroFault c s t addr err = .ok (false, s) := by
      rw [handleDemandZeroFault, if_pos hp]
    have h2 : handleStackFault c s t addr err = .ok (false, s) := by
      rw [handleStackFault, if_pos hp]
    have hallow : cowAllows t addr (s.mem table index) = true := by
      rw [cowAllows, hcow, Bool.true_or]
    simp only [handleFault, h1, bind_of_ok, Bool.false_eq_true, if_false, h2, handleWriteFault, hw,
      hptr, Bool.not_true, hallow, h]
  · obtain ⟨s1, e, hwalk, he, hmem⟩ := resolveWrite_store hT hptr h
    rw [hmem]
    rw [has_present, ← he.present_eq, ← has_present] at hpres
    exact hwalk.tables.kernelAccess_setWord (hwalk.ptr.trans hptr) hpres
      (fun _ => e.has_write.trans he.write_eq) (hwalk.through hthrough)

/-- A missing last-level entry with the guard mark: the fault is not resolved, whatever
`handle_fault` says. -/
theorem not_resolved_of_guard (hT : Tables c managed (pathsTo c t.cr3 addr) live s)
    (hptr : getPtePtr c s addr t.cr3 = some (table, index))
    (habsent : (s.mem table index).has present = false) (hguard : (s.mem table index).has guard)
    (h : handleFault c s t addr err = .ok (true, s')) :
    ¬KernelAccess c s'.mem t.cr3 addr isWrite := by
  have hroot := hT.isFrame_root
  obtain ⟨⟨done1, s1⟩, h1, hrest⟩ := ok_bind h
  rcases handleDemandZeroFault_cases hT.inv hT.zero h1 with ⟨rfl, rfl, -⟩ | ⟨-, ⟨-, x, hx, hdz⟩, -⟩
  · obtain ⟨⟨done2, s2⟩, h2, hlast⟩ := ok_bind hrest
    rcases handleStackFault_cases hT.inv hT.zero h2 with ⟨rfl, rfl, -⟩ | ⟨-, ⟨-, -, -, hclear⟩, -⟩
    · rcases handleWriteFault_cases hT.inv hT.zero hlast with ⟨hno, -⟩ |
        ⟨-, -, table', index', hptr', hres⟩
      · cases hno
      rw [hptr] at hptr'
      cases hptr'
      obtain ⟨s3, e, hwalk, he, hmem⟩ := resolveWrite_store hT hptr hres
      obtain ⟨hptr4, hentry⟩ := hwalk.tables.getPtePtr_setWord (hwalk.ptr.trans hptr) e
      obtain ⟨hat, rfl⟩ := follow_of_getPtePtr hroot hptr4
      have hpos := c.levels_pos
      rintro ⟨⟨level, e', hleaf, -⟩, -⟩
      rw [hmem] at hleaf
      refine no_leaf_of_end (by omega) hat (fun hl => ?_) (fun hl => ?_) level e' hleaf
      · have hbit := hl.1
        rw [hentry, has_present, he.present_eq, ← has_present, habsent] at hbit
        cases hbit
      · omega
    · have hbit := (hclear _ ((getPtePtr_alignDown hroot).trans hptr)).2
      rw [hguard] at hbit
      cases hbit
  · rw [hptr] at hx
    cases hx
    simp only [demandZeroAllows, hguard, Bool.not_true, Bool.and_false, Bool.false_and,
      Bool.false_eq_true] at hdz

/-! ### Soundness of the check -/

theorem accessibleFrom_alignDown (c : Config) (s : State) (addr : ℕ) (isWrite stack : Bool)
    (n level table : ℕ) :
    accessibleFrom c s (alignDown addr pageSize) isWrite stack n level table =
      accessibleFrom c s addr isWrite stack n level table := by
  induction n generalizing level table with
  | zero => rfl
  | succ n ih => simp only [accessibleFrom, levelIndex_alignDown, ih]

/-- The entry of the page is missing and has the guard mark. -/
def Guarded (c : Config) (s : State) (r addr : ℕ) : Prop :=
  ∃ x, getPtePtr c s addr r = some x ∧ (s.mem x.1 x.2).has present = false ∧
    (s.mem x.1 x.2).has guard

/-- A page that was accepted and is not guarded. -/
theorem accessSound_of_accepted (hT : Tables c managed (pathsTo c t.cr3 addr) live s)
    (hsup : Supplies c.levels s.pmm) (hguard : ¬Guarded c s t.cr3 addr)
    (h : Accepted c s.mem t.cr3 addr isWrite
      (stackVmaAllowsFault t (alignDown addr pageSize) isWrite)) :
    AccessSound c s t addr isWrite := by
  have hpos := c.levels_pos
  have hroot := hT.isFrame_root
  have hone : Supplies 1 s.pmm := by
    rw [show c.levels = c.levels - 1 + 1 by omega] at hsup
    exact hsup.one
  cases h with
  | @leaf level e hleaf huser hwrite hup =>
    by_cases hw : Allows isWrite e
    · exact .inl ⟨⟨⟨level, e, hleaf, hw⟩, through_of_leaf hleaf (fun _ => hw) hup⟩,
        level, e, hleaf, huser⟩
    right
    intro err herr
    have hisw : isWrite = true := by
      by_contra hne
      exact hw fun h => absurd h hne
    obtain ⟨hlast, hcow⟩ := (hwrite hisw).resolve_left fun h => hw fun _ => h
    have hthrough := through_of_leaf hleaf (fun hl => absurd hl (by omega)) hup
    have hp := herr.present.mpr ⟨level, e, hleaf⟩
    obtain ⟨table, hat, rfl, hl⟩ := hleaf
    obtain rfl : level = c.levels - 1 := by omega
    refine resolve_write hT hone hp (herr.write.trans hisw) ?_ hl.1 hcow hthrough
    rw [getPtePtr_eq c s hroot, hat]
    rfl
  | @demandZero table hat habsent hg hmark hwrite hup =>
    right
    intro err herr
    have hptr : getPtePtr c s addr t.cr3 = some (table, levelIndex c addr (c.levels - 1)) := by
      rw [getPtePtr_eq c s hroot, hat]
      rfl
    have hnone := no_leaf_of_end (by omega) hat (fun hl => by
      have hbit := hl.1
      rw [habsent] at hbit
      cases hbit) (fun hl => absurd hl (by omega))
    refine resolve_demandZero hT hone herr
      (fun _ _ _ _ hp hf hpres => (through_of_absent hat habsent hup hp hf hpres).2)
      ⟨Bool.eq_false_iff.mpr fun hp => ?_, _, hptr, ?_⟩
    · obtain ⟨level, e, hl⟩ := herr.present.mp hp
      exact hnone level e hl
    simp only [demandZeroAllows, hmark, hg, herr.user, herr.write, herr.instr, Bool.not_false,
      Bool.true_or, Bool.and_true, Bool.true_and]
    cases hisw : isWrite with
    | false => rfl
    | true => simpa using hwrite hisw
  | @stack level table hlt hat habsent hstack hup =>
    right
    intro err herr
    have hthrough := through_of_absent hat habsent hup
    have hself : ¬IsLeaf c level (s.mem table (levelIndex c addr level)) := by
      intro hl
      have hbit := hl.1
      rw [habsent] at hbit
      cases hbit
    have hend : next c s.mem table (levelIndex c addr level) = none := by
      rw [next, habsent]
      rfl
    have hp : has err pfPresent = false := by
      refine Bool.eq_false_iff.mpr fun hp => ?_
      obtain ⟨k, e, hl⟩ := herr.present.mp hp
      exact no_leaf_of_end hlt hat hself (fun _ => hend) k e hl
    by_cases htakes : TakesDemandZero c s t addr err
    · exact resolve_demandZero hT hone herr
        (fun _ _ _ _ hp hf hpres => (hthrough hp hf hpres).2) htakes
    refine resolve_stack hT hsup hthrough htakes ⟨hp, herr.instr, by rwa [herr.write], ?_⟩
    intro x hx
    rw [getPtePtr_alignDown hroot] at hx
    obtain ⟨hat', hidx⟩ := follow_of_getPtePtr hroot hx
    -- the path ends at the missing entry, so it is the last one
    have hlevel : level = c.levels - 1 := by
      by_contra hne
      obtain ⟨d, hd⟩ := Nat.exists_eq_add_of_le (show level + 1 ≤ c.levels - 1 by omega)
      rw [hd, path_add, path_succ, follow_append, follow_snoc, hat, bind_some, hend] at hat'
      cases hat'
    subst hlevel
    rw [hat] at hat'
    rw [hidx, ← some.inj hat']
    refine ⟨habsent, Bool.eq_false_iff.mpr fun hg => hguard ⟨x, hx, ?_, ?_⟩⟩
    · rw [hidx, ← some.inj hat', habsent]
    · rw [hidx, ← some.inj hat', hg]

/-- A guarded page can be neither reached nor resolved. -/
theorem not_accessSound_of_guarded (hT : Tables c managed (pathsTo c t.cr3 addr) live s)
    (h : Guarded c s t.cr3 addr) : ¬AccessSound c s t addr isWrite := by
  obtain ⟨⟨table, index⟩, hptr, habsent, hguard⟩ := h
  have hpos := c.levels_pos
  obtain ⟨hat, hidx⟩ := follow_of_getPtePtr hT.isFrame_root hptr
  have hnone : ∀ k e, ¬Leaf c s.mem t.cr3 addr k e := by
    refine no_leaf_of_end (by omega) hat (fun hl => ?_) fun hl => absurd hl (by omega)
    have hbit := hl.1
    rw [← hidx, habsent] at hbit
    cases hbit
  rintro (⟨⟨⟨level, e, hleaf, -⟩, -⟩, -⟩ | hres)
  · exact hnone level e hleaf
  have herr : AccessError c s.mem t.cr3 addr isWrite (if isWrite then pfWrite else 0) := by
    have hp : has (if isWrite then pfWrite else 0) pfPresent = false := by
      cases isWrite <;> decide
    refine ⟨?_, ?_, ?_, ?_⟩
    · rw [hp]
      exact iff_of_false Bool.false_ne_true fun ⟨level, e, hleaf⟩ => hnone level e hleaf
    all_goals cases isWrite <;> decide
  obtain ⟨s', h', hacc⟩ := hres _ herr
  exact not_resolved_of_guard hT hptr habsent hguard h' hacc

theorem userRangeLoop_page {current : Option Task}
    (h : userRangeLoop c s current isWrite pml4 n page = true) (hi : i < n) :
    userPageAccessible c s current (page + i * pageSize) isWrite pml4 = true := by
  induction n generalizing page i with
  | zero => omega
  | succ n ih =>
    rw [userRangeLoop, Bool.and_eq_true] at h
    cases i with
    | zero =>
      exact h.1
    | succ i =>
      have hshift : page + (i + 1) * pageSize = page + pageSize + i * pageSize := by ring
      rw [hshift]
      exact ih h.2 (by omega)

/-- A range that was accepted lies below the end of user addresses, and each of its pages was
accepted. -/
theorem userRangeMapped_spec {current : Option Task}
    (h : userRangeMapped c s current virt size isWrite pml4 = true) (h1 : virt ≤ a)
    (h2 : a < virt + size) :
    a < c.userTop ∧ userPageAccessible c s current (alignDown a pageSize) isWrite pml4 = true := by
  unfold userRangeMapped at h
  split at h
  · omega
  split at h
  · cases h
  rename_i hvirt
  simp only [Bool.or_eq_true, decide_eq_true_eq, Bool.not_eq_true', not_or, userAddress,
    decide_eq_false_iff_not, not_not] at hvirt
  split at h
  · cases h
  refine ⟨by omega, ?_⟩
  have hpage := userRangeLoop_page h
    (i := (alignDown a pageSize - alignDown virt pageSize) / pageSize) (by
      simp only [alignDown, pageSize]
      omega)
  have heq : alignDown virt pageSize +
      (alignDown a pageSize - alignDown virt pageSize) / pageSize * pageSize =
        alignDown a pageSize := by
    simp only [alignDown, pageSize]
    omega
  rw [heq] at hpage
  exact hpage

/-- **User buffers.** A range that `user_range_mapped` accepts lies below the end of user
addresses, and every access of the kernel to it goes through or is resolved, exactly when no page
of it is missing and guarded. -/
theorem userRangeMapped_sound_iff {virt size : ℕ}
    (hT : ∀ a, virt ≤ a → a < virt + size → Tables c managed (pathsTo c t.cr3 a) live s)
    (hsup : Supplies c.levels s.pmm)
    (h : userRangeMapped c s (some t) virt size isWrite t.cr3 = true) :
    (∀ a, virt ≤ a → a < virt + size → a < c.userTop ∧ AccessSound c s t a isWrite) ↔
      ∀ a, virt ≤ a → a < virt + size → ¬Guarded c s t.cr3 a := by
  constructor
  · intro hsound a h1 h2 hg
    exact not_accessSound_of_guarded (hT a h1 h2) hg (hsound a h1 h2).2
  intro hclear a h1 h2
  obtain ⟨htop, hacc⟩ := userRangeMapped_spec h h1 h2
  refine ⟨htop, accessSound_of_accepted (hT a h1 h2) hsup (hclear a h1 h2) ?_⟩
  have hroot := (hT a h1 h2).isFrame_root
  unfold userPageAccessible at hacc
  split at hacc
  · cases hacc
  rw [frame_ofNat hroot, accessibleFrom_alignDown] at hacc
  have hstack : ((some t).any fun u => u.cr3 = t.cr3 &&
      stackVmaAllowsFault u (alignDown a pageSize) isWrite) =
        stackVmaAllowsFault t (alignDown a pageSize) isWrite := by
    rw [any_some, decide_eq_true rfl, Bool.true_and]
  rw [hstack] at hacc
  exact accepted_of_accessibleFrom (zero_add c.levels) (follow_nil _ _)
    (fun k hk => absurd hk (Nat.not_lt_zero k)) hacc

end Resolve

/-! ### A guard mark inside a stack -/

/-- A task whose stack area is committed down to the page at its lower end. -/
def committedStackTask (root : ℕ) : Task where
  cr3 := root
  abi := .user64
  vmaList := [⟨1, 0x7000, 0x9000, 0x7000, vmaRead ||| vmaWrite ||| vmaGrowsdown, .stack⟩]
  heapVma := none
  stackVma := some 1
  programBreak := 0
  mmapHint := 0

/-- A fresh page table, and the same with a guard mark at the lower end of the stack: the check
accepts the lowest page in both. -/
theorem stack_pages_accepted : ∃ managed live live' s s' root,
    Tables fourLevels managed (pathsTo fourLevels root 0x7008) live s ∧
      Supplies 4 s.pmm ∧ ¬Guarded fourLevels s root 0x7008 ∧
      userRangeMapped fourLevels s (some (committedStackTask root)) 0x7008 1 true root = true ∧
      Tables fourLevels managed (pathsTo fourLevels root 0x7008) live' s' ∧
      Supplies 4 s'.pmm ∧ Guarded fourLevels s' root 0x7008 ∧
      userRangeMapped fourLevels s' (some (committedStackTask root)) 0x7008 1 true root = true := by
  have heval : (do
      let pmm ← addSpans (Pmm.State.empty 4 64 false) [(0x10000, 0x40000)]
      let r ← allocPageTable ⟨pmm, fun _ _ => 0, 0, []⟩
      let s ← mapGuardPage fourLevels (r.2.zeroPage r.1) 0x7000 (user ||| nx) r.1
      pure (r.1, decide (Supplies 4 (r.2.zeroPage r.1).pmm) && decide (Supplies 4 s.pmm) &&
        (getPtePtr fourLevels (r.2.zeroPage r.1) 0x7008 r.1).isNone &&
        ((getPtePtr fourLevels s 0x7008 r.1).any fun p =>
          !(s.mem p.1 p.2).has present && (s.mem p.1 p.2).has guard) &&
        userRangeMapped fourLevels (r.2.zeroPage r.1) (some (committedStackTask r.1)) 0x7008 1 true
          r.1 &&
        userRangeMapped fourLevels s (some (committedStackTask r.1)) 0x7008 1 true r.1) :
      Except String (ℕ × Bool)).toOption = some (0x30000, true) := by
    decide +kernel
  obtain ⟨pmm, h1, h⟩ := ok_bind (ok_of_toOption heval)
  obtain ⟨⟨root, s1⟩, h2, h⟩ := ok_bind h
  obtain ⟨s2, h3, h⟩ := ok_bind h
  obtain ⟨hroot, h⟩ := Prod.mk.inj (Except.ok.inj h)
  simp only [Bool.and_eq_true, decide_eq_true_eq, isNone_iff_eq_none] at h
  obtain ⟨⟨⟨⟨⟨hsup, hsup'⟩, hnone⟩, hguard⟩, hacc⟩, hacc'⟩ := h
  obtain ⟨managed, live, live', hT, hT'⟩ := tables_of_guard h1 h2 (hroot.trans_ne (by decide)) h3
  refine ⟨managed, live, live', _, s2, root, hT, hsup, ?_, hacc, hT', hsup', ?_, hacc'⟩
  · rintro ⟨x, hx, -⟩
    rw [hnone] at hx
    cases hx
  · obtain ⟨x, hx, hbits⟩ := any_eq_true _ _ |>.mp hguard
    simp only [Bool.and_eq_true, Bool.not_eq_true'] at hbits
    exact ⟨x, hx, hbits.1, hbits.2⟩

/-- The lowest page of a stack that was never touched. -/
theorem userRangeMapped_sound_iff_stack : ∃ managed live s root,
    Tables fourLevels managed (pathsTo fourLevels root 0x7008) live s ∧
      userRangeMapped fourLevels s (some (committedStackTask root)) 0x7008 1 true root = true ∧
      AccessSound fourLevels s (committedStackTask root) 0x7008 true := by
  obtain ⟨managed, live, -, s, -, root, hT, hsup, hclear, h, -⟩ := stack_pages_accepted
  have hone : ∀ a, 0x7008 ≤ a → a < 0x7008 + 1 → a = 0x7008 := by omega
  have hsound := (userRangeMapped_sound_iff (t := committedStackTask root)
    (fun a h1 h2 => by rw [hone a h1 h2]; exact hT) hsup h).mpr
    fun a h1 h2 => by rw [hone a h1 h2]; exact hclear
  exact ⟨managed, live, s, root, hT, h, (hsound 0x7008 le_rfl (by decide)).2⟩

/-- A range with a guarded page that is accepted. -/
theorem userRangeMapped_accepts_guard :
    ¬∀ (c : Config) (managed live : ℕ → ℕ) (s : State) (t : Task) (virt size : ℕ) (isWrite : Bool),
      (∀ a, virt ≤ a → a < virt + size → Tables c managed (pathsTo c t.cr3 a) live s) →
      Supplies c.levels s.pmm → userRangeMapped c s (some t) virt size isWrite t.cr3 = true →
      ∀ a, virt ≤ a → a < virt + size → a < c.userTop ∧ AccessSound c s t a isWrite := by
  intro hall
  obtain ⟨managed, -, live, -, s, root, -, -, -, -, hT, hsup, hguard, h⟩ := stack_pages_accepted
  have hone : ∀ a, 0x7008 ≤ a → a < 0x7008 + 1 → a = 0x7008 := by omega
  have hsound := (hall fourLevels managed live s (committedStackTask root) 0x7008 1 true
    (fun a h1 h2 => by rw [hone a h1 h2]; exact hT) hsup h 0x7008 le_rfl (by decide)).2
  exact not_accessSound_of_guarded hT hguard hsound

end RHKernel.Vmm
