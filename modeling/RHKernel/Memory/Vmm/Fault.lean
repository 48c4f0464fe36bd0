import RHKernel.Memory.Pmm.Partition
import RHKernel.Memory.Vmm.Tables

/-!
# Page faults

`handle_fault` tries three handlers in turn: demand-zero pages, the growing stack, and writes to
shared or read-only pages. Each one looks at the page-table entry of the fault address, at the
areas of the task and at the error code. The lemmas `…_cases` say what each handler does when it
takes a fault; when it does not, it changes nothing.

The first two leave an entry that permits the access, provided a demand-zero entry has the user
bit. The third one never looks at the present, user or guard bits of an entry it makes writable:
with the copy-on-write mark, or as a read-only user entry of a writable area, an entry that is not
present gets a frame and is reported as resolved. The guard page below a user stack is such an
entry. `handleFault_sound_iff` gives the exact condition under which a fault is resolved soundly.
-/

namespace RHKernel.Vmm

open Bits Function List PageFlags Pmm Radix Step Vma Pte

/-- The tables on the way to one address. -/
def pathsTo (c : Config) (root virt : ℕ) : Set (ℕ × List ℕ) :=
  {x | ∃ k ≤ c.levels - 1, x = (root, path c virt k)}

theorem length_path (c : Config) (virt n : ℕ) : (path c virt n).length = n := by
  rw [path, length_map, length_range]

theorem mem_pathsTo (c : Config) (root virt : ℕ) {k : ℕ} (hk : k ≤ c.levels - 1) :
    (root, path c virt k) ∈ pathsTo c root virt := ⟨k, hk, rfl⟩

theorem closed_pathsTo (c : Config) (root virt : ℕ) : Closed (pathsTo c root virt) := by
  rintro r p q ⟨k, hk, heq⟩
  obtain ⟨rfl, hpath⟩ := Prod.mk.inj heq
  have hlen := congrArg List.length hpath
  rw [length_append, length_path] at hlen
  refine ⟨p.length, by omega, congrArg _ ?_⟩
  have htake := congrArg (List.take p.length) hpath
  rwa [take_left, path, ← map_take, take_range, min_eq_left (by omega)] at htake

theorem not_mem_pathsTo (c : Config) (root virt : ℕ) (i : ℕ) :
    (root, path c virt (c.levels - 1) ++ [i]) ∉ pathsTo c root virt := by
  rintro ⟨k, hk, heq⟩
  have hlen := congrArg List.length (Prod.mk.inj heq).2
  rw [length_append, length_path, length_path, length_singleton] at hlen
  omega

theorem levelIndex_alignDown (c : Config) (virt level : ℕ) :
    levelIndex c (alignDown virt pageSize) level = levelIndex c virt level := by
  have hshift : ∀ v, v >>> levelShift c level =
      v / pageSize / 2 ^ (9 * (c.levels - 1 - level)) := by
    intro v
    rw [Nat.shiftRight_eq_div_pow, levelShift, pow_add, ← Nat.div_div_eq_div_mul]
    rfl
  rw [levelIndex, levelIndex, hshift, hshift, alignDown, Nat.mul_div_cancel _ pageSize_pos]

theorem path_alignDown (c : Config) (virt n : ℕ) :
    path c (alignDown virt pageSize) n = path c virt n :=
  map_congr_left fun level _ => levelIndex_alignDown c virt level

/-! ### The handlers -/

/-- `pmm::alloc` has no page. -/
def OutOfMemory (s : State) : Prop := ∃ pmm', alloc s.pmm pageSize = .ok (0, pmm')

/-- `handle_demand_zero_fault` accepts the entry and the error code. -/
def TakesDemandZero (c : Config) (s : State) (t : Task) (addr : ℕ) (err : BitVec 64) : Prop :=
  has err pfPresent = false ∧ ∃ x, getPtePtr c s addr t.cr3 = some x ∧
    demandZeroAllows (s.mem x.1 x.2) err

/-- `handle_stack_fault` accepts the page and the error code. -/
def TakesStack (c : Config) (s : State) (t : Task) (addr : ℕ) (err : BitVec 64) : Prop :=
  has err pfPresent = false ∧ has err pfInstr = false ∧
    stackVmaAllowsFault t (alignDown addr pageSize) (has err pfWrite) ∧
    ∀ x, getPtePtr c s (alignDown addr pageSize) t.cr3 = some x →
      (s.mem x.1 x.2).has present = false ∧ (s.mem x.1 x.2).has guard = false

section Cases

variable {c : Config} {managed live : ℕ → ℕ} {s s' : State} {t : Task} {addr phys table index : ℕ}
  {err : BitVec 64} {done : Bool}

theorem not_outOfMemory {pmm' : Pmm.State} (h : alloc s.pmm pageSize = .ok (phys, pmm'))
    (hp : phys ≠ 0) : ¬OutOfMemory s := by
  rintro ⟨pmm'', h'⟩
  rw [h] at h'
  exact hp (Prod.mk.inj (Except.ok.inj h')).1

variable (hi : Inv managed live s.pmm) (h0 : managed 0 = 0)

include hi h0

theorem alloc_page_cases {pmm' : Pmm.State}
    (h : alloc s.pmm pageSize = .ok (phys, pmm')) :
    (phys = 0 ∧ pmm' = s.pmm ∧ OutOfMemory s) ∨
      (phys ≠ 0 ∧ ¬OutOfMemory s ∧ PageTaken managed live s.pmm pmm' phys) := by
  by_cases hp : phys = 0
  · subst hp
    exact .inl ⟨rfl, alloc_eq_zero hi h0 h, _, h⟩
  · exact .inr ⟨hp, not_outOfMemory h hp, (alloc_page h hi).resolve_left fun h1 => hp h1.1⟩

theorem handleDemandZeroFault_cases (h : handleDemandZeroFault c s t addr err = .ok (done, s')) :
    (done = false ∧ s' = s ∧ ¬(TakesDemandZero c s t addr err ∧ ¬OutOfMemory s)) ∨
      (done = true ∧ TakesDemandZero c s t addr err ∧ ¬OutOfMemory s ∧
        ∃ table index phys pmm', getPtePtr c s addr t.cr3 = some (table, index) ∧
          demandZeroAllows (s.mem table index) err ∧ PageTaken managed live s.pmm pmm' phys ∧
          s' = ((s.withPmm pmm').zeroPage phys).setWord table index (demandZeroEntry c phys
              (((s.withPmm pmm').zeroPage phys).mem table index))) := by
  unfold handleDemandZeroFault at h
  split_ifs at h with herr
  · cases h
    exact .inl ⟨rfl, rfl, fun hx => nomatch herr.symm.trans hx.1.1⟩
  cases hptr : getPtePtr c s addr t.cr3 with
  | none =>
    rw [hptr] at h
    cases h
    exact .inl ⟨rfl, rfl, fun ⟨⟨_, _, h1, _⟩, _⟩ => nomatch hptr.symm.trans h1⟩
  | some x =>
    rw [hptr] at h
    simp only at h
    split_ifs at h with hdz
    · cases h
      refine .inl ⟨rfl, rfl, fun ⟨⟨_, _, h1, h2⟩, _⟩ => ?_⟩
      cases hptr.symm.trans h1
      rw [h2] at hdz
      cases hdz
    · rw [Bool.not_eq_true', Bool.not_eq_false] at hdz
      obtain ⟨⟨phys, pmm'⟩, halloc, h⟩ := ok_bind h
      rcases alloc_page_cases hi h0 halloc with ⟨rfl, rfl, hoom⟩ | ⟨hp, hmem, htaken⟩
      · cases h
        exact .inl ⟨rfl, rfl, fun hx => hx.2 hoom⟩
      · rw [if_neg hp] at h
        cases h
        exact .inr ⟨rfl, ⟨Bool.eq_false_iff.mpr herr, x, hptr, hdz⟩, hmem, x.1, x.2, phys, pmm',
          rfl, hdz, htaken, rfl⟩

theorem handleStackFault_cases (h : handleStackFault c s t addr err = .ok (done, s')) :
    (done = false ∧ s' = s ∧ ¬(TakesStack c s t addr err ∧ ¬OutOfMemory s)) ∨
      (done = true ∧ TakesStack c s t addr err ∧ ¬OutOfMemory s ∧
        ∃ phys pmm', PageTaken managed live s.pmm pmm' phys ∧
          mapPage c ((s.withPmm pmm').zeroPage phys) (alignDown addr pageSize)
            phys (write ||| user ||| nx) .size4K t.cr3 = .ok s') := by
  unfold handleStackFault at h
  simp only at h
  split_ifs at h with herr hin hvma hany
  · cases h
    exact .inl ⟨rfl, rfl, fun hx => nomatch herr.symm.trans hx.1.1⟩
  · cases h
    exact .inl ⟨rfl, rfl, fun hx => nomatch hin.symm.trans hx.1.2.1⟩
  · cases h
    refine .inl ⟨rfl, rfl, fun hx => ?_⟩
    rw [hx.1.2.2.1] at hvma
    cases hvma
  · cases h
    refine .inl ⟨rfl, rfl, fun ⟨⟨_, _, _, h1⟩, _⟩ => ?_⟩
    obtain ⟨x, hx, hbits⟩ := Option.any_eq_true _ _ |>.mp hany
    obtain ⟨h2, h3⟩ := h1 x hx
    rw [h2, h3] at hbits
    cases hbits
  · rw [Bool.not_eq_true', Bool.not_eq_false] at hvma
    obtain ⟨⟨phys, pmm'⟩, halloc, h⟩ := ok_bind h
    simp only at h
    rcases alloc_page_cases hi h0 halloc with ⟨rfl, rfl, hoom⟩ | ⟨hp, hmem, htaken⟩
    · cases h
      exact .inl ⟨rfl, rfl, fun hx => hx.2 hoom⟩
    rw [if_neg hp] at h
    obtain ⟨s1, hmap, h⟩ := ok_bind h
    cases h
    refine .inr ⟨rfl, ⟨Bool.eq_false_iff.mpr herr, Bool.eq_false_iff.mpr hin, hvma,
      fun x hx => ?_⟩, hmem, phys, pmm', htaken, hmap⟩
    rw [hx, Option.any_some, Bool.or_eq_true, not_or] at hany
    exact ⟨Bool.eq_false_iff.mpr hany.1, Bool.eq_false_iff.mpr hany.2⟩

omit hi h0

/-- The last part of `handle_fault` accepts the entry and finds a frame for it. -/
def TakesWrite (c : Config) (s : State) (t : Task) (addr : ℕ) (err : BitVec 64) : Prop :=
  has err pfWrite ∧ ∃ x, getPtePtr c s addr t.cr3 = some x ∧
    cowAllows t addr (s.mem x.1 x.2) ∧
    (getRef s.pmm (frame c (s.mem x.1 x.2)) = 1 ∨ ¬OutOfMemory s)

/-- The entry of a page that got a frame of its own. -/
def copiedEntry (c : Config) (phys : ℕ) (entry : Pte) : Pte :=
  (BitVec.ofNat 64 phys &&& c.physAddrMask) ||| ((entry &&& keepFlags) &&& ~~~cow) ||| write

theorem resolveWrite_cases (hi : Inv managed live s.pmm) (h0 : managed 0 = 0)
    (h : resolveWrite c s table index = .ok (done, s')) :
    (done = false ∧ s' = s ∧ getRef s.pmm (frame c (s.mem table index)) ≠ 1 ∧ OutOfMemory s) ∨
      (done = true ∧ getRef s.pmm (frame c (s.mem table index)) = 1 ∧
        s' = s.setWord table index ((s.mem table index &&& ~~~cow) ||| write)) ∨
      (done = true ∧ getRef s.pmm (frame c (s.mem table index)) ≠ 1 ∧ ¬OutOfMemory s ∧
        ∃ phys pmm' s1, PageTaken managed live s.pmm pmm' phys ∧
          unref ((s.withPmm pmm').copyPage phys (frame c (s.mem table index)))
            (frame c (s.mem table index)) = .ok s1 ∧
          s' = s1.setWord table index (copiedEntry c phys (s1.mem table index))) := by
  unfold resolveWrite at h
  by_cases href : getRef s.pmm (frame c (s.mem table index)) = 1
  · rw [if_pos href] at h
    cases h
    exact .inr (.inl ⟨rfl, href, rfl⟩)
  rw [if_neg href] at h
  obtain ⟨⟨phys, pmm'⟩, halloc, h⟩ := ok_bind h
  simp only at h
  rcases alloc_page_cases hi h0 halloc with ⟨rfl, rfl, hoom⟩ | ⟨hp, hmem, htaken⟩
  · cases h
    exact .inl ⟨rfl, rfl, href, hoom⟩
  · rw [if_neg hp] at h
    obtain ⟨s1, hunref, h⟩ := ok_bind h
    cases h
    exact .inr (.inr ⟨rfl, href, hmem, phys, pmm', s1, htaken, hunref, rfl⟩)

theorem handleWriteFault_cases (hi : Inv managed live s.pmm) (h0 : managed 0 = 0)
    (h : handleWriteFault c s t addr err = .ok (done, s')) :
    (done = false ∧ s' = s ∧ ¬TakesWrite c s t addr err) ∨
      (done = true ∧ TakesWrite c s t addr err ∧
        ∃ table index, getPtePtr c s addr t.cr3 = some (table, index) ∧
          resolveWrite c s table index = .ok (true, s')) := by
  unfold handleWriteFault at h
  split_ifs at h with herr
  · cases h
    refine .inl ⟨rfl, rfl, fun hx => ?_⟩
    rw [hx.1] at herr
    cases herr
  rw [Bool.not_eq_true', Bool.not_eq_false] at herr
  cases hptr : getPtePtr c s addr t.cr3 with
  | none =>
    rw [hptr] at h
    cases h
    exact .inl ⟨rfl, rfl, fun ⟨_, _, h1, _⟩ => nomatch hptr.symm.trans h1⟩
  | some x =>
    rw [hptr] at h
    simp only at h
    split_ifs at h with hcow
    · cases h
      refine .inl ⟨rfl, rfl, fun ⟨_, _, h1, h2, _⟩ => ?_⟩
      cases hptr.symm.trans h1
      rw [h2] at hcow
      cases hcow
    · rw [Bool.not_eq_true', Bool.not_eq_false] at hcow
      rcases resolveWrite_cases hi h0 h with ⟨rfl, rfl, href, hoom⟩ | ⟨rfl, href, -⟩ |
        ⟨rfl, -, hmem, -⟩
      · refine .inl ⟨rfl, rfl, fun ⟨_, _, h1, _, h3⟩ => ?_⟩
        cases hptr.symm.trans h1
        exact h3.elim href (not_not.mpr hoom)
      · exact .inr ⟨rfl, ⟨herr, x, hptr, hcow, .inl href⟩, x.1, x.2, rfl, h⟩
      · exact .inr ⟨rfl, ⟨herr, x, hptr, hcow, .inr hmem⟩, x.1, x.2, rfl, h⟩

end Cases

/-! ### What the stored entries permit -/

/-- The entry lets the access through that caused the fault: it is present and a user page,
writable for a write and executable for an instruction fetch. -/
def Permits (entry : Pte) (err : BitVec 64) : Prop :=
  entry.has present ∧ entry.has user ∧ (has err pfWrite → entry.has write) ∧
    (has err pfInstr → entry.has nx = false)

theorem getLsbD_demandZeroEntry (c : Config) (phys : ℕ) (e : Pte) {i : ℕ}
    (h : i < 12 ∨ 52 ≤ i) : (demandZeroEntry c phys e).getLsbD i =
      (e.getLsbD i && softwarePteMask.getLsbD i && (~~~demandZero).getLsbD i ||
        present.getLsbD i) := by
  rw [demandZeroEntry, BitVec.getLsbD_or, BitVec.getLsbD_or, getLsbD_address c phys h,
    Bool.false_or, BitVec.getLsbD_and, BitVec.getLsbD_and]

theorem getLsbD_copiedEntry (c : Config) (phys : ℕ) (e : Pte) {i : ℕ}
    (h : i < 12 ∨ 52 ≤ i) : (copiedEntry c phys e).getLsbD i =
      (e.getLsbD i && keepFlags.getLsbD i && (~~~cow).getLsbD i || write.getLsbD i) := by
  rw [copiedEntry, BitVec.getLsbD_or, BitVec.getLsbD_or, getLsbD_address c phys h,
    Bool.false_or, BitVec.getLsbD_and, BitVec.getLsbD_and]

theorem has_present_demandZeroEntry (c : Config) (phys : ℕ) (e : Pte) :
    (demandZeroEntry c phys e).has present = true := by
  rw [has_present, getLsbD_demandZeroEntry c phys e (by decide)]
  cases e.getLsbD 0 <;> rfl

theorem has_write_demandZeroEntry (c : Config) (phys : ℕ) (e : Pte) :
    (demandZeroEntry c phys e).has write = e.has write := by
  rw [has_write, has_write, getLsbD_demandZeroEntry c phys e (by decide)]
  cases e.getLsbD 1 <;> rfl

/-- A demand-zero entry becomes a page that permits the access if it is a user entry. -/
theorem permits_demandZeroEntry {c : Config} {phys : ℕ} {e : Pte} {err : BitVec 64}
    (h : demandZeroAllows e err) : Permits (demandZeroEntry c phys e) err ↔ e.has user := by
  have hbit (i : ℕ) (hi : i < 12 ∨ 52 ≤ i) := getLsbD_demandZeroEntry c phys e hi
  have hp := has_present_demandZeroEntry c phys e
  have hw := has_write_demandZeroEntry c phys e
  have hu : (demandZeroEntry c phys e).has user = e.has user := by
    rw [has_user, has_user, hbit 2 (by decide)]
    cases e.getLsbD 2 <;> rfl
  have hx : (demandZeroEntry c phys e).has nx = e.has nx := by
    rw [has_nx, has_nx, hbit 63 (by decide)]
    cases e.getLsbD 63 <;> rfl
  simp only [demandZeroAllows, Bool.and_eq_true, Bool.or_eq_true, Bool.not_eq_true'] at h
  rw [Permits, hp, hu, hw, hx]
  refine ⟨fun h1 => h1.2.1, fun h1 => ⟨rfl, h1, fun h2 => ?_, fun h2 => ?_⟩⟩
  · exact h.1.2.resolve_left (by rw [h2]; decide)
  · exact h.2.resolve_left (by rw [h2]; decide)

/-- The entry has become writable; presence, user bit and execution are as before. -/
structure Writable (e e' : Pte) : Prop where
  present_eq : e'.getLsbD 0 = e.getLsbD 0
  write_eq : e'.getLsbD 1 = true
  user_eq : e'.getLsbD 2 = e.getLsbD 2
  nx_eq : e'.getLsbD 63 = e.getLsbD 63

theorem Writable.permits {e e' : Pte} (h : Writable e e') (err : BitVec 64) : Permits e' err ↔
    e.has present ∧ e.has user ∧ (has err pfInstr → e.has nx = false) := by
  rw [Permits, has_present, has_user, has_write, has_nx, h.present_eq, h.write_eq,
    h.user_eq, h.nx_eq, has_present, has_user, has_nx]
  simp only [implies_true, true_and]

theorem writable_uncow (e : Pte) : Writable e ((e &&& ~~~cow) ||| write) := by
  refine ⟨?_, ?_, ?_, ?_⟩ <;> rw [BitVec.getLsbD_or, BitVec.getLsbD_and]
  · cases e.getLsbD 0 <;> rfl
  · cases e.getLsbD 1 <;> rfl
  · cases e.getLsbD 2 <;> rfl
  · cases e.getLsbD 63 <;> rfl

theorem writable_copiedEntry (c : Config) (phys : ℕ) (e : Pte) :
    Writable e (copiedEntry c phys e) := by
  refine ⟨?_, ?_, ?_, ?_⟩ <;> rw [getLsbD_copiedEntry c phys e (by decide)]
  · cases e.getLsbD 0 <;> rfl
  · cases e.getLsbD 1 <;> rfl
  · cases e.getLsbD 2 <;> rfl
  · cases e.getLsbD 63 <;> rfl

/-- The entry of a stack page permits every access but instruction fetches. -/
theorem permits_stackEntry (c : Config) (phys : ℕ) {err : BitVec 64}
    (h : has err pfInstr = false) :
    Permits ((BitVec.ofNat 64 phys &&& c.physAddrMask) |||
      makeLeafFlags c (write ||| user ||| nx) .size4K) err := by
  have hbit (i : ℕ) (hi : i < 12) : ((BitVec.ofNat 64 phys &&& c.physAddrMask) |||
      makeLeafFlags c (write ||| user ||| nx) .size4K).getLsbD i =
        (makeLeafFlags c (write ||| user ||| nx) .size4K).getLsbD i := by
    rw [BitVec.getLsbD_or, getLsbD_address c phys (.inl hi), Bool.false_or]
  have hflags : makeLeafFlags c (write ||| user ||| nx) .size4K =
      if c.supportsNx then (write ||| user ||| nx ||| present) &&& ~~~writeCombining
      else ((write ||| user ||| nx ||| present) &&& ~~~writeCombining) &&& ~~~nx := by
    unfold makeLeafFlags
    cases c.supportsNx <;> rfl
  refine ⟨?_, ?_, fun _ => ?_, fun h1 => by rw [h] at h1; cases h1⟩
  · rw [has_present, hbit 0 (by decide), hflags]
    cases c.supportsNx <;> rfl
  · rw [has_user, hbit 2 (by decide), hflags]
    cases c.supportsNx <;> rfl
  · rw [has_write, hbit 1 (by decide), hflags]
    cases c.supportsNx <;> rfl

/-! ### Soundness -/

/-- A fault that is reported as resolved leaves an entry that permits the access, and an entry
with the guard mark is not touched and not reported. -/
def FaultSound (c : Config) (s s' : State) (t : Task) (addr : ℕ) (err : BitVec 64)
    (done : Bool) : Prop :=
  (done = true → ∃ x, getPtePtr c s' addr t.cr3 = some x ∧ Permits (s'.mem x.1 x.2) err) ∧
    ∀ x, getPtePtr c s addr t.cr3 = some x → (s.mem x.1 x.2).has guard →
      done = false ∧ s'.mem x.1 x.2 = s.mem x.1 x.2

/-- The demand-zero handler takes an entry without the user bit, or neither it nor the stack
handler takes the fault and the entry that is made writable is not present, not a user entry,
guarded, or not executable on an instruction fetch. -/
def UnsoundFault (c : Config) (s : State) (t : Task) (addr : ℕ) (err : BitVec 64) : Prop :=
  (TakesDemandZero c s t addr err ∧ ¬OutOfMemory s ∧
    ∃ x, getPtePtr c s addr t.cr3 = some x ∧ (s.mem x.1 x.2).has user = false) ∨
  (¬(TakesDemandZero c s t addr err ∧ ¬OutOfMemory s) ∧
    ¬(TakesStack c s t addr err ∧ ¬OutOfMemory s) ∧ TakesWrite c s t addr err ∧
    ∃ x, getPtePtr c s addr t.cr3 = some x ∧
      ¬((s.mem x.1 x.2).has present ∧ (s.mem x.1 x.2).has user ∧
        (has err pfInstr → (s.mem x.1 x.2).has nx = false) ∧
        (s.mem x.1 x.2).has guard = false))

section Soundness

variable {c : Config} {managed live live' : ℕ → ℕ} {s s' : State} {t : Task}
  {addr table index root virt phys x : ℕ} {err : BitVec 64} {done : Bool} {pmm' : Pmm.State}

theorem Tables.isFrame_root (hT : Tables c managed (pathsTo c root virt) live s) : IsFrame c root :=
  (hT.held ⟨root, [], mem_pathsTo c root virt (Nat.zero_le _), rfl⟩).1

theorem getPtePtr_congr (hroot : IsFrame c root) (h : s'.mem = s.mem) :
    getPtePtr c s' virt root = getPtePtr c s virt root := by
  rw [getPtePtr_eq c s' hroot, getPtePtr_eq c s hroot, h]

theorem getPtePtr_alignDown (hroot : IsFrame c root) :
    getPtePtr c s (alignDown virt pageSize) root = getPtePtr c s virt root := by
  rw [getPtePtr_eq c s hroot, getPtePtr_eq c s hroot, path_alignDown, levelIndex_alignDown]

/-- The entry `get_pte_ptr` finds is at the end of the path. -/
theorem follow_of_getPtePtr (hroot : IsFrame c root)
    (h : getPtePtr c s virt root = some (table, index)) :
    follow (next c s.mem) (path c virt (c.levels - 1)) root = some table ∧
      index = levelIndex c virt (c.levels - 1) := by
  rw [getPtePtr_eq c s hroot, Option.map_eq_some_iff] at h
  obtain ⟨a, ha, heq⟩ := h
  cases heq
  exact ⟨ha, rfl⟩

/-- Filling pages that are no tables changes nothing on the way. -/
theorem Tables.through_of_mem {W : Set (ℕ × List ℕ)} {P : Pte → Prop}
    (hT : Tables c managed W live s) (hx : ¬Reached (next c s.mem) W x)
    (hm : ∀ {m}, m ≠ x → s'.mem m = s.mem m) (h : Through c W s.mem P) :
    Through c W s'.mem P := by
  intro r' p i m hp hf hpres
  rw [hT.follow_of_mem hx hm (hT.closed hp)] at hf
  have hne : m ≠ x := fun heq => hx (heq ▸ ⟨r', p, hT.closed hp, hf⟩)
  rw [hm hne] at hpres ⊢
  exact h hp hf hpres

/-- The walk to the address finds in `s'` what it finds in `s`. -/
structure SameWalk (c : Config) (managed live : ℕ → ℕ) (root virt : ℕ) (s s' : State) : Prop where
  tables : Tables c managed (pathsTo c root virt) live s'
  ptr : getPtePtr c s' virt root = getPtePtr c s virt root
  row : ∀ {table index}, getPtePtr c s virt root = some (table, index) →
    s'.mem table = s.mem table
  through : ∀ {P}, Through c (pathsTo c root virt) s.mem P →
    Through c (pathsTo c root virt) s'.mem P

section Walk

variable (hT : Tables c managed (pathsTo c root virt) live s)

include hT

theorem Tables.getPtePtr_of_mem (hx : ¬Reached (next c s.mem) (pathsTo c root virt) x)
    (hm : ∀ {m}, m ≠ x → s'.mem m = s.mem m) :
    getPtePtr c s' virt root = getPtePtr c s virt root := by
  rw [getPtePtr_eq c s' hT.isFrame_root, getPtePtr_eq c s hT.isFrame_root,
    hT.follow_of_mem hx hm (mem_pathsTo c root virt le_rfl)]

/-- The entry that was found stays in place when it is stored to. -/
theorem Tables.getPtePtr_setWord (hptr : getPtePtr c s virt root = some (table, index)) (e : Pte) :
    getPtePtr c (s.setWord table index e) virt root = some (table, index) ∧
      (s.setWord table index e).mem table index = e := by
  obtain ⟨hat, rfl⟩ := follow_of_getPtePtr hT.isFrame_root hptr
  refine ⟨?_, by rw [setWord_mem, if_pos ⟨rfl, rfl⟩]⟩
  rw [getPtePtr_eq c _ hT.isFrame_root,
    hT.follow_setWord (mem_pathsTo c root virt le_rfl) hat (not_mem_pathsTo c root virt _) e
      (mem_pathsTo c root virt le_rfl), hat]
  rfl

theorem Tables.table_ne_of_taken (hptr : getPtePtr c s virt root = some (table, index))
    (ht : PageTaken managed live s.pmm pmm' phys) : table ≠ phys := by
  rintro rfl
  exact hT.not_reached ht ⟨root, _, mem_pathsTo c root virt le_rfl,
    (follow_of_getPtePtr hT.isFrame_root hptr).1⟩

variable (ht : PageTaken managed live s.pmm pmm' phys)

include ht

theorem Tables.sameWalk (hm : ∀ {m}, m ≠ phys → s'.mem m = s.mem m)
    (hT' : Tables c managed (pathsTo c root virt) live' s') :
    SameWalk c managed live' root virt s s' :=
  have hnr := hT.not_reached ht
  ⟨hT', hT.getPtePtr_of_mem hnr hm, fun hptr => hm (hT.table_ne_of_taken hptr ht),
    hT.through_of_mem hnr hm⟩

theorem Tables.zeroPage :
    SameWalk c managed (update live (pfn phys) 1) root virt s ((s.withPmm pmm').zeroPage phys) :=
  have hm {m : ℕ} (h : m ≠ phys) : ((s.withPmm pmm').zeroPage phys).mem m = s.mem m :=
    update_of_ne h _ _
  hT.sameWalk ht hm (hT.of_taken ht rfl hm)

theorem Tables.copyPage (src : ℕ) :
    SameWalk c managed live root virt s (s.copyPage phys src) :=
  have hm {m : ℕ} (h : m ≠ phys) : (s.copyPage phys src).mem m = s.mem m := update_of_ne h _ _
  hT.sameWalk ht hm (hT.of_follow hT.inv (hT.follow_of_mem (hT.not_reached ht) hm)
    fun hr => (hT.held hr).2)

end Walk

theorem faultSound_iff_of_entry {e' : Pte} (hptr : getPtePtr c s addr t.cr3 = some (table, index))
    (hptr' : getPtePtr c s' addr t.cr3 = some (table, index)) (he : s'.mem table index = e') :
    FaultSound c s s' t addr err true ↔ Permits e' err ∧ (s.mem table index).has guard = false := by
  constructor
  · rintro ⟨h1, h2⟩
    obtain ⟨x, hx, hperm⟩ := h1 rfl
    rw [hptr'] at hx
    cases hx
    refine ⟨he ▸ hperm, Bool.eq_false_iff.mpr fun hg => ?_⟩
    cases (h2 _ hptr hg).1
  · rintro ⟨h1, h2⟩
    refine ⟨fun _ => ⟨_, hptr', he.symm ▸ h1⟩, fun x hx hg => ?_⟩
    rw [hptr] at hx
    cases hx
    rw [h2] at hg
    cases hg

variable (hT : Tables c managed (pathsTo c t.cr3 addr) live s)

include hT

/-- The demand-zero handler resolves soundly exactly the user entries. -/
theorem demandZero_sound_iff (hptr : getPtePtr c s addr t.cr3 = some (table, index))
    (hdz : demandZeroAllows (s.mem table index) err)
    (htaken : PageTaken managed live s.pmm pmm' phys) :
    FaultSound c s (((s.withPmm pmm').zeroPage phys).setWord table index
      (demandZeroEntry c phys (((s.withPmm pmm').zeroPage phys).mem table index)))
      t addr err true ↔ (s.mem table index).has user := by
  have hw := hT.zeroPage htaken
  obtain ⟨hptr', hmem⟩ := hw.tables.getPtePtr_setWord (hw.ptr.trans hptr)
    (demandZeroEntry c phys (((s.withPmm pmm').zeroPage phys).mem table index))
  rw [faultSound_iff_of_entry hptr hptr' hmem, hw.row hptr, permits_demandZeroEntry hdz]
  simp only [demandZeroAllows, Bool.and_eq_true, Bool.not_eq_true'] at hdz
  exact ⟨fun h => h.1, fun h => ⟨h, hdz.1.1.1.2⟩⟩

theorem stack_sound
    (htakes : TakesStack c s t addr err) (htaken : PageTaken managed live s.pmm pmm' phys)
    (hmap : mapPage c ((s.withPmm pmm').zeroPage phys) (alignDown addr pageSize)
      phys (write ||| user ||| nx) .size4K t.cr3 = .ok s') : FaultSound c s s' t addr err true := by
  have hroot := hT.isFrame_root
  have hpath := mem_pathsTo c t.cr3 addr (le_refl (c.levels - 1))
  obtain ⟨-, hinstr, -, hclear⟩ := htakes
  obtain ⟨live', hmapped⟩ := (hT.zeroPage htaken).tables.mapPage hroot (by rwa [path_alignDown])
    (by rw [path_alignDown]; exact not_mem_pathsTo c t.cr3 addr _) hmap
  rw [path_alignDown, levelIndex_alignDown] at hmapped
  obtain ⟨x, hx⟩ := hmapped.found
  refine ⟨fun _ => ⟨(x, levelIndex c addr (c.levels - 1)), ?_, ?_⟩, fun y hy hg => ?_⟩
  · rw [getPtePtr_eq c s' hroot, hx]
    rfl
  · have hentry := hmapped.entry hpath (not_mem_pathsTo c t.cr3 addr _)
      (j := levelIndex c addr (c.levels - 1))
    rw [entryAt_of_follow hx, if_pos ⟨rfl, rfl, rfl⟩] at hentry
    simp only [hentry]
    exact permits_stackEntry c phys hinstr
  · -- the guard mark was tested on the same entry
    rw [(hclear y ((getPtePtr_alignDown hroot).trans hy)).2] at hg
    cases hg

variable (hptr : getPtePtr c s addr t.cr3 = some (table, index))
  (h : resolveWrite c s table index = .ok (true, s'))

include hptr h

/-- The last part of `handle_fault` stores a writable entry in the place of the old one. -/
theorem resolveWrite_store :
    ∃ s1 e, SameWalk c managed live t.cr3 addr s s1 ∧ Writable (s.mem table index) e ∧
      s'.mem = (s1.setWord table index e).mem := by
  rcases resolveWrite_cases hT.inv hT.zero h with ⟨h1, -⟩ | ⟨-, -, rfl⟩ |
    ⟨-, -, -, phys, pmm', s1, htaken, hunref, hs'⟩
  · cases h1
  · exact ⟨s, _, ⟨hT, rfl, fun _ => rfl, id⟩, writable_uncow _, rfl⟩
  -- the copy goes to a page that is no table
  have hw := hT.copyPage htaken (frame c (s.mem table index))
  refine ⟨_, _, hw, writable_copiedEntry c phys _, ?_⟩
  have hrow : ((s.withPmm pmm').copyPage phys (frame c (s.mem table index))).mem table index =
      s.mem table index := congrFun (hw.row hptr) index
  rw [hs', setWord_mem_congr (mem_of_unref hunref), mem_of_unref hunref, hrow]
  rfl

/-- The last part of `handle_fault` resolves soundly exactly the entries that were present,
open to user accesses and not guarded. -/
theorem resolveWrite_sound_iff :
    FaultSound c s s' t addr err true ↔
      ((s.mem table index).has present ∧ (s.mem table index).has user ∧
        (has err pfInstr → (s.mem table index).has nx = false) ∧
        (s.mem table index).has guard = false) := by
  obtain ⟨s1, e, hw, hwritable, hmem⟩ := resolveWrite_store hT hptr h
  obtain ⟨hptr', hentry⟩ := hw.tables.getPtePtr_setWord (hw.ptr.trans hptr) e
  rw [faultSound_iff_of_entry hptr ((getPtePtr_congr hT.isFrame_root hmem).trans hptr')
    ((congrFun (congrFun hmem table) index).trans hentry), hwritable.permits]
  simp only [and_assoc]

omit hptr h

omit hT

/-- **Page faults.** A fault is handled soundly exactly when it is not `UnsoundFault`: the
demand-zero handler needs the user bit, and an entry that is made writable must have been
present, a user entry, not guarded, and executable if an instruction was fetched. -/
theorem handleFault_sound_iff (hT : Tables c managed (pathsTo c t.cr3 addr) live s)
    (h : handleFault c s t addr err = .ok (done, s')) :
    FaultSound c s s' t addr err done ↔ ¬UnsoundFault c s t addr err := by
  obtain ⟨⟨done₁, s₁⟩, h1, hrest⟩ := ok_bind h
  rcases handleDemandZeroFault_cases hT.inv hT.zero h1 with ⟨rfl, rfl, hno⟩ |
    ⟨rfl, htakes, hmem, table, index, phys, pmm', hptr, hdz, htaken, rfl⟩
  · obtain ⟨⟨done₂, s₂⟩, h2, hlast⟩ := ok_bind hrest
    rcases handleStackFault_cases hT.inv hT.zero h2 with ⟨rfl, rfl, hno2⟩ |
      ⟨rfl, htakes, hmem, phys, pmm', htaken, hmap⟩
    · rcases handleWriteFault_cases hT.inv hT.zero hlast with ⟨rfl, rfl, hno3⟩ |
        ⟨rfl, htakes, table, index, hptr, hres⟩
      · refine ⟨fun _ => ?_, fun _ => ⟨nofun, fun _ _ _ => ⟨rfl, rfl⟩⟩⟩
        rintro (⟨h1, h2, -⟩ | ⟨-, -, h3, -⟩)
        · exact hno ⟨h1, h2⟩
        · exact hno3 h3
      rw [resolveWrite_sound_iff hT hptr hres]
      constructor
      · rintro hgood (⟨h1, h2, -⟩ | ⟨-, -, -, x, hx, hbad⟩)
        · exact hno ⟨h1, h2⟩
        · rw [hptr] at hx
          cases hx
          exact hbad hgood
      · intro hsound
        by_contra hbad
        exact hsound (.inr ⟨hno, hno2, htakes, _, hptr, hbad⟩)
    · cases hlast
      refine ⟨fun _ => ?_, fun _ => stack_sound hT htakes htaken hmap⟩
      rintro (⟨h1, h2, -⟩ | ⟨-, h2, -⟩)
      · exact hno ⟨h1, h2⟩
      · exact h2 ⟨htakes, hmem⟩
  · cases hrest
    rw [demandZero_sound_iff hT hptr hdz htaken]
    constructor
    · rintro huser (⟨-, -, x, hx, hbad⟩ | ⟨h1, -⟩)
      · rw [hptr] at hx
        cases hx
        rw [hbad] at huser
        cases huser
      · exact h1 ⟨htakes, hmem⟩
    · intro hsound
      by_contra hbad
      exact hsound (.inl ⟨htakes, hmem, _, hptr, Bool.eq_false_iff.mpr hbad⟩)

end Soundness

/-! ### The guard page of a stack -/

theorem tables_of_root {c : Config} {managed live : ℕ → ℕ} {s : State} {root : ℕ}
    {W : Set (ℕ × List ℕ)} (hW : Closed W) (honly : ∀ {r p}, (r, p) ∈ W → r = root)
    (hinv : Inv managed live s.pmm) (h0 : managed 0 = 0)
    (hfits : ∀ {p}, managed p ≠ 0 → p * pageSize < 2 ^ c.physBits) (hroot : IsFrame c root)
    (hlive : live (pfn root) ≠ 0) (hzero : ∀ i, s.mem root i = 0) :
    Tables c managed W live s := by
  have hend : ∀ {r p x}, (r, p) ∈ W → follow (next c s.mem) p r = some x →
      r = root ∧ p = [] ∧ x = root := by
    intro r p x hp hx
    obtain rfl := honly hp
    cases p with
    | nil => exact ⟨rfl, rfl, (Option.some.inj hx).symm⟩
    | cons i p =>
      rw [follow, next_of_zero (hzero _)] at hx
      cases hx
  refine ⟨hW, hinv, h0, hfits, ?_, ?_⟩
  · intro r r' p p' x hp hp' hx hx'
    obtain ⟨rfl, rfl, -⟩ := hend hp hx
    obtain ⟨rfl, rfl, -⟩ := hend hp' hx'
    exact ⟨rfl, rfl⟩
  · rintro x ⟨r, p, hp, hx⟩
    obtain ⟨-, -, rfl⟩ := hend hp hx
    exact ⟨hroot, hlive⟩

/-- A processor with four paging levels and 40 bits of physical address. -/
def fourLevels : Config where
  physBits := 40
  levels := 4
  supports2mb := true
  supports1gb := true
  supportsNx := true
  supportsWc := true
  kernelRoot := 0
  physBits_le := by decide
  levels_eq := .inl rfl

/-- The first page of a small memory as an empty root. -/
theorem tables_of_boot {pmm : Pmm.State} {root : ℕ} {s : State} {W : Set (ℕ × List ℕ)}
    (h1 : addSpans (Pmm.State.empty 4 64 false) [(0x10000, 0x40000)] = .ok pmm)
    (h2 : allocPageTable ⟨pmm, fun _ _ => 0, 0, []⟩ = .ok (root, s)) (hroot : root ≠ 0)
    (hW : Closed W) (honly : ∀ {r p}, (r, p) ∈ W → r = root) :
    ∃ managed live, Tables fourLevels managed W live (s.zeroPage root) := by
  have hinv := (addSpans_runInv (by decide) (by simp [uint64Max]) (by simp) h1).inv
  have hmanaged : ∀ {p}, managedTally false [(0x10000, 0x40000)] p ≠ 0 → 16 ≤ p ∧ p < 64 := by
    intro p hp
    obtain ⟨span, hspan, hin⟩ := managedTally_pos_iff.mp (Nat.pos_of_ne_zero hp)
    rw [mem_singleton] at hspan
    subst hspan
    have hlow : 0x10000 ≤ p * 4096 := hin.1
    have hhigh : (p + 1) * 4096 ≤ 0x40000 := hin.2
    omega
  have h0 : managedTally false [(0x10000, 0x40000)] 0 = 0 := by
    by_contra hne
    exact absurd (hmanaged hne).1 (by decide)
  have hfits : ∀ {p}, managedTally false [(0x10000, 0x40000)] p ≠ 0 →
      p * pageSize < 2 ^ fourLevels.physBits := by
    intro p hp
    have hlt := (hmanaged hp).2
    simp only [pageSize, fourLevels]
    omega
  obtain ⟨⟨phys, pmm'⟩, halloc, h2⟩ := ok_bind h2
  rcases alloc_page halloc hinv with ⟨rfl, -⟩ | htaken
  · cases h2
    exact absurd rfl hroot
  simp only [htaken.ne_zero, if_false] at h2
  cases h2
  have hfr : IsFrame fourLevels root := by
    have h := hfits (p := pfn root) (by rw [htaken.usable]; exact one_ne_zero)
    rw [pfn_mul_pageSize htaken.aligned] at h
    exact ⟨htaken.aligned, h⟩
  exact ⟨_, _, tables_of_root hW honly htaken.inv h0 hfits hfr
    (by rw [update_self]; exact one_ne_zero) fun i => by simp [State.zeroPage]⟩

/-- The same with a guard page, before and after it is mapped. -/
theorem tables_of_guard {pmm : Pmm.State} {root : ℕ} {s s' : State}
    (h1 : addSpans (Pmm.State.empty 4 64 false) [(0x10000, 0x40000)] = .ok pmm)
    (h2 : allocPageTable ⟨pmm, fun _ _ => 0, 0, []⟩ = .ok (root, s)) (hroot : root ≠ 0)
    (h3 : mapGuardPage fourLevels (s.zeroPage root) 0x7000 (user ||| nx) root = .ok s') :
    ∃ managed live live',
      Tables fourLevels managed (pathsTo fourLevels root 0x7008) live (s.zeroPage root) ∧
      Tables fourLevels managed (pathsTo fourLevels root 0x7008) live' s' := by
  obtain ⟨managed, live, hT⟩ := tables_of_boot h1 h2 hroot (closed_pathsTo fourLevels root 0x7008)
    fun {r p} hp => by
      obtain ⟨k, -, heq⟩ := hp
      exact (Prod.mk.inj heq).1
  have hpage : alignDown 0x7008 pageSize = 0x7000 := by decide
  obtain ⟨live', hmapped⟩ := hT.mapSoftwarePage hT.isFrame_root
    (by rw [← hpage, path_alignDown]; exact mem_pathsTo fourLevels root 0x7008 le_rfl)
    (by rw [← hpage, path_alignDown]; exact not_mem_pathsTo fourLevels root 0x7008 _) h3
  exact ⟨managed, live, live', hT, hmapped.tables⟩

/-- A task with a stack of two pages, the lower one its guard page. -/
def stackTask (root : ℕ) : Task where
  cr3 := root
  abi := .user64
  vmaList := [⟨1, 0x7000, 0x9000, 0x8000, vmaRead ||| vmaWrite ||| vmaGrowsdown, .stack⟩]
  heapVma := none
  stackVma := some 1
  programBreak := 0
  mmapHint := 0

/-- A user write to the guard page is reported as resolved, with the entry still absent. -/
theorem guard_page_write : ∃ managed live s s' root,
    Tables fourLevels managed (pathsTo fourLevels root 0x7008) live s ∧
      handleFault fourLevels s (stackTask root) 0x7008 (pfWrite ||| pfUser) = .ok (true, s') ∧
      ¬FaultSound fourLevels s s' (stackTask root) 0x7008 (pfWrite ||| pfUser) true := by
  have heval : (do
      let pmm ← addSpans (Pmm.State.empty 4 64 false) [(0x10000, 0x40000)]
      let r ← allocPageTable ⟨pmm, fun _ _ => 0, 0, []⟩
      let s ← mapGuardPage fourLevels (r.2.zeroPage r.1) 0x7000 (user ||| nx) r.1
      let x ← handleFault fourLevels s (stackTask r.1) 0x7008 (pfWrite ||| pfUser)
      pure (r.1, x.1, (getPtePtr fourLevels x.2 0x7008 r.1).all fun p =>
        !(x.2.mem p.1 p.2).has present) : Except String (ℕ × Bool × Bool)).toOption =
      some (0x30000, true, true) := by
    decide +kernel
  obtain ⟨pmm, h1, h⟩ := ok_bind (ok_of_toOption heval)
  obtain ⟨⟨root, s1⟩, h2, h⟩ := ok_bind h
  obtain ⟨s2, h3, h⟩ := ok_bind h
  obtain ⟨⟨done, s3⟩, h4, h⟩ := ok_bind h
  obtain ⟨hroot, h⟩ := Prod.mk.inj (Except.ok.inj h)
  obtain ⟨rfl, habsent⟩ := Prod.mk.inj h
  obtain ⟨managed, -, live, -, hT⟩ := tables_of_guard h1 h2 (hroot.trans_ne (by decide)) h3
  refine ⟨managed, live, s2, s3, root, hT, h4, fun hsound => ?_⟩
  obtain ⟨x, hx, hperm⟩ := hsound.1 rfl
  rw [show (stackTask root).cr3 = root from rfl] at hx
  rw [hx, Option.all_some, hperm.1] at habsent
  cases habsent

/-- The write to the guard page meets the condition for an unsound fault. -/
theorem handleFault_sound_iff_guard : ∃ managed live s s' root,
    Tables fourLevels managed (pathsTo fourLevels root 0x7008) live s ∧
      handleFault fourLevels s (stackTask root) 0x7008 (pfWrite ||| pfUser) = .ok (true, s') ∧
      UnsoundFault fourLevels s (stackTask root) 0x7008 (pfWrite ||| pfUser) := by
  obtain ⟨managed, live, s, s', root, hT, h, hno⟩ := guard_page_write
  refine ⟨managed, live, s, s', root, hT, h, ?_⟩
  by_contra hun
  exact hno ((handleFault_sound_iff hT h).mpr hun)

/-- Not every fault is handled soundly. -/
theorem guard_page_reported_resolved :
    ¬∀ (c : Config) (managed live : ℕ → ℕ) (s s' : State) (t : Task) (addr : ℕ)
      (err : BitVec 64) (done : Bool), Tables c managed (pathsTo c t.cr3 addr) live s →
      handleFault c s t addr err = .ok (done, s') → FaultSound c s s' t addr err done := by
  intro hall
  obtain ⟨managed, live, s, s', root, hT, h, hno⟩ := guard_page_write
  exact hno (hall _ managed live s s' (stackTask root) _ _ true hT h)

end RHKernel.Vmm
