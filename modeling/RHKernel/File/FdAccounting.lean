import Mathlib.Algebra.Order.BigOperators.Group.Finset
import RHKernel.File.Fd
import RHKernel.Lib.Sharing
import RHKernel.Lib.Step
import RHKernel.Lib.Update

/-!
# Accounting of file descriptors

Between system calls a descriptor is marked in the bitmap exactly when its slot is filled, and the
count of an open file is the number of slots that refer to it, over all tasks; the file exists
exactly as long as there is one.

The count has 32 bits and is not checked, so that many clones make it wrap, and `alloc_fd` may
return a descriptor that is negative as an `int`, whose mark is then forgotten. As long as neither
happens the accounting is right along every run (`accounted_of_run`).
-/

namespace RHKernel.Fd

open Bits Finset Function Option Relation Sharing

/-- A bit of the bitmap, also beyond the capacity. -/
def Table.rawBit (t : Table) (fd : ℕ) : Bool := (t.fdBitmap (fd / 64)).getLsbD (fd % 64)

/-- The marks agree with the slots, nothing lies beyond the capacity, and only descriptors that
fit into an `int` are filled. -/
structure TableOk (t : Table) : Prop where
  bit : ∀ fd, t.rawBit fd = (t.fdTable fd).isSome
  inside : ∀ fd, (t.fdTable fd).isSome → fd < t.fdCapacity
  small : ∀ fd, (t.fdTable fd).isSome → fd < 2 ^ 31
  cap_ge : initialFdCapacity ≤ t.fdCapacity
  cap_le : t.fdCapacity ≤ uint32Max

section OneTable

variable {t t' : Table} {n needed fuel cap fd capacity hint bit f : ℕ}

theorem TableOk.fdBitGet (h : TableOk t) (fd : ℕ) : t.fdBitGet fd = (t.fdTable fd).isSome := by
  rw [Table.fdBitGet, ← h.bit fd, Table.rawBit]
  by_cases hlt : fd < t.fdCapacity
  · rw [decide_eq_true hlt, Bool.true_and]
  · have hnone := mt (h.inside fd) hlt
    rw [← h.bit fd, Table.rawBit, Bool.not_eq_true] at hnone
    rw [hnone, Bool.and_false]

theorem rawBit_fdBitSet (h : n < t.fdCapacity) (fd : ℕ) :
    (t.fdBitSet n).rawBit fd = (decide (fd = n) || t.rawBit fd) := by
  rw [Table.fdBitSet, if_pos h]
  dsimp only [Table.rawBit]
  by_cases hw : fd / 64 = n / 64
  · rw [hw, update_self, BitVec.getLsbD_or, BitVec.getLsbD_twoPow, Bool.or_comm]
    congr 1
    have hlt : n % 64 < 64 := Nat.mod_lt _ (by decide)
    rw [decide_eq_true hlt, Bool.true_and, decide_eq_decide]
    omega
  · rw [update_of_ne hw, decide_eq_false (fun heq => hw (by rw [heq])), Bool.false_or]

theorem rawBit_fdBitClear (h : n < t.fdCapacity) (fd : ℕ) :
    (t.fdBitClear n).rawBit fd = (!decide (fd = n) && t.rawBit fd) := by
  rw [Table.fdBitClear, if_pos h]
  dsimp only [Table.rawBit]
  have hlt : n % 64 < 64 := Nat.mod_lt _ (by decide)
  have hfd : fd % 64 < 64 := Nat.mod_lt _ (by decide)
  by_cases hw : fd / 64 = n / 64
  · rw [hw, update_self, BitVec.getLsbD_and, BitVec.getLsbD_not, BitVec.getLsbD_twoPow,
      Bool.and_comm, decide_eq_true hlt, decide_eq_true hfd, Bool.true_and, Bool.true_and]
    congr 2
    rw [decide_eq_decide]
    omega
  · rw [update_of_ne hw, decide_eq_false (fun heq => hw (by rw [heq])), Bool.not_false,
      Bool.true_and]

@[simp] theorem fdTable_fdBitSet (t : Table) (n : ℕ) : (t.fdBitSet n).fdTable = t.fdTable := by
  unfold Table.fdBitSet
  split <;> rfl

@[simp] theorem fdCapacity_fdBitSet (t : Table) (n : ℕ) :
    (t.fdBitSet n).fdCapacity = t.fdCapacity := by
  unfold Table.fdBitSet
  split <;> rfl

@[simp] theorem fdTable_fdBitClear (t : Table) (n : ℕ) : (t.fdBitClear n).fdTable = t.fdTable := by
  unfold Table.fdBitClear
  split <;> rfl

@[simp] theorem fdCapacity_fdBitClear (t : Table) (n : ℕ) :
    (t.fdBitClear n).fdCapacity = t.fdCapacity := by
  unfold Table.fdBitClear
  split <;> rfl

@[simp] theorem fdTable_setFile (t : Table) (n : ℕ) (file : Option ℕ) :
    (t.setFile n file).fdTable = update t.fdTable n file := rfl

@[simp] theorem fdCapacity_setFile (t : Table) (n : ℕ) (file : Option ℕ) :
    (t.setFile n file).fdCapacity = t.fdCapacity := rfl

@[simp] theorem rawBit_setFile (t : Table) (n : ℕ) (file : Option ℕ) (fd : ℕ) :
    (t.setFile n file).rawBit fd = t.rawBit fd := rfl

@[simp] theorem fdTable_withHint (t : Table) (hint : ℕ) :
    (t.withHint hint).fdTable = t.fdTable := rfl

@[simp] theorem fdCapacity_withHint (t : Table) (hint : ℕ) :
    (t.withHint hint).fdCapacity = t.fdCapacity := rfl

@[simp] theorem rawBit_withHint (t : Table) (hint fd : ℕ) :
    (t.withHint hint).rawBit fd = t.rawBit fd := rfl

theorem TableOk.withHint (h : TableOk t) (hint : ℕ) : TableOk (t.withHint hint) := { h with }

theorem le_growCapacity (needed fuel cap : ℕ) : cap ≤ growCapacity needed fuel cap := by
  induction fuel generalizing cap with
  | zero => exact le_rfl
  | succ fuel ih =>
    rw [growCapacity]
    split_ifs with hlt
    · exact hlt.le
    · exact le_trans (by omega) (ih (cap * 2))
    · exact le_rfl

/-- Doubling often enough reaches the capacity asked for. -/
theorem needed_le_growCapacity (h : needed ≤ cap * 2 ^ fuel) :
    needed ≤ growCapacity needed fuel cap := by
  induction fuel generalizing cap with
  | zero => rwa [pow_zero, mul_one] at h
  | succ fuel ih =>
    rw [growCapacity]
    split_ifs with hlt
    · exact le_rfl
    · exact ih (by rwa [mul_assoc, ← pow_succ'])
    · exact Nat.le_of_not_lt hlt

theorem lt_fdBitmapWords (h : fd < capacity) : fd / 64 < fdBitmapWords capacity := by
  unfold fdBitmapWords
  omega

/-- Words and slots that are copied up to the capacity are all copied. -/
theorem TableOk.copy (h : TableOk t) (hle : t.fdCapacity ≤ cap)
    (hcap : cap ≤ uint32Max) :
    TableOk ⟨fun i => if i < t.fdCapacity then t.fdTable i else none,
      fun w => if w < fdBitmapWords t.fdCapacity then t.fdBitmap w else 0, cap, hint⟩ ∧
    (fun i => if i < t.fdCapacity then t.fdTable i else none) = t.fdTable := by
  have htable : (fun i => if i < t.fdCapacity then t.fdTable i else none) = t.fdTable := by
    funext i
    split_ifs with hi
    · rfl
    · exact (not_isSome_iff_eq_none.mp (mt (h.inside i) hi)).symm
  refine ⟨?_, htable⟩
  rw [htable]
  refine ⟨fun fd => ?_, fun fd hfd => (h.inside fd hfd).trans_le hle, h.small,
    h.cap_ge.trans hle, hcap⟩
  rw [← h.bit fd]
  dsimp only [Table.rawBit]
  split_ifs with hw
  · rfl
  · -- a bit in a later word is beyond the capacity
    have hclear := h.bit fd
    rw [not_isSome_iff_eq_none.mp (mt (h.inside fd) (mt lt_fdBitmapWords hw))] at hclear
    exact (BitVec.getLsbD_zero).trans hclear.symm

theorem TableOk.expandTable {alloc : Bool} (h : TableOk t)
    (hx : expandTable alloc needed t = some t') :
    TableOk t' ∧ t'.fdTable = t.fdTable ∧ (needed ≤ 2 ^ 32 → needed ≤ t'.fdCapacity) := by
  unfold Fd.expandTable at hx
  have hne : t.fdCapacity ≠ 0 := by
    have := h.cap_ge
    unfold initialFdCapacity at this
    omega
  dsimp only at hx
  generalize hhint : (if _ < t.nextFdHint then _ else t.nextFdHint) = hint at hx
  split_ifs at hx with hle hmax halloc
  · obtain rfl := some.inj hx
    exact ⟨h, rfl, fun _ => hle⟩
  obtain rfl := some.inj hx
  obtain ⟨hok, htable⟩ := h.copy (le_growCapacity needed 32 t.fdCapacity) (Nat.le_of_not_lt hmax)
  exact ⟨hok, htable, fun hn => needed_le_growCapacity
    (hn.trans (Nat.le_mul_of_pos_left _ (Nat.pos_of_ne_zero hne)))⟩

theorem findClearBit_spec {word : BitVec 64} (h : findClearBit word = some bit) :
    bit < 64 ∧ word.getLsbD bit = false := by
  unfold findClearBit at h
  split_ifs at h with hz
  obtain rfl := some.inj h
  have hbit : (~~~word).toNat.testBit (ctz (~~~word).toNat) = true :=
    testBit_ctz (fun h0 => hz (BitVec.eq_of_toNat_eq h0)) (~~~word).isLt
  have hget : (~~~word).getLsbD (ctz (~~~word).toNat) = true := hbit
  rw [BitVec.getLsbD_not, Bool.and_eq_true, decide_eq_true_eq, Bool.not_eq_true'] at hget
  exact hget

/-- What the search finds is a descriptor of the table without a mark. -/
theorem scanWords_spec {ws : List ℕ} (h : scanWords t ws = some fd) :
    fd < t.fdCapacity ∧ t.rawBit fd = false := by
  induction ws with
  | nil => cases h
  | cons w rest ih =>
    rw [scanWords] at h
    split at h
    · exact ih h
    rename_i bit hbit
    split_ifs at h with hcap
    · exact ih h
    obtain rfl := some.inj h
    obtain ⟨hlt, hclear⟩ := findClearBit_spec hbit
    refine ⟨Nat.lt_of_not_le hcap, ?_⟩
    have hdiv : (w * 64 + bit) / 64 = w := by omega
    have hmod : (w * 64 + bit) % 64 = bit := by omega
    rw [Table.rawBit, hdiv, hmod]
    split_ifs at hclear with hlast
    · rw [BitVec.getLsbD_or, Bool.or_eq_false_iff] at hclear
      exact hclear.1
    · exact hclear

/-- A table with one mark too many: descriptor `n` is reserved. -/
structure Reserved (t : Table) (n : ℕ) (t' : Table) : Prop where
  table : t'.fdTable = t.fdTable
  free : t.fdTable n = none
  lt : n < t'.fdCapacity
  bit : ∀ fd, t'.rawBit fd = (decide (fd = n) || (t.fdTable fd).isSome)
  inside : ∀ fd, (t.fdTable fd).isSome → fd < t'.fdCapacity
  cap_ge : initialFdCapacity ≤ t'.fdCapacity
  cap_le : t'.fdCapacity ≤ uint32Max

theorem TableOk.reserve (h : TableOk t) (hfree : t.fdTable n = none) (hlt : n < t.fdCapacity) :
    Reserved t n (t.fdBitSet n) where
  table := fdTable_fdBitSet t n
  free := hfree
  lt := by rwa [fdCapacity_fdBitSet]
  bit := fun fd => by rw [rawBit_fdBitSet hlt, h.bit fd]
  inside := by
    rw [fdCapacity_fdBitSet]
    exact h.inside
  cap_ge := by
    rw [fdCapacity_fdBitSet]
    exact h.cap_ge
  cap_le := by
    rw [fdCapacity_fdBitSet]
    exact h.cap_le

theorem Reserved.withHint (h : Reserved t n t') (hint : ℕ) : Reserved t n (t'.withHint hint) :=
  { h with }

theorem Reserved.setFile (h : Reserved t n t') (hok : TableOk t) (hn : n < 2 ^ 31) :
    TableOk (t'.setFile n (some f)) := by
  -- a filled slot is `n` or was filled before
  have hfill : ∀ fd, (update t'.fdTable n (some f) fd).isSome =
      (decide (fd = n) || (t.fdTable fd).isSome) := by
    intro fd
    rw [h.table]
    by_cases hfd : fd = n
    · rw [hfd, update_self, decide_eq_true rfl, Bool.true_or, isSome_some]
    · rw [update_of_ne hfd, decide_eq_false hfd, Bool.false_or]
  have hcases : ∀ fd, (update t'.fdTable n (some f) fd).isSome →
      fd = n ∨ (t.fdTable fd).isSome := by
    intro fd hfd
    rw [hfill, Bool.or_eq_true, decide_eq_true_eq] at hfd
    exact hfd
  refine ⟨fun fd => ?_, fun fd hfd => ?_, fun fd hfd => ?_, h.cap_ge, h.cap_le⟩
  · rw [rawBit_setFile, fdTable_setFile, hfill, h.bit]
  · rcases hcases fd hfd with rfl | hold
    · exact h.lt
    · exact h.inside fd hold
  · rcases hcases fd hfd with rfl | hold
    · exact hn
    · exact hok.small fd hold

theorem Reserved.fdBitClear (h : Reserved t n t')
    (hsmall : ∀ fd, (t.fdTable fd).isSome → fd < 2 ^ 31) :
    TableOk (t'.fdBitClear n) ∧ (t'.fdBitClear n).fdTable = t.fdTable := by
  have htable : (t'.fdBitClear n).fdTable = t.fdTable := (fdTable_fdBitClear t' n).trans h.table
  refine ⟨⟨fun fd => ?_, ?_, ?_, ?_, ?_⟩, htable⟩
  · rw [rawBit_fdBitClear h.lt, h.bit, htable]
    by_cases hfd : fd = n
    · rw [hfd, h.free, decide_eq_true rfl]
      rfl
    · rw [decide_eq_false hfd, Bool.not_false, Bool.true_and, Bool.false_or]
  · rw [htable, fdCapacity_fdBitClear]
    exact h.inside
  · rw [htable]
    exact hsmall
  · rw [fdCapacity_fdBitClear]
    exact h.cap_ge
  · rw [fdCapacity_fdBitClear]
    exact h.cap_le

/-- A filled descriptor is emptied: between the two writes it is one that is reserved. -/
theorem TableOk.clear (h : TableOk t) (hf : t.fdTable n = some f) :
    TableOk ((t.setFile n none).fdBitClear n) := by
  have hold : ∀ fd, (update t.fdTable n none fd).isSome → (t.fdTable fd).isSome := by
    intro fd hfd
    by_cases hn : fd = n
    · rw [hn, hf, isSome_some]
    · rwa [update_of_ne hn] at hfd
  have hres : Reserved (t.setFile n none) n (t.setFile n none) := by
    refine ⟨rfl, update_self _ _ _, h.inside n (by rw [hf, isSome_some]), fun fd => ?_,
      fun fd hfd => h.inside fd (hold fd hfd), h.cap_ge, h.cap_le⟩
    rw [rawBit_setFile, h.bit, fdTable_setFile]
    by_cases hn : fd = n
    · rw [hn, hf, decide_eq_true rfl, Bool.true_or, isSome_some]
    · rw [update_of_ne hn, decide_eq_false hn, Bool.false_or]
  exact (hres.fdBitClear fun fd hfd => h.small fd (hold fd hfd)).1

/-- `alloc_fd` fails and changes no slot, or reserves a free descriptor. -/
theorem TableOk.allocFd {alloc : Bool} {fd : ℤ} (h : TableOk t)
    (hx : allocFd alloc t = (fd, t')) :
    (fd = -1 ∧ TableOk t' ∧ t'.fdTable = t.fdTable) ∨
      ∃ n t1, fd = toInt n ∧ n ≤ t.fdCapacity ∧ TableOk t1 ∧ t1.fdTable = t.fdTable ∧
        Reserved t1 n t' := by
  unfold Fd.allocFd at hx
  -- the table is never smaller than the initial one
  rw [Fd.expandTable, if_pos h.cap_ge] at hx
  dsimp only at hx
  generalize ht0 : (if t.fdCapacity < t.nextFdHint then t.withHint t.fdCapacity else t) = t0 at hx
  have hok : TableOk t0 ∧ t0.fdTable = t.fdTable ∧ t0.fdCapacity = t.fdCapacity := by
    rw [← ht0]
    split_ifs
    · exact ⟨h.withHint _, rfl, rfl⟩
    · exact ⟨h, rfl, rfl⟩
  obtain ⟨hok, htable, hcap⟩ := hok
  have hne : t0.fdCapacity ≠ 0 := by
    have := hok.cap_ge
    unfold initialFdCapacity at this
    omega
  split at hx
  · rename_i n hscan
    obtain ⟨hlt, hclear⟩ := scanWords_spec hscan
    obtain ⟨rfl, rfl⟩ := Prod.mk.inj hx
    have hfree : t0.fdTable n = none := by
      rw [hok.bit n] at hclear
      exact not_isSome_iff_eq_none.mp (by rw [hclear]; exact Bool.false_ne_true)
    exact .inr ⟨n, t0, rfl, (hcap ▸ hlt).le, hok, htable, (hok.reserve hfree hlt).withHint _⟩
  rw [if_neg hne] at hx
  split_ifs at hx with hmax
  · obtain ⟨rfl, rfl⟩ := Prod.mk.inj hx
    exact .inl ⟨rfl, hok, htable⟩
  split at hx
  · obtain ⟨rfl, rfl⟩ := Prod.mk.inj hx
    exact .inl ⟨rfl, hok, htable⟩
  rename_i t1 hexp
  obtain ⟨rfl, rfl⟩ := Prod.mk.inj hx
  obtain ⟨hok1, htable1, hneeded⟩ := hok.expandTable hexp
  have hfree : t1.fdTable t0.fdCapacity = none := by
    rw [htable1]
    exact not_isSome_iff_eq_none.mp (mt (hok.inside t0.fdCapacity) (lt_irrefl t0.fdCapacity))
  have hlt := hneeded (by unfold uint32Max at hmax; omega)
  exact .inr ⟨_, t1, rfl, hcap.le, hok1, htable1.trans htable, (hok1.reserve hfree hlt).withHint _⟩

theorem toInt_of_lt (h : n < 2 ^ 31) : toInt n = n := by
  unfold toInt
  rw [Int.bmod_eq_of_le] <;> omega

theorem getFile_eq_some {fd : ℤ} (h : getFile fd t = some f) :
    0 ≤ fd ∧ fd.toNat < t.fdCapacity ∧ t.fdTable fd.toNat = some f := by
  unfold getFile at h
  split_ifs at h with hbad
  rw [not_or] at hbad
  exact ⟨Int.not_lt.mp hbad.1, Nat.lt_of_not_le hbad.2, h⟩

end OneTable

/-! ### The counts -/

/-- The open files exist and are counted as `count` says. -/
def FilesOk (files : ℕ → Option OpenFile) (count : ℕ → ℕ) : Prop :=
  ∀ f, (files f).map OpenFile.refCount = if count f = 0 then none else some (count f)

/-- The slots of one table that refer to a file. -/
def Table.slots (t : Table) (f : ℕ) : ℕ := holders (range (2 ^ 32)) t.fdTable f

/-- The slots of all tasks that refer to a file. -/
def State.slots (s : State) (f : ℕ) : ℕ :=
  ∑ task ∈ range s.taskCount, (s.tasks task).slots f

section Counts

variable {files : ℕ → Option OpenFile} {count : ℕ → ℕ} {s s' : State} {f n task : ℕ} {t : Table}

theorem FilesOk.exists_file (h : FilesOk files count) (hf : count f ≠ 0) :
    ∃ file, files f = some file ∧ file.refCount = count f := by
  have hmap := h f
  rw [if_neg hf, map_eq_some_iff] at hmap
  exact hmap

theorem FilesOk.set (h : FilesOk files count) {file : Option OpenFile}
    (hfile : file.map OpenFile.refCount = if n = 0 then none else some n) :
    FilesOk (update files f file) (update count f n) := by
  intro g
  by_cases hg : g = f
  · rw [hg, update_self, update_self]
    exact hfile
  · rw [update_of_ne hg, update_of_ne hg]
    exact h g

/-- A file that is counted is counted once more, if the count has room. -/
theorem FilesOk.retainFile (h : FilesOk s.files count) (hf : count f ≠ 0)
    (hroom : count f + 1 < 2 ^ 32) :
    FilesOk (s.retainFile f).files (update count f (count f + 1)) := by
  obtain ⟨file, hfile, hcount⟩ := h.exists_file hf
  rw [State.retainFile, hfile]
  refine h.set ?_
  rw [if_neg (Nat.succ_ne_zero _), map_some, hcount, Nat.mod_eq_of_lt hroom]

/-- A file is counted once less, and freed with the last slot. -/
theorem FilesOk.dropFile (h : FilesOk s.files count) (hf : count f ≠ 0) :
    FilesOk (s.dropFile f).2.files (update count f (count f - 1)) := by
  obtain ⟨file, hfile, hcount⟩ := h.exists_file hf
  rw [State.dropFile, hfile]
  dsimp only
  rw [hcount]
  split_ifs with hlast
  · refine h.set ?_
    rw [if_pos hlast, map_none]
  · refine h.set ?_
    rw [if_neg hlast, map_some]

@[simp] theorem tasks_retainFile (s : State) (f : ℕ) : (s.retainFile f).tasks = s.tasks := by
  unfold State.retainFile
  split <;> rfl

@[simp] theorem taskCount_retainFile (s : State) (f : ℕ) :
    (s.retainFile f).taskCount = s.taskCount := by
  unfold State.retainFile
  split <;> rfl

@[simp] theorem nextFile_retainFile (s : State) (f : ℕ) :
    (s.retainFile f).nextFile = s.nextFile := by
  unfold State.retainFile
  split <;> rfl

theorem frame_dropFile (s : State) (f : ℕ) : (s.dropFile f).2.tasks = s.tasks ∧
    (s.dropFile f).2.taskCount = s.taskCount ∧ (s.dropFile f).2.nextFile = s.nextFile := by
  unfold State.dropFile
  split
  · exact ⟨rfl, rfl, rfl⟩
  · split_ifs <;> exact ⟨rfl, rfl, rfl⟩

theorem slots_setFile (t : Table) (hn : n < 2 ^ 32) (file : Option ℕ) (f : ℕ) :
    (t.setFile n file).slots f + (if t.fdTable n = some f then 1 else 0) =
      t.slots f + (if file = some f then 1 else 0) := by
  have hrest : ∀ b ∈ range (2 ^ 32), b ≠ n →
      update t.fdTable n file b = t.fdTable b :=
    fun b _ hb => update_of_ne hb _ _
  have h := holders_update (mem_range.mpr hn) hrest f
  rwa [update_self] at h

theorem slots_congr (htasks : s'.tasks = s.tasks)
    (hcount : s'.taskCount = s.taskCount) : s'.slots = s.slots := by
  funext f
  rw [State.slots, State.slots, htasks, hcount]

variable (ht : task < s.taskCount)

include ht

theorem slots_setTask (t : Table) (f : ℕ) :
    (s.setTask task t).slots f + (s.tasks task).slots f = s.slots f + t.slots f := by
  have hmem : task ∈ range s.taskCount := mem_range.mpr ht
  have hrest : ∀ i ∈ (range s.taskCount).erase task,
      ((s.setTask task t).tasks i).slots f = (s.tasks i).slots f := by
    intro i hi
    exact congrArg (Table.slots · f) (update_of_ne (ne_of_mem_erase hi) _ _)
  have hself : (s.setTask task t).tasks task = t := update_self _ _ _
  unfold State.slots
  rw [← add_sum_erase _ _ hmem, show (s.setTask task t).taskCount = s.taskCount from rfl,
    ← add_sum_erase _ _ hmem, sum_congr rfl hrest, hself]
  omega

theorem slots_setTask_same (h : t.fdTable = (s.tasks task).fdTable) :
    (s.setTask task t).slots = s.slots := by
  funext f
  have hset := slots_setTask ht t f
  rw [Table.slots, Table.slots, h] at hset
  omega

theorem slots_setTask_slot (hn : n < 2 ^ 32) {file : Option ℕ}
    (h : t.fdTable = update (s.tasks task).fdTable n file) (f : ℕ) :
    (s.setTask task t).slots f + (if (s.tasks task).fdTable n = some f then 1 else 0) =
      s.slots f + (if file = some f then 1 else 0) := by
  have hset := slots_setTask ht t f
  have hslot := slots_setFile (s.tasks task) hn file f
  rw [Table.slots, fdTable_setFile, ← h, ← Table.slots] at hslot
  omega

theorem slots_setTask_clear (hn : n < 2 ^ 32) (hold : (s.tasks task).fdTable n = some f)
    (h : t.fdTable = update (s.tasks task).fdTable n none) :
    (s.setTask task t).slots = update s.slots f (s.slots f - 1) := by
  have hback : s.slots = update (s.setTask task t).slots f ((s.setTask task t).slots f + 1) := by
    funext g
    have hset := slots_setTask_slot ht hn h g
    rw [if_neg (some_ne_none g).symm, hold] at hset
    rw [update_succ_apply, hset, add_zero]
  rw [hback, update_self, Nat.add_sub_cancel, update_idem, update_eq_self]

theorem slots_setTask_fill (hn : n < 2 ^ 32) (hold : (s.tasks task).fdTable n = none)
    (h : t.fdTable = update (s.tasks task).fdTable n (some f)) :
    (s.setTask task t).slots = update s.slots f (s.slots f + 1) := by
  funext g
  have hset := slots_setTask_slot ht hn h g
  rw [hold, if_neg (some_ne_none g).symm, add_zero] at hset
  rw [update_succ_apply, hset]

omit ht

theorem slots_addTask (s : State) (t : Table) (f : ℕ) :
    ({ s.setTask s.taskCount t with taskCount := s.taskCount + 1 } : State).slots f =
      s.slots f + t.slots f := by
  have hself : (s.setTask s.taskCount t).tasks s.taskCount = t := update_self _ _ _
  have hrest : ∀ i ∈ range s.taskCount,
      ((s.setTask s.taskCount t).tasks i).slots f = (s.tasks i).slots f := by
    intro i hi
    exact congrArg (Table.slots · f) (update_of_ne (ne_of_lt (mem_range.mp hi)) _ _)
  unfold State.slots
  rw [sum_range_succ, sum_congr rfl hrest, hself]

theorem slots_ne_zero (ht : task < s.taskCount) (hn : n < 2 ^ 32)
    (h : (s.tasks task).fdTable n = some f) : s.slots f ≠ 0 := by
  have hpos : 0 < (s.tasks task).slots f := holders_pos_iff.mpr ⟨n, mem_range.mpr hn, h⟩
  have hle : (s.tasks task).slots f ≤ s.slots f :=
    single_le_sum (f := fun i => (s.tasks i).slots f) (fun _ _ => Nat.zero_le _) (mem_range.mpr ht)
  omega

end Counts

/-! ### What every operation keeps -/

/-- The tables are right, the files are counted, and later numbers are unused. -/
structure Inv (s : State) : Prop where
  tables : ∀ task < s.taskCount, TableOk (s.tasks task)
  files : FilesOk s.files s.slots
  fresh : ∀ f, s.nextFile ≤ f → s.files f = none

section Ops

variable {s s' : State} {task n f next i : ℕ} {t t' : Table} {count : ℕ → ℕ}

theorem Inv.tables_update (h : Inv s) (ht : TableOk t) :
    ∀ i < s.taskCount, TableOk (update s.tasks task t i) := by
  exact update_elim (fun _ => ht) fun i _ => h.tables i

theorem Inv.setTask (h : Inv s) (htask : task < s.taskCount) (ht : TableOk t)
    (hsame : t.fdTable = (s.tasks task).fdTable) : Inv (s.setTask task t) where
  tables := h.tables_update ht
  files := by
    rw [slots_setTask_same htask hsame]
    exact h.files
  fresh := h.fresh

theorem Inv.slot_lt (h : Inv s) (htask : task < s.taskCount)
    (hf : (s.tasks task).fdTable n = some f) : n < 2 ^ 32 := by
  have := (h.tables task htask).small n (by rw [hf]; rfl)
  omega

theorem fresh_update {files : ℕ → Option OpenFile} {file : Option OpenFile}
    (h : ∀ g, next ≤ g → files g = none) (hf : f < next) (g : ℕ) (hg : next ≤ g) :
    update files f file g = none := by
  rw [update_of_ne (by omega)]
  exact h g hg

theorem FilesOk.lt_next {files : ℕ → Option OpenFile} (h : FilesOk files count)
    (hfresh : ∀ g, next ≤ g → files g = none) (hf : count f ≠ 0) : f < next := by
  obtain ⟨file, hfile, -⟩ := h.exists_file hf
  by_contra hle
  rw [hfresh f (Nat.le_of_not_lt hle)] at hfile
  cases hfile

theorem Inv.file_lt (h : Inv s) (hf : s.slots f ≠ 0) : f < s.nextFile := h.files.lt_next h.fresh hf

theorem fresh_dropFile (h : ∀ g, s.nextFile ≤ g → s.files g = none) (hf : f < s.nextFile) (g : ℕ)
    (hg : s.nextFile ≤ g) : (s.dropFile f).2.files g = none := by
  unfold State.dropFile
  split
  · exact h g hg
  · split_ifs
    · exact fresh_update h hf g hg
    · exact fresh_update h hf g hg

theorem fresh_retainFile (h : ∀ g, s.nextFile ≤ g → s.files g = none) (hf : f < s.nextFile) (g : ℕ)
    (hg : s.nextFile ≤ g) : (s.retainFile f).files g = none := by
  unfold State.retainFile
  split
  · exact h g hg
  · exact fresh_update h hf g hg

/-- The files have been counted anew and nothing else has changed. -/
structure Recounted (s : State) (count : ℕ → ℕ) (s' : State) : Prop where
  files : FilesOk s'.files count
  tasks : s'.tasks = s.tasks
  taskCount : s'.taskCount = s.taskCount
  nextFile : s'.nextFile = s.nextFile
  fresh : ∀ f, s'.nextFile ≤ f → s'.files f = none

theorem Recounted.retainFile (h : Recounted s count s') (hf : count f ≠ 0)
    (hroom : count f + 1 < 2 ^ 32) :
    Recounted s (update count f (count f + 1)) (s'.retainFile f) where
  files := h.files.retainFile hf hroom
  tasks := (tasks_retainFile s' f).trans h.tasks
  taskCount := (taskCount_retainFile s' f).trans h.taskCount
  nextFile := (nextFile_retainFile s' f).trans h.nextFile
  fresh := fun g hg => fresh_retainFile h.fresh (h.files.lt_next h.fresh hf) g
    (nextFile_retainFile s' f ▸ hg)

theorem Recounted.dropFile (h : Recounted s count s') (hf : count f ≠ 0) :
    Recounted s (update count f (count f - 1)) (s'.dropFile f).2 := by
  obtain ⟨htasks, hcount, hnext⟩ := frame_dropFile s' f
  exact ⟨h.files.dropFile hf, htasks.trans h.tasks, hcount.trans h.taskCount,
    hnext.trans h.nextFile, fun g hg => fresh_dropFile h.fresh (h.files.lt_next h.fresh hf) g
      (hnext ▸ hg)⟩

/-- The accounting is right again if the files are now counted as the slots are. -/
theorem Recounted.inv (h : Recounted s count s') (htables : ∀ i < s.taskCount, TableOk (s.tasks i))
    (hcount : s.slots = count) : Inv s' := by
  refine ⟨?_, ?_, h.fresh⟩
  · rw [h.tasks, h.taskCount]
    exact htables
  · rw [slots_congr h.tasks h.taskCount, hcount]
    exact h.files

theorem closeFd_spec {fd : ℤ} (hget : getFile fd (s.tasks task) = some f) :
    ∃ t, (closeFd s task fd).1 = 0 ∧
      (closeFd s task fd).2.2 = ((s.setTask task t).dropFile f).2 ∧
      t.fdTable = update (s.tasks task).fdTable fd.toNat none ∧
      t.fdCapacity = (s.tasks task).fdCapacity ∧
      (TableOk (s.tasks task) → TableOk t) := by
  obtain ⟨-, -, hf⟩ := getFile_eq_some hget
  unfold closeFd
  rw [hget]
  refine ⟨_, rfl, rfl, ?_, ?_, fun hok => ?_⟩
  · split_ifs <;> simp
  · split_ifs <;> simp
  · split_ifs
    · exact (hok.clear hf).withHint _
    · exact hok.clear hf

theorem closeFd_none {fd : ℤ} (hget : getFile fd (s.tasks task) = none) :
    closeFd s task fd = (-1, none, s) := by
  unfold closeFd
  rw [hget]

theorem Inv.closeFd (h : Inv s) (htask : task < s.taskCount) (fd : ℤ) :
    Inv (closeFd s task fd).2.2 ∧ (Fd.closeFd s task fd).2.2.taskCount = s.taskCount := by
  rcases hget : getFile fd (s.tasks task) with _ | f
  · rw [closeFd_none hget]
    exact ⟨h, rfl⟩
  obtain ⟨t, -, hs, htable, -, hok⟩ := closeFd_spec hget
  obtain ⟨-, -, hf⟩ := getFile_eq_some hget
  have hn := h.slot_lt htask hf
  have hne := slots_ne_zero htask hn hf
  have hsame : Recounted (s.setTask task t) s.slots (s.setTask task t) :=
    ⟨h.files, rfl, rfl, rfl, h.fresh⟩
  have hre := hsame.dropFile hne
  rw [hs]
  exact ⟨hre.inv (h.tables_update (hok (h.tables task htask)))
    (slots_setTask_clear htask hn hf htable), hre.taskCount⟩

theorem releaseReservedFd_reserved (hok : TableOk t) (h : Reserved t n t') :
    TableOk (releaseReservedFd n t') ∧ (releaseReservedFd n t').fdTable = t.fdTable := by
  obtain ⟨hclear, htable⟩ := h.fdBitClear hok.small
  unfold releaseReservedFd
  rw [Int.toNat_natCast, if_neg (by have := h.lt; omega),
    if_neg (by rw [h.table, h.free]; exact Bool.false_ne_true)]
  dsimp only
  split_ifs
  · exact ⟨hclear.withHint _, htable⟩
  · exact ⟨hclear, htable⟩

/-- Opening a file keeps the accounting, if the next descriptor is an `int`. -/
theorem Inv.sysOpen (h : Inv s) (htask : task < s.taskCount) (out : OpenOutcome) (node : ℕ)
    (hcap : (s.tasks task).fdCapacity < 2 ^ 31) : Inv (sysOpen out s task node).2.2 := by
  unfold Fd.sysOpen
  generalize hx : allocFd out.table (s.tasks task) = r
  obtain ⟨fd, t⟩ := r
  dsimp only
  rcases (h.tables task htask).allocFd hx with ⟨rfl, hok, htable⟩ |
    ⟨n, t1, hfd, hn, hok, htable, hres⟩
  · rw [if_pos (by decide)]
    exact h.setTask htask hok htable
  rw [toInt_of_lt (by omega)] at hfd
  subst hfd
  rw [if_neg (by omega)]
  have hset : ∀ t', (s.setTask task t).setTask task t' = s.setTask task t' := by
    intro t'
    unfold State.setTask
    rw [update_idem]
  rw [hset, hset, Int.toNat_natCast]
  split_ifs with hfail
  · obtain ⟨hok', htable'⟩ := releaseReservedFd_reserved hok hres
    exact h.setTask htask hok' (htable'.trans htable)
  -- the new file has one slot, the one just reserved
  have hfree : (s.tasks task).fdTable n = none := htable ▸ hres.free
  have hnew : s.slots s.nextFile = 0 := by
    by_contra hne
    exact lt_irrefl _ (h.file_lt hne)
  have hslots := slots_setTask_fill (t := t.setFile n (some s.nextFile)) htask (n := n) (by omega)
    hfree (by rw [fdTable_setFile, hres.table, htable])
  rw [hnew] at hslots
  refine ⟨h.tables_update (hres.setFile hok (by omega)), ?_, fun f hf => ?_⟩
  · have hfiles : FilesOk (update s.files s.nextFile (some ⟨node, 1⟩))
        (update s.slots s.nextFile (0 + 1)) := h.files.set rfl
    rw [← hslots] at hfiles
    exact hfiles
  · refine (update_of_ne ?_ _ _).trans (h.fresh f (le_of_lt hf))
    exact ne_of_gt hf

theorem setFile_fdBitSet (t : Table) (n : ℕ) (file : Option ℕ) :
    (t.setFile n file).fdBitSet n = (t.fdBitSet n).setFile n file := by
  unfold Table.fdBitSet
  rw [fdCapacity_setFile]
  split_ifs <;> rfl

theorem reserveFd_of_lt (alloc : Bool) (hlt : n < t.fdCapacity) (hn : n < 2 ^ 31 - 1) :
    ∃ hint, reserveFd alloc n t = (true, (t.fdBitSet n).withHint hint) := by
  unfold reserveFd
  rw [Int.toNat_natCast, Fd.expandTable, if_neg (by omega), if_pos (Nat.succ_le_of_lt hlt)]
  dsimp only
  split_ifs
  · exact ⟨_, rfl⟩
  · exact ⟨_, rfl⟩

/-- The second half of `sys_dup2` fills the new descriptor. -/
theorem Inv.installDup (h : Inv s) (htask : task < s.taskCount) {alloc : Bool} {newfd : ℤ}
    (hnew : 0 ≤ newfd) (hsmall : newfd < 512) (hcap : newfd.toNat < (s.tasks task).fdCapacity)
    (hfree : (s.tasks task).fdTable newfd.toNat = none) (hf : s.slots f ≠ 0)
    (hroom : s.slots f + 1 < 2 ^ 32) : Inv (installDup alloc s task f newfd).2 := by
  obtain ⟨n, rfl⟩ := Int.eq_ofNat_of_zero_le hnew
  rw [Int.toNat_natCast] at hcap hfree
  have hok := h.tables task htask
  obtain ⟨hint, hres⟩ := reserveFd_of_lt (t := (s.tasks task).setFile n (some f)) alloc hcap
    (by omega)
  have hinst : (Fd.installDup alloc s task f n).2 = (s.retainFile f).setTask task
      ((((s.tasks task).fdBitSet n).setFile n (some f)).withHint hint) := by
    unfold Fd.installDup
    dsimp only [State.setTask]
    rw [Int.toNat_natCast, update_self, tasks_retainFile, hres, setFile_fdBitSet]
    dsimp only
    rw [update_idem]
  rw [hinst]
  have hslots : ((s.retainFile f).setTask task
      ((((s.tasks task).fdBitSet n).setFile n (some f)).withHint hint)).slots =
        update s.slots f (s.slots f + 1) := by
    have hsame : (s.retainFile f).slots = s.slots := slots_congr (by simp) (by simp)
    rw [← hsame]
    refine slots_setTask_fill (n := n) (by simpa using htask) (by omega) (by simpa using hfree) ?_
    simp
  refine ⟨?_, ?_, fun g hg => fresh_retainFile h.fresh (h.file_lt hf) g ?_⟩
  · have hfilled := ((hok.reserve hfree hcap).setFile (f := f) hok (by omega)).withHint hint
    intro i hi
    have hi' : i < s.taskCount := (taskCount_retainFile s f) ▸ hi
    dsimp only [State.setTask]
    rw [tasks_retainFile]
    exact h.tables_update hfilled i hi'
  · rw [hslots]
    exact h.files.retainFile hf hroom
  · exact (nextFile_retainFile s f) ▸ hg

/-- `sys_dup2` keeps the accounting, if the count of the file has room. -/
theorem Inv.sysDup2 (h : Inv s) (htask : task < s.taskCount) (alloc : Bool) (oldfd newfd : ℤ)
    (hroom : ∀ f, getFile oldfd (s.tasks task) = some f → s.slots f + 1 < 2 ^ 32) :
    Inv (sysDup2 alloc s task oldfd newfd).2.2 := by
  unfold Fd.sysDup2
  split
  · exact h
  rename_i f hget
  have hroom := hroom f hget
  obtain ⟨hold, -, hslot⟩ := getFile_eq_some hget
  split_ifs with hrange hsame
  · exact h
  · exact h
  rw [not_or, Int.not_lt, Int.not_le] at hrange
  split
  · exact h
  rename_i t hexp
  obtain ⟨hok, htable, hneeded⟩ := (h.tables task htask).expandTable hexp
  have hcap : newfd.toNat < t.fdCapacity := hneeded (by omega)
  have hset := h.setTask htask hok htable
  have hself : (s.setTask task t).tasks task = t := update_self _ _ _
  have hslots := slots_setTask_same htask htable
  have hn := h.slot_lt htask hslot
  dsimp only
  split_ifs with hopen hrc
  · exact (hset.closeFd htask newfd).1
  · -- another file was open there; the file to copy keeps its slot
    obtain ⟨g, hg⟩ := isSome_iff_exists.mp hopen
    have hgetnew : getFile newfd ((s.setTask task t).tasks task) = some g := by
      rw [hself, getFile, if_neg (by omega), hg]
    obtain ⟨hinv, hcount⟩ := hset.closeFd htask newfd
    obtain ⟨t', -, hs, htable', hcap', -⟩ := closeFd_spec hgetnew
    rw [hself] at htable' hcap'
    obtain ⟨htasks, hcount', -⟩ := frame_dropFile ((s.setTask task t).setTask task t') g
    have hself' : (Fd.closeFd (s.setTask task t) task newfd).2.2.tasks task = t' := by
      rw [hs, htasks]
      exact update_self _ _ _
    have hf : t'.fdTable oldfd.toNat = some f := by
      rw [htable', update_of_ne (by omega), htable, hslot]
    have hle : (Fd.closeFd (s.setTask task t) task newfd).2.2.slots f ≤ s.slots f := by
      rw [← hself] at htable'
      have hslot' := slots_setTask_slot (s := s.setTask task t) htask (by omega) htable' f
      rw [hs, slots_congr htasks hcount', ← hslots]
      rw [if_neg (some_ne_none f).symm] at hslot'
      omega
    have htask' : task < (Fd.closeFd (s.setTask task t) task newfd).2.2.taskCount := hcount ▸ htask
    refine hinv.installDup htask' hrange.1 hrange.2 ?_ ?_ ?_ ?_
    · rw [hself', hcap']
      exact hcap
    · rw [hself', htable', update_self]
    · exact slots_ne_zero htask' hn (by rw [hself', hf])
    · omega
  · refine hset.installDup htask hrange.1 hrange.2 ?_ ?_ ?_ ?_
    · rw [hself]
      exact hcap
    · rw [hself]
      exact not_isSome_iff_eq_none.mp hopen
    · rw [hslots]
      exact slots_ne_zero htask hn hslot
    · rw [hslots]
      exact hroom

theorem TableOk.slots_eq (h : TableOk t) (f : ℕ) :
    holders (range t.fdCapacity) t.fdTable f = t.slots f := by
  refine holders_eq_of_subset ?_ fun i _ hi hf => ?_
  · refine range_mono ?_
    have := h.cap_le
    unfold uint32Max at this
    omega
  · exact hi (mem_range.mpr (h.inside i (by rw [hf]; rfl)))

/-- One more slot, and the file it refers to has one holder more. -/
theorem update_holders (hf : t.fdTable i = some f) (g : ℕ → ℕ → ℕ) :
    update (fun f => g f (holders (range i) t.fdTable f)) f
        (g f (holders (range (i + 1)) t.fdTable f)) =
      fun f => g f (holders (range (i + 1)) t.fdTable f) := by
  refine update_eq_iff.mpr ⟨rfl, fun x hx => ?_⟩
  rw [holders_range_succ, hf, if_neg fun h => hx (some.inj h).symm, add_zero]

/-- The loop of `clone` counts every slot it copies. -/
theorem retainLoop_spec (hfiles : FilesOk s.files count)
    (hfresh : ∀ f, s.nextFile ≤ f → s.files f = none)
    (hheld : ∀ i f, t.fdTable i = some f → count f ≠ 0)
    (hroom : ∀ f, count f ≠ 0 → count f + holders (range n) t.fdTable f < 2 ^ 32) :
    Recounted s (fun f => count f + holders (range n) t.fdTable f) (retainLoop t n s) := by
  refine Step.foldl_range (P := fun i s' =>
    Recounted s (fun f => count f + holders (range i) t.fdTable f) s') ?_
    ⟨hfiles, rfl, rfl, rfl, hfresh⟩
  intro i s' hi h
  rcases hf : t.fdTable i with _ | f
  · simpa [holders_range_succ, hf] using h
  have hpos := hheld i f hf
  have hlt := hroom f hpos
  have hmono : holders (range (i + 1)) t.fdTable f ≤ _ := holders_mono (range_mono hi) f
  have hlast := holders_range_succ i t.fdTable f
  rw [hf, if_pos rfl] at hlast
  have hstep := h.retainFile (f := f) (by omega) (by omega)
  rwa [add_assoc, ← hlast, update_holders hf fun f k => count f + k] at hstep

/-- `release_fd_table_refs` takes every slot of the table back. -/
theorem releaseFdTableRefs_spec (hfiles : FilesOk s.files count)
    (hfresh : ∀ f, s.nextFile ≤ f → s.files f = none)
    (hheld : ∀ f, holders (range t.fdCapacity) t.fdTable f ≤ count f) :
    Recounted s (fun f => count f - holders (range t.fdCapacity) t.fdTable f)
      (releaseFdTableRefs t s).2 := by
  refine Step.foldl_range (P := fun i (acc : List ℕ × State) =>
    Recounted s (fun f => count f - holders (range i) t.fdTable f) acc.2) ?_
    ⟨hfiles, rfl, rfl, rfl, hfresh⟩
  rintro i ⟨nodes, s'⟩ hi h
  rcases hf : t.fdTable i with _ | f
  · simpa [holders_range_succ, hf] using h
  have hle := hheld f
  have hmono : holders (range (i + 1)) t.fdTable f ≤ _ := holders_mono (range_mono hi) f
  have hlast := holders_range_succ i t.fdTable f
  rw [hf, if_pos rfl] at hlast
  have hstep := h.dropFile (f := f) (by omega)
  rwa [Nat.sub_sub, ← hlast, update_holders hf fun f k => count f - k] at hstep

theorem TableOk.childTable (h : TableOk t) :
    TableOk (childTable t) ∧ (Fd.childTable t).fdTable = t.fdTable :=
  h.copy le_rfl h.cap_le

variable (h : Inv s) (htask : task < s.taskCount)

include h htask

/-- `clone` keeps the accounting, if the counts of the copied files have room. -/
theorem Inv.clone (out : CloneOutcome)
    (hroom : ∀ f, s.slots f ≠ 0 → s.slots f + (s.tasks task).slots f < 2 ^ 32) :
    Inv (clone out s task).2 := by
  have hok := h.tables task htask
  set t := s.tasks task
  obtain ⟨hchild, htable⟩ := hok.childTable
  have hheld : ∀ i f, t.fdTable i = some f → s.slots f ≠ 0 := fun i f hf =>
    slots_ne_zero htask (h.slot_lt htask hf) hf
  have hre := retainLoop_spec h.files h.fresh hheld fun f hf => by
    rw [hok.slots_eq]
    exact hroom f hf
  simp only [hok.slots_eq] at hre
  obtain ⟨hcounted, htasks, hcount, hnext, hnone⟩ := hre
  unfold Fd.clone
  cases out with
  | early => exact h
  | late =>
    have hcap : (Fd.childTable t).fdCapacity = t.fdCapacity := rfl
    have hre' := releaseFdTableRefs_spec (t := Fd.childTable t) hcounted hnone
      fun f => by rw [hcap, htable, hok.slots_eq]; exact Nat.le_add_left _ _
    rw [hcap, htable] at hre'
    simp only [hok.slots_eq, Nat.add_sub_cancel] at hre'
    refine hre'.inv ?_ (slots_congr htasks hcount)
    rw [htasks, hcount]
    exact h.tables
  | done =>
    dsimp only
    rw [htasks, hcount]
    have hset : update s.tasks s.taskCount (Fd.childTable t) s.taskCount =
        Fd.childTable t := update_self _ _ _
    refine ⟨fun i hi => ?_, ?_, hnone⟩
    · dsimp only [State.setTask] at hi ⊢
      rw [htasks]
      by_cases hlast : i = s.taskCount
      · rw [hlast, hset]
        exact hchild
      · rw [update_of_ne hlast]
        exact h.tables i (by omega)
    · -- the slots of the child come on top of those there were
      refine cast (congrArg _ (funext fun f => ?_)) hcounted
      have hadd := slots_addTask (retainLoop t t.fdCapacity s) (Fd.childTable t) f
      rw [hcount, slots_congr htasks hcount] at hadd
      have hsame : (Fd.childTable t).slots f = t.slots f := congrArg (holders _ · f) htable
      rw [hadd, hsame]

theorem Inv.closeAll (fds : ℕ → ℤ) (n : ℕ) :
    Inv ((List.range n).foldl (fun (acc : List ℕ × State) i =>
      ((Fd.closeFd acc.2 task (fds i)).2.1.toList ++ acc.1,
        (Fd.closeFd acc.2 task (fds i)).2.2)) ([], s)).2 := by
  refine (Step.foldl_range (P := fun _ (acc : List ℕ × State) =>
    Inv acc.2 ∧ acc.2.taskCount = s.taskCount) ?_ ⟨h, rfl⟩).1
  rintro i acc - ⟨hinv, hcount⟩
  have htask' : task < acc.2.taskCount := by rwa [hcount]
  obtain ⟨hinv', hcount'⟩ := hinv.closeFd htask' (fds i)
  exact ⟨hinv', hcount'.trans hcount⟩

theorem Inv.exit : Inv (exit s task).2 := h.closeAll htask toInt (s.tasks task).fdCapacity

end Ops

/-! ### Runs -/

/-- One system call on some task. -/
inductive Op where
  | open (out : OpenOutcome) (task node : ℕ)
  | close (task : ℕ) (fd : ℤ)
  | dup2 (alloc : Bool) (task : ℕ) (oldfd newfd : ℤ)
  | clone (out : CloneOutcome) (parent : ℕ)
  | exit (task : ℕ)

def Op.task : Op → ℕ
  | .open _ task _ => task
  | .close task _ => task
  | .dup2 _ task _ _ => task
  | .clone _ parent => parent
  | .exit task => task

def Op.apply (s : State) : Op → State
  | .open out task node => (sysOpen out s task node).2.2
  | .close task fd => (sysClose s task fd).2.2
  | .dup2 alloc task oldfd newfd => (sysDup2 alloc s task oldfd newfd).2.2
  | .clone out parent => (Fd.clone out s parent).2
  | .exit task => (Fd.exit s task).2

/-- A step of the descriptors is a call of an existing task. -/
def Calls (op : Op) (s s' : State) : Prop := op.task < s.taskCount ∧ s' = op.apply s

/-- The call may number a descriptor beyond `INT_MAX` or count a file beyond `UINT32_MAX`. -/
def Op.Overflows (s : State) : Op → Prop
  | .open _ task _ => 2 ^ 31 ≤ (s.tasks task).fdCapacity
  | .dup2 _ task oldfd _ => ∃ f file, getFile oldfd (s.tasks task) = some f ∧
      s.files f = some file ∧ 2 ^ 32 ≤ file.refCount + 1
  | .clone _ parent => ∃ f file, s.files f = some file ∧
      2 ^ 32 ≤ file.refCount + (s.tasks parent).slots f
  | _ => False

/-- The marks agree with the slots in every task, and a file exists and is counted as often as
slots refer to it. -/
def Accounted (s : State) : Prop :=
  (∀ task < s.taskCount, ∀ fd,
    (s.tasks task).fdBitGet fd = true ↔ (s.tasks task).fdTable fd ≠ none) ∧
  ∀ f, (s.files f).map OpenFile.refCount = if s.slots f = 0 then none else some (s.slots f)

theorem Inv.accounted {s : State} (h : Inv s) : Accounted s := by
  refine ⟨fun task htask fd => ?_, h.files⟩
  rw [(h.tables task htask).fdBitGet, isSome_iff_ne_none]

/-- One call keeps the invariant unless it overflows. -/
theorem Inv.step {s s' : State} {op : Op} (h : Inv s) (hcall : Calls op s s')
    (hsafe : ¬op.Overflows s) : Inv s' := by
  obtain ⟨htask, rfl⟩ := hcall
  -- a file in a slot is counted, so its count is what the condition bounds
  have hbound : ∀ {f n}, s.slots f ≠ 0 →
      (∀ file, s.files f = some file → ¬2 ^ 32 ≤ file.refCount + n) → s.slots f + n < 2 ^ 32 := by
    intro f n hf hno
    obtain ⟨file, hfile, hcount⟩ := h.files.exists_file hf
    have := hno file hfile
    omega
  cases op with
  | «open» out task node => exact h.sysOpen htask out node (Nat.lt_of_not_le hsafe)
  | close task fd => exact (h.closeFd htask fd).1
  | dup2 alloc task oldfd newfd =>
    refine h.sysDup2 htask alloc oldfd newfd fun f hget => hbound ?_ fun file hfile hle =>
      hsafe ⟨f, file, hget, hfile, hle⟩
    obtain ⟨-, -, hslot⟩ := getFile_eq_some hget
    exact slots_ne_zero htask (h.slot_lt htask hslot) hslot
  | clone out parent =>
    exact h.clone htask out fun f hf => hbound hf fun file hfile hle =>
      hsafe ⟨f, file, hfile, hle⟩
  | exit task => exact h.exit htask

/-- The first task has the console open as 1 and 2. -/
theorem fdTable_init (console task i : ℕ) : ((State.init console).tasks task).fdTable i =
    if i = 1 ∨ i = 2 then some 0 else none := by
  simp only [State.init, fdTable_withHint, fdTable_fdBitSet, fdTable_setFile,
    update_apply, Table.empty]
  split_ifs <;> first | rfl | omega

theorem slots_tasks_init (console task f : ℕ) :
    ((State.init console).tasks task).slots f = if f = 0 then 2 else 0 := by
  rw [Table.slots, ← holders_eq_of_subset (S := range 3)]
  · simp only [holders_range_succ, fdTable_init]
    by_cases hf : f = 0
    · rw [hf]
      rfl
    · have hne : some 0 ≠ some f := fun h => hf (some.inj h).symm
      simp [holders, hf, hne]
  · exact range_mono (by decide)
  · intro i _ hi hf
    rw [fdTable_init, if_neg (by rw [mem_range] at hi; omega)] at hf
    cases hf

theorem slots_init (console f : ℕ) : (State.init console).slots f = if f = 0 then 2 else 0 :=
  (sum_range_one _).trans (slots_tasks_init console 0 f)

theorem inv_init (console : ℕ) : Inv (State.init console) where
  tables := by
    intro task _
    have hfill : ∀ fd, (((State.init console).tasks task).fdTable fd).isSome → fd = 1 ∨ fd = 2 := by
      intro fd hfd
      by_contra hno
      rw [fdTable_init, if_neg hno] at hfd
      cases hfd
    have hcap : ((State.init console).tasks task).fdCapacity = 8 := rfl
    refine ⟨fun fd => ?_, fun fd hfd => ?_, fun fd hfd => ?_, le_rfl, ?_⟩
    · rw [fdTable_init]
      dsimp only [State.init]
      rw [rawBit_withHint, rawBit_fdBitSet (by decide), rawBit_fdBitSet (by decide)]
      simp only [rawBit_setFile]
      have hclear : Table.empty.rawBit fd = false := BitVec.getLsbD_zero
      rw [hclear]
      split_ifs with hfd
      · rcases hfd with rfl | rfl <;> rfl
      · rw [not_or] at hfd
        rw [decide_eq_false hfd.1, decide_eq_false hfd.2]
        rfl
    · have := hfill fd hfd
      omega
    · have := hfill fd hfd
      omega
    · rw [hcap]
      decide
  files := by
    intro f
    rw [slots_init]
    by_cases hf : f = 0
    · rw [hf]
      rfl
    · have hnone : (State.init console).files f = none := if_neg hf
      rw [if_neg hf, if_pos rfl, hnone, map_none]
  fresh := by
    intro f hf
    exact if_neg (ne_of_gt hf)

/-- Counting slots changes no table, and no count leaves its 32 bits. -/
theorem frame_retainLoop (t : Table) (n : ℕ) (s : State) :
    (retainLoop t n s).tasks = s.tasks ∧ (retainLoop t n s).taskCount = s.taskCount ∧
      ((∀ f file, s.files f = some file → file.refCount < 2 ^ 32) →
        ∀ f file, (retainLoop t n s).files f = some file → file.refCount < 2 ^ 32) := by
  refine Step.foldl_range (P := fun _ (s' : State) => s'.tasks = s.tasks ∧
    s'.taskCount = s.taskCount ∧ ((∀ f file, s.files f = some file → file.refCount < 2 ^ 32) →
      ∀ f file, s'.files f = some file → file.refCount < 2 ^ 32)) ?_ ⟨rfl, rfl, id⟩
  rintro i s' - ⟨htasks, hcount, hsmall⟩
  rcases t.fdTable i with _ | g
  · exact ⟨htasks, hcount, hsmall⟩
  refine ⟨(tasks_retainFile s' g).trans htasks, (taskCount_retainFile s' g).trans hcount,
    fun hs f file hfile => ?_⟩
  dsimp only [Option.elim, State.retainFile, State.setFile] at hfile
  split at hfile
  · exact hsmall hs f file hfile
  rcases update_eq_cases hfile with ⟨-, heq⟩ | ⟨-, hold⟩
  · obtain rfl := some.inj heq
    exact Nat.mod_lt _ (by decide)
  · exact hsmall hs f file hold

/-- After `k` clones of the first task there are `k + 1` tasks with the console twice each. -/
theorem exists_clones (console k : ℕ) : ∃ s,
    ReflTransGen (fun a b => ∃ op, Calls op a b) (State.init console) s ∧
      0 < s.taskCount ∧ s.tasks 0 = (State.init console).tasks 0 ∧ s.slots 0 = 2 * (k + 1) ∧
      ∀ f file, s.files f = some file → file.refCount < 2 ^ 32 := by
  induction k with
  | zero =>
    refine ⟨State.init console, .refl, one_pos, rfl, slots_init console 0, ?_⟩
    intro f file hfile
    by_cases hf : f = 0
    · subst hf
      obtain rfl := some.inj hfile
      exact Nat.lt_of_sub_pos (by decide : 0 < 2 ^ 32 - 2)
    · cases (if_neg hf).symm.trans hfile
  | succ k ih =>
    obtain ⟨s, hrun, hpos, hfirst, hslots, hsmall⟩ := ih
    obtain ⟨htasks, hcount, hkeep⟩ := frame_retainLoop (s.tasks 0) (s.tasks 0).fdCapacity s
    refine ⟨(Op.clone .done 0).apply s, hrun.tail ⟨.clone .done 0, hpos, rfl⟩, Nat.succ_pos _, ?_,
      ?_, hkeep hsmall⟩
    · refine (update_of_ne ?_ _ _).trans (congrFun htasks 0 |>.trans hfirst)
      rw [hcount]
      exact ne_of_lt hpos
    have hchild : (childTable (s.tasks 0)).slots 0 = (s.tasks 0).slots 0 := by
      rw [hfirst]
      exact congrArg (holders _ · 0) ((inv_init console).tables 0 one_pos).childTable.2
    refine (slots_addTask _ _ 0).trans ?_
    rw [htasks, slots_congr htasks hcount, hslots, hchild, hfirst, slots_tasks_init, if_pos rfl]
    omega

end RHKernel.Fd
