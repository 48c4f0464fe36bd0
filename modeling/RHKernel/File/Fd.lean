import RHKernel.Lib.Bits

/-!
# File descriptors

Each task has a table of open files and a bitmap of the descriptors in use; an open file counts
the table slots that refer to it. The functions follow `fd.cpp`, the descriptor part of `clone`
and `exit` in `scheduler.cpp`, and `sys_open`, `sys_close` and `sys_dup2`.

Open files and tasks are numbered in the order of their creation. Whether an allocation of the
heap succeeds is an argument, and so is what the file system found: `sys_open` is given the node
on which it already holds a reference. An operation that drops its reference on a node returns
the node.
-/

namespace RHKernel.Fd

open Bits Function

def initialFdCapacity : ℕ := 8

def uint32Max : ℕ := 2 ^ 32 - 1

/-- `open_file`: its node and the 32-bit count of table slots. -/
structure OpenFile where
  node : ℕ
  refCount : ℕ

/-- The descriptor fields of a task. The table and the words of the bitmap are empty beyond the
capacity. -/
structure Table where
  fdTable : ℕ → Option ℕ
  fdBitmap : ℕ → BitVec 64
  fdCapacity : ℕ
  nextFdHint : ℕ

/-- All tasks, with the open files by number. -/
structure State where
  tasks : ℕ → Table
  taskCount : ℕ
  files : ℕ → Option OpenFile
  nextFile : ℕ

/-- The conversion of a descriptor to `int`. -/
def toInt (fd : ℕ) : ℤ := Int.bmod fd (2 ^ 32)

/-! ### The bitmap -/

def fdBitmapWords (capacity : ℕ) : ℕ := (capacity + 63) / 64

namespace Table

def fdBitGet (t : Table) (fd : ℕ) : Bool :=
  decide (fd < t.fdCapacity) && (t.fdBitmap (fd / 64)).getLsbD (fd % 64)

def fdBitSet (t : Table) (fd : ℕ) : Table :=
  if fd < t.fdCapacity then
    { t with fdBitmap :=
        update t.fdBitmap (fd / 64) (t.fdBitmap (fd / 64) ||| .twoPow 64 (fd % 64)) }
  else t

def fdBitClear (t : Table) (fd : ℕ) : Table :=
  if fd < t.fdCapacity then
    { t with fdBitmap :=
        update t.fdBitmap (fd / 64) (t.fdBitmap (fd / 64) &&& ~~~.twoPow 64 (fd % 64)) }
  else t

/-- `t->next_fd_hint = hint`. -/
def withHint (t : Table) (hint : ℕ) : Table := { t with nextFdHint := hint }

/-- `t->fd_table[fd] = file`. -/
def setFile (t : Table) (fd : ℕ) (file : Option ℕ) : Table :=
  { t with fdTable := update t.fdTable fd file }

end Table

def fdLastWordMask (capacity : ℕ) : BitVec 64 :=
  if capacity % 64 = 0 then .allOnes 64 else .twoPow 64 (capacity % 64) - 1

def findClearBit (word : BitVec 64) : Option ℕ :=
  if ~~~word = 0 then none else some (ctz (~~~word).toNat)

/-! ### Tables -/

/-- The loop of `expand_table` that picks the new capacity. -/
def growCapacity (needed : ℕ) : ℕ → ℕ → ℕ
  | 0, cap => cap
  | fuel + 1, cap =>
    if cap < needed then
      if uint32Max / 2 < cap then needed else growCapacity needed fuel (cap * 2)
    else cap

/-- `expand_table`; `alloc` tells whether its two allocations succeed. -/
def expandTable (alloc : Bool) (needed : ℕ) (t : Table) : Option Table :=
  if needed ≤ t.fdCapacity then some t
  else
    let newCap := growCapacity needed 32
      (if t.fdCapacity = 0 then initialFdCapacity else t.fdCapacity)
    if uint32Max < newCap then none
    else if !alloc then none
    else
      some {
        fdTable := fun i => if i < t.fdCapacity then t.fdTable i else none
        fdBitmap := fun w => if w < fdBitmapWords t.fdCapacity then t.fdBitmap w else 0
        fdCapacity := newCap
        nextFdHint := if newCap < t.nextFdHint then newCap else t.nextFdHint }

/-- The loop of `alloc_fd` over some words of the bitmap. -/
def scanWords (t : Table) : List ℕ → Option ℕ
  | [] => none
  | w :: rest =>
    let word := if w + 1 = fdBitmapWords t.fdCapacity
      then t.fdBitmap w ||| ~~~fdLastWordMask t.fdCapacity else t.fdBitmap w
    match findClearBit word with
    | none => scanWords t rest
    | some bit => if t.fdCapacity ≤ w * 64 + bit then scanWords t rest else some (w * 64 + bit)

/-- The words `alloc_fd` looks at: from the one with the hint to the end, then from the start. -/
def wordOrder (t : Table) : List ℕ :=
  let startWord := t.nextFdHint / 64
  List.range' startWord (fdBitmapWords t.fdCapacity - startWord) ++ List.range startWord

/-- `alloc_fd`: the descriptor and the new table. -/
def allocFd (alloc : Bool) (t : Table) : ℤ × Table :=
  match expandTable alloc initialFdCapacity t with
  | none => (-1, t)
  | some t =>
    let t := if t.fdCapacity < t.nextFdHint then t.withHint t.fdCapacity else t
    match scanWords t (wordOrder t) with
    | some fd => (toInt fd, (t.fdBitSet fd).withHint (fd + 1))
    | none =>
      let oldCap := t.fdCapacity
      let needed := if oldCap = 0 then initialFdCapacity else oldCap + 1
      if uint32Max < needed then (-1, t)
      else
        match expandTable alloc needed t with
        | none => (-1, t)
        | some t => (toInt oldCap, (t.fdBitSet oldCap).withHint (oldCap + 1))

/-- The loop of `reserve_fd` that moves the hint to the next clear bit. -/
def advanceHint (t : Table) : ℕ → ℕ → ℕ
  | 0, hint => hint
  | fuel + 1, hint =>
    if hint < t.fdCapacity && t.fdBitGet hint then advanceHint t fuel (hint + 1) else hint

def reserveFd (alloc : Bool) (fd : ℤ) (t : Table) : Bool × Table :=
  if fd < 0 ∨ fd = 2 ^ 31 - 1 then (false, t)
  else
    match expandTable alloc (fd.toNat + 1) t with
    | none => (false, t)
    | some t =>
      let t := t.fdBitSet fd.toNat
      if fd.toNat = t.nextFdHint
        then (true, t.withHint (advanceHint t t.fdCapacity t.nextFdHint)) else (true, t)

def releaseReservedFd (fd : ℤ) (t : Table) : Table :=
  if fd < 0 ∨ t.fdCapacity ≤ fd.toNat then t
  else if (t.fdTable fd.toNat).isSome then t
  else
    let t := t.fdBitClear fd.toNat
    if fd.toNat < t.nextFdHint then t.withHint fd.toNat else t

def getFile (fd : ℤ) (t : Table) : Option ℕ :=
  if fd < 0 ∨ t.fdCapacity ≤ fd.toNat then none else t.fdTable fd.toNat

/-! ### Open files -/

namespace State

def setTask (s : State) (task : ℕ) (t : Table) : State :=
  { s with tasks := update s.tasks task t }

def setFile (s : State) (f : ℕ) (file : Option OpenFile) : State :=
  { s with files := update s.files f file }

/-- `file->ref_count++`. -/
def retainFile (s : State) (f : ℕ) : State :=
  match s.files f with
  | none => s
  | some file => s.setFile f (some ⟨file.node, (file.refCount + 1) % 2 ^ 32⟩)

/-- A slot lets go of a file; without any the file is freed and its node returned. -/
def dropFile (s : State) (f : ℕ) : Option ℕ × State :=
  match s.files f with
  | none => (none, s)
  | some file =>
    if file.refCount - 1 = 0 then (some file.node, s.setFile f none)
    else (none, s.setFile f (some ⟨file.node, file.refCount - 1⟩))

end State

/-- `close_fd`, with the node it puts. -/
def closeFd (s : State) (task : ℕ) (fd : ℤ) : ℤ × Option ℕ × State :=
  match getFile fd (s.tasks task) with
  | none => (-1, none, s)
  | some f =>
    let t := ((s.tasks task).setFile fd.toNat none).fdBitClear fd.toNat
    let t := if fd.toNat < t.nextFdHint then t.withHint fd.toNat else t
    let (node, s) := (s.setTask task t).dropFile f
    (0, node, s)

/-! ### System calls -/

/-- What happens to the allocations of one call of `sys_open`. -/
structure OpenOutcome where
  table : Bool
  file : Bool
  device : Bool

/-- `sys_open` once the node is found and referenced. `none` in the second place means that the
reference was kept. -/
def sysOpen (out : OpenOutcome) (s : State) (task node : ℕ) : ℤ × Option ℕ × State :=
  let (fd, t) := allocFd out.table (s.tasks task)
  let s := s.setTask task t
  if fd < 0 then (-1, some node, s)
  else if !out.file || !out.device then
    (-1, some node, s.setTask task (releaseReservedFd fd t))
  else
    let s' := (s.setTask task (t.setFile fd.toNat (some s.nextFile))).setFile s.nextFile
      (some ⟨node, 1⟩)
    (fd, none, { s' with nextFile := s.nextFile + 1 })

def sysClose (s : State) (task : ℕ) (fd : ℤ) : ℤ × Option ℕ × State := closeFd s task fd

/-- `sys_dup2` after the new descriptor has been closed. -/
def installDup (alloc : Bool) (s : State) (task f : ℕ) (newfd : ℤ) : ℤ × State :=
  let s := s.retainFile f
  let s := s.setTask task ((s.tasks task).setFile newfd.toNat (some f))
  match reserveFd alloc newfd (s.tasks task) with
  | (true, t) => (newfd, s.setTask task t)
  | (false, t) =>
    let s := s.setTask task (t.setFile newfd.toNat none)
    (-1, match s.files f with
      | none => s
      | some file => s.setFile f (some ⟨file.node, file.refCount - 1⟩))

def sysDup2 (alloc : Bool) (s : State) (task : ℕ) (oldfd newfd : ℤ) : ℤ × Option ℕ × State :=
  match getFile oldfd (s.tasks task) with
  | none => (-1, none, s)
  | some f =>
    if newfd < 0 ∨ 512 ≤ newfd then (-1, none, s)
    else if oldfd = newfd then (newfd, none, s)
    else
      match expandTable alloc (newfd.toNat + 1) (s.tasks task) with
      | none => (-1, none, s)
      | some t =>
        let s := s.setTask task t
        if (t.fdTable newfd.toNat).isSome then
          let (rc, node, s) := closeFd s task newfd
          if rc ≠ 0 then (-1, node, s)
          else
            let (rc, s) := installDup alloc s task f newfd
            (rc, node, s)
        else
          let (rc, s) := installDup alloc s task f newfd
          (rc, none, s)

/-- How far `clone` gets: it fails before the descriptors are copied, after, or not at all. -/
inductive CloneOutcome where
  | early
  | late
  | done
  deriving DecidableEq

/-- The loop of `clone` that counts the copied slots. -/
def retainLoop (t : Table) (n : ℕ) (s : State) : State :=
  (List.range n).foldl (fun s i => (t.fdTable i).elim s s.retainFile) s

/-- `release_fd_table_refs`: the nodes it puts. -/
def releaseFdTableRefs (t : Table) (s : State) : List ℕ × State :=
  (List.range t.fdCapacity).foldl (fun acc i =>
    match t.fdTable i with
    | none => acc
    | some f => ((acc.2.dropFile f).1.toList ++ acc.1, (acc.2.dropFile f).2)) ([], s)

/-- The copy of the descriptors that `clone` makes. -/
def childTable (parent : Table) : Table where
  fdTable := fun i => if i < parent.fdCapacity then parent.fdTable i else none
  fdBitmap := fun w => if w < fdBitmapWords parent.fdCapacity then parent.fdBitmap w else 0
  fdCapacity := parent.fdCapacity
  nextFdHint := parent.nextFdHint

/-- The descriptor part of `clone` and `free_failed_clone`. -/
def clone (out : CloneOutcome) (s : State) (parent : ℕ) : List ℕ × State :=
  match out with
  | .early => ([], s)
  | .late =>
    releaseFdTableRefs (childTable (s.tasks parent))
      (retainLoop (s.tasks parent) (s.tasks parent).fdCapacity s)
  | .done =>
    let s := retainLoop (s.tasks parent) (s.tasks parent).fdCapacity s
    ([], { s.setTask s.taskCount (childTable (s.tasks parent)) with taskCount := s.taskCount + 1 })

/-- The loop of `exit` over the descriptors. -/
def exitLoop (task n : ℕ) (s : State) : List ℕ × State :=
  (List.range n).foldl (fun acc i =>
    ((closeFd acc.2 task (toInt i)).2.1.toList ++ acc.1, (closeFd acc.2 task (toInt i)).2.2))
    ([], s)

/-- The descriptor part of `exit`. -/
def exit (s : State) (task : ℕ) : List ℕ × State := exitLoop task (s.tasks task).fdCapacity s

def Table.empty : Table where
  fdTable := fun _ => none
  fdBitmap := fun _ => 0
  fdCapacity := initialFdCapacity
  nextFdHint := 0

/-- The first task: `install_init_stdio` has opened the console as descriptors 1 and 2. -/
def State.init (console : ℕ) : State where
  tasks := fun _ =>
    ((((Table.empty.setFile 1 (some 0)).setFile 2 (some 0)).fdBitSet 1).fdBitSet 2).withHint 3
  taskCount := 1
  files := fun f => if f = 0 then some ⟨console, 2⟩ else none
  nextFile := 1

end RHKernel.Fd
