import Mathlib.Algebra.Order.Group.Nat
import RHKernel.Lib.Step

/-!
# The scheduler

`scheduler.cpp` gives every CPU four run queues, a sleep list, an idle task and a current task.
A task that is to run is appended to a queue of some CPU; `schedule` takes the next task from the
queues of its CPU, or steals one from another CPU, or runs the idle task.

Tasks are pointers. The links of a run queue or a sleep list are kept as lists, and the counters
of a queue are lengths. What is modelled is what a holder of a `sched_lock` does: `try_acquire`
of another CPU's lock may fail at any time, so its outcomes are parameters. The statistics, the
event queues of tasks and their memory are left out.
-/

namespace RHKernel.Sched

open Function

inductive TaskState where
  | ready
  | running
  | sleeping
  | waiting
  | zombie
  | blocked
  | frozen
  deriving DecidableEq, Repr

/-- The fields of a task that the scheduler reads. `children` is the list that starts at
`first_child`. -/
structure Task where
  id : ℕ
  state : TaskState
  priority : ℕ
  quantum : ℕ
  enqueueTick : ℕ
  lastCpuIndex : ℕ
  wakeupTime : ℕ
  exitCode : ℤ
  parent : Option ℕ
  children : List ℕ

/-- The scheduler's variables; those of `cpu_local` are functions of the CPU's index. -/
structure State where
  cores : ℕ
  ticks : ℕ → ℕ
  currentTask : ℕ → ℕ
  idleTask : ℕ → ℕ
  taskQueues : ℕ × ℕ → List ℕ
  oldestTick : ℕ × ℕ → ℕ
  sleepList : ℕ → List ℕ
  task : ℕ → Task
  allTasks : List ℕ
  initTask : Option ℕ
  nextTid : ℕ

def maxQueues : ℕ := 4

def timeQuantums : List ℕ := [2, 4, 8, 16]

def agingThreshold : ℕ := 100

def stealMinRemoteReady : ℕ := 1

def State.setTask (s : State) (t : ℕ) (f : Task → Task) : State :=
  { s with task := update s.task t (f (s.task t)) }

/-- `t->state = state`. -/
def State.setState (s : State) (t : ℕ) (state : TaskState) : State :=
  s.setTask t fun k => { k with state := state }

/-! ### Run queues -/

/-- `t->next || t->prev`: the task has a neighbour in a queue, or a successor in a sleep list. -/
def State.linked (s : State) (t : ℕ) : Bool :=
  (List.range s.cores).any fun c =>
    (t ∈ s.sleepList c ∧ (s.sleepList c).getLast? ≠ some t) ||
      (List.range maxQueues).any fun p => t ∈ s.taskQueues (c, p) ∧ s.taskQueues (c, p) ≠ [t]

def unlinkQueued (s : State) (c t p : ℕ) : State :=
  let queue := (s.taskQueues (c, p)).erase t
  { s with
    taskQueues := update s.taskQueues (c, p) queue
    oldestTick := update s.oldestTick (c, p)
      ((queue.head?.map fun head => (s.task head).enqueueTick).getD 0) }

def enqueue (s : State) (c t : ℕ) : Except String State :=
  let p := (s.task t).priority
  if maxQueues ≤ p then .error "scheduler enqueue priority corrupt"
  else if s.linked t then .error "scheduler enqueue linked task"
  else
    let oldest := if s.taskQueues (c, p) = [] then s.ticks c else s.oldestTick (c, p)
    .ok { s.setTask t fun k => { k with enqueueTick := s.ticks c, lastCpuIndex := c } with
      oldestTick := update s.oldestTick (c, p) oldest
      taskQueues := update s.taskQueues (c, p) (s.taskQueues (c, p) ++ [t]) }

/-- The loop of `promote_expired_tasks` over queue `i`; every round shortens the queue. -/
def promoteQueue (s : State) (c i : ℕ) : ℕ → Except String State
  | 0 => .ok s
  | n + 1 =>
    match s.taskQueues (c, i) with
    | [] => .ok s
    | item :: _ =>
      if (s.ticks c + 2 ^ 64 - s.oldestTick (c, i)) % 2 ^ 64 ≤ agingThreshold then .ok s
      else do
        let s := unlinkQueued s c item i
        let s := s.setTask item fun k =>
          { k with priority := i - 1, quantum := timeQuantums.getD (i - 1) 0 }
        let s ← enqueue s c item
        promoteQueue s c i n

def promoteExpiredTasks (s : State) (c : ℕ) : Except String State :=
  [1, 2, 3].foldlM (fun s i => promoteQueue s c i (s.taskQueues (c, i)).length) s

def State.runnableCount (s : State) (c : ℕ) : ℕ :=
  (List.range maxQueues).foldl (fun n p => n + (s.taskQueues (c, p)).length) 0

/-- The outcomes of `try_acquire`: while the CPUs are compared, and on the CPU chosen. -/
structure TryLocks where
  scan : ℕ → Bool
  target : Bool

def selectEnqueueCpu (s : State) (preferred : ℕ) (acquired : ℕ → Bool) : ℕ :=
  if s.cores ≤ 1 then preferred
  else
    let best := (List.range s.cores).foldl (fun best i =>
      if i = preferred ∨ acquired i = false then best
      else if s.runnableCount i + 1 < best.2 then (i, s.runnableCount i) else best)
      (preferred, s.runnableCount preferred)
    if best.2 + 1 < s.runnableCount preferred then best.1 else preferred

def enqueueReadyOnBestCpu (s : State) (preferred t : ℕ) (locks : TryLocks) :
    Except String State :=
  let target := selectEnqueueCpu s preferred locks.scan
  if target = preferred then enqueue s preferred t
  else if locks.target then enqueue s target t
  else enqueue s preferred t

def stealOneFromLockedVictim (s : State) (self victim : ℕ) : Option ℕ × State :=
  if self = victim ∨ s.runnableCount victim < stealMinRemoteReady then (none, s)
  else
    match [3, 2, 1, 0].find? fun p => s.taskQueues (victim, p) ≠ [] with
    | none => (none, s)
    | some p =>
      match (s.taskQueues (victim, p)).getLast? with
      | none => (none, s)
      | some t => (some t, (unlinkQueued s victim t p).setTask t fun k =>
          { k with lastCpuIndex := self })

/-- `steal_task`: the victim is the CPU with the most runnable tasks among those whose lock could
be had. -/
def stealTask (s : State) (self : ℕ) (acquired : ℕ → Bool) : Option ℕ × State :=
  if s.cores ≤ 1 then (none, s)
  else
    let best := (List.range s.cores).foldl (fun (best : Option ℕ × ℕ) n =>
      let victim := (self + 1 + n) % s.cores
      if victim = self ∨ acquired victim = false then best
      else if best.2 < s.runnableCount victim then (some victim, s.runnableCount victim) else best)
      (none, 0)
    match best.1 with
    | none => (none, s)
    | some victim =>
      if best.2 < stealMinRemoteReady then (none, s)
      else
        let r := stealOneFromLockedVictim s self victim
        match r.1 with
        | none => r
        | some t => (some t, r.2.setTask t fun k => { k with enqueueTick := s.ticks self })

def dequeue (s : State) (c : ℕ) (acquired : ℕ → Bool) : Except String (ℕ × State) := do
  let s ← promoteExpiredTasks s c
  match (List.range maxQueues).find? fun p => s.taskQueues (c, p) ≠ [] with
  | some p =>
    match s.taskQueues (c, p) with
    | [] => .ok (s.idleTask c, s)
    | t :: _ => .ok (t, unlinkQueued s c t p)
  | none =>
    match stealTask s c acquired with
    | (some t, s) => .ok (t, s)
    | (none, s) => .ok (s.idleTask c, s)

/-! ### `schedule` -/

/-- A sleeper whose time has come is made ready. -/
def wakeSleeper (c : ℕ) (s : State) (t : ℕ) : Except String State :=
  if (s.task t).wakeupTime ≤ s.ticks c then
    let s := { s with sleepList := update s.sleepList c ((s.sleepList c).erase t) }
    enqueue (s.setState t .ready) c t
  else .ok s

/-- The loop of `schedule` over the sleep list. -/
def wakeSleepers (s : State) (c : ℕ) : Except String State :=
  (s.sleepList c).foldlM (wakeSleeper c) s

/-- From `pick_next` on. -/
def pickNext (s : State) (c : ℕ) (acquired : ℕ → Bool) : Except String State := do
  let (next, s) ← dequeue s c acquired
  let s := s.setState next .running
  .ok { s with currentTask := update s.currentTask c next }

/-- What a timer tick does to a task that is running. -/
def chargeQuantum (k : Task) : Task :=
  let quantum := (k.quantum + 2 ^ 64 - 1) % 2 ^ 64
  if quantum = 0 then
    let priority := if k.priority < maxQueues - 1 then k.priority + 1 else k.priority
    { k with priority := priority, quantum := timeQuantums.getD priority 0, state := .ready }
  else { k with quantum := quantum }

/-- `schedule` after the sleep list: the task on the CPU goes to a queue if it was running, unless
it may go on. -/
def preempt (s : State) (c : ℕ) (isTimerTick : Bool) (acquired : ℕ → Bool) :
    Except String State :=
  let current := s.currentTask c
  if current ≠ s.idleTask c ∧ (s.task current).state = .running then
    if isTimerTick then
      let s := s.setTask current chargeQuantum
      if (s.task current).state = .ready then do
        let s ← enqueue s c current
        pickNext s c acquired
      else if (List.range (s.task current).priority).any fun p => s.taskQueues (c, p) ≠ [] then do
        let s ← enqueue (s.setState current .ready) c current
        pickNext s c acquired
      else .ok s
    else do
      let s ← enqueue (s.setState current .ready) c current
      pickNext s c acquired
  else pickNext s c acquired

def schedule (s : State) (c : ℕ) (isTimerTick : Bool) (acquired : ℕ → Bool) :
    Except String State :=
  if isTimerTick then do
    let s ← wakeSleepers s c
    preempt s c true acquired
  else preempt s c false acquired

/-! ### Blocking and waking -/

def blockCurrent (s : State) (c : ℕ) (state : TaskState) : Bool × State :=
  if state = .ready ∨ state = .running ∨ state = .zombie then (false, s)
  else if s.currentTask c = s.idleTask c then (false, s)
  else (true, s.setState (s.currentTask c) state)

/-- The critical section that `wake`, `unfreeze` and `wake_blocked_or_waiting` have in common; the
CPU is the one that `last_cpu_index` named before its lock was taken. -/
def wakeWhen (wakes : TaskState → Bool) (s : State) (cpu t : ℕ) (locks : TryLocks) :
    Except String (Bool × State) :=
  if wakes (s.task t).state then do
    let s ← enqueueReadyOnBestCpu (s.setState t .ready) cpu t locks
    .ok (true, s)
  else .ok (false, s)

def wake : State → ℕ → ℕ → TryLocks → Except String (Bool × State) :=
  wakeWhen fun state => state = .waiting

def unfreeze : State → ℕ → ℕ → TryLocks → Except String (Bool × State) :=
  wakeWhen fun state => state = .frozen

def wakeBlockedOrWaiting : State → ℕ → ℕ → TryLocks → Except String (Bool × State) :=
  wakeWhen fun state => state = .waiting ∨ state = .blocked

def sleep (s : State) (c ticks : ℕ) : State :=
  let current := s.currentTask c
  { s.setTask current fun k =>
      { k with state := .sleeping, wakeupTime := (s.ticks c + ticks) % 2 ^ 64 } with
    sleepList := update s.sleepList c (current :: s.sleepList c) }

/-! ### Processes -/

/-- `reparent_children` gives one child to its new parent. -/
def reparentChild (adopter : Option ℕ) (s : State) (child : ℕ) : State :=
  let s := s.setTask child fun k => { k with parent := adopter }
  adopter.elim s fun a => s.setTask a fun k => { k with children := child :: k.children }

def reparentChildren (s : State) (c oldParent : ℕ) : Except String State :=
  if (s.task oldParent).children = [] then .ok s
  else
    let adopter := if s.initTask = some oldParent then none else s.initTask
    let children := (s.task oldParent).children
    let s := s.setTask oldParent fun k => { k with children := [] }
    let s := children.foldl (reparentChild adopter) s
    match adopter with
    | none => .ok s
    | some a => if (s.task a).state = .blocked then enqueue (s.setState a .ready) c a else .ok s

def exit (s : State) (c : ℕ) (code : ℤ) (locks : TryLocks) : Except String State :=
  let current := s.currentTask c
  if (s.task current).id = 1 then .error "init process exited"
  else do
    let s := s.setTask current fun k => { k with exitCode := code, state := .zombie }
    let s ← reparentChildren s c current
    match (s.task current).parent with
    | none => .ok s
    | some p =>
      if (s.task p).state = .blocked ∨ (s.task p).state = .waiting then
        enqueueReadyOnBestCpu (s.setState p .ready) c p locks
      else .ok s

/-- How a round of `wait` ends. -/
inductive WaitResult where
  | noChild
  | reaped (id : ℕ) (exitCode : ℤ)
  | blocked

/-- The child that `wait` reaps. -/
def zombieChild (s : State) (t : ℕ) : Option ℕ :=
  (s.task t).children.find? fun child => (s.task child).state = .zombie

/-- One round of `wait`. -/
def wait (s : State) (c : ℕ) : WaitResult × State :=
  let current := s.currentTask c
  if (s.task current).children = [] then (.noChild, s)
  else
    match zombieChild s current with
    | some child =>
      (.reaped (s.task child).id (s.task child).exitCode,
        { s.setTask current fun k => { k with children := k.children.erase child } with
          allTasks := s.allTasks.erase child })
    | none => (.blocked, s.setState current .blocked)

def allocateTaskIdLocked (s : State) : ℕ × State :=
  if s.nextTid = 1 then (2, { s with nextTid := 3 })
  else (s.nextTid, { s with nextTid := s.nextTid + 1 })

/-- A new task is put into its place: first child of its parent, first of all tasks. -/
def linkTask (s : State) (parent child : ℕ) (k : Task) : State :=
  let s := { s with task := update s.task child k, allTasks := child :: s.allTasks }
  s.setTask parent fun k => { k with children := child :: k.children }

/-- `clone`, once the new task structure `child` has its resources. -/
def clone (s : State) (c child : ℕ) (locks : TryLocks) : Except String State :=
  let parent := s.currentTask c
  let (id, s) := allocateTaskIdLocked s
  let s := linkTask s parent child
    { s.task parent with id := id, state := .ready, parent := some parent, children := [] }
  enqueueReadyOnBestCpu s c child locks

/-- `spawn_internal`; `init` is the case `forced_id == 1`. -/
def spawn (s : State) (c child : ℕ) (state : TaskState) (init : Bool) (locks : TryLocks) :
    Except String State :=
  let parent := s.currentTask c
  if state ≠ .ready ∧ state ≠ .frozen then .error "invalid initial task state"
  else if init ∧ s.initTask ≠ none then .error "init task already exists"
  else
    let (id, s) := if init then (1, s) else allocateTaskIdLocked s
    let s := { s with initTask := if init then some child else s.initTask }
    let s := linkTask s parent child
      { id := id
        state := state
        priority := 0
        quantum := timeQuantums.getD 0 0
        enqueueTick := 0
        lastCpuIndex := c
        wakeupTime := 0
        exitCode := 0
        parent := some parent
        children := [] }
    if state = .ready then enqueueReadyOnBestCpu s c child locks else .ok s

end RHKernel.Sched
