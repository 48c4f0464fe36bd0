import RHKernel.Lib.Ends
import RHKernel.Lib.Refine
import RHKernel.Smp.Scheduler.Model

/-!
# Run queues as the code keeps them

In `cpu_local` a run queue is a head, a tail, a count and the tick of its oldest task; the tasks
of a queue are linked by their own `next` and `prev`, and the sleepers of a CPU by `next` alone.
The functions here are those of the scheduler's model with these pointers and counters instead of
lists. The loops follow pointers, so they are given fuel.
-/

namespace RHKernel.Sched

open DList Refine Function

/-- The scheduler's variables with the links of the tasks. -/
structure Cpus where
  cores : ℕ
  ticks : ℕ → ℕ
  currentTask : ℕ → ℕ
  idleTask : ℕ → ℕ
  taskQueuesHead : ℕ × ℕ → Option ℕ
  taskQueuesTail : ℕ × ℕ → Option ℕ
  taskQueueCount : ℕ × ℕ → ℕ
  runnableCount : ℕ → ℕ
  oldestTick : ℕ × ℕ → ℕ
  sleepListHead : ℕ → Option ℕ
  links : Links ℕ
  task : ℕ → Task

namespace Cpus

def setTask (P : Cpus) (t : ℕ) (f : Task → Task) : Cpus :=
  { P with task := update P.task t (f (P.task t)) }

/-- `t->state = state`. -/
def setState (P : Cpus) (t : ℕ) (state : TaskState) : Cpus :=
  P.setTask t fun k => { k with state := state }

def queueOldestTick (P : Cpus) (c p : ℕ) : ℕ :=
  ((P.taskQueuesHead (c, p)).map fun head => (P.task head).enqueueTick).getD 0

def refreshQueueOldest (P : Cpus) (c p : ℕ) : Cpus :=
  { P with oldestTick := update P.oldestTick (c, p) (P.queueOldestTick c p) }

/-- The pointers that `unlink_queued` writes. -/
def unlink (P : Cpus) (c t p : ℕ) : Cpus :=
  { P with
    taskQueuesHead := if P.links.prev t = none then
      update P.taskQueuesHead (c, p) (P.links.next t) else P.taskQueuesHead
    taskQueuesTail := if P.links.next t = none then
      update P.taskQueuesTail (c, p) (P.links.prev t) else P.taskQueuesTail
    links := P.links.remove t }

/-- The panic of `unlink_queued`. -/
def underflow : Stop := .panic "scheduler queue count underflow"

def unlinkQueued (P : Cpus) (c t p : ℕ) : Except Stop Cpus :=
  let P := P.unlink c t p
  if P.taskQueueCount (c, p) = 0 ∨ P.runnableCount c = 0 then .error underflow
  else .ok ({ P with
    taskQueueCount := update P.taskQueueCount (c, p) (P.taskQueueCount (c, p) - 1)
    runnableCount :=
      update P.runnableCount c (P.runnableCount c - 1) }.refreshQueueOldest c p)

/-- The pointers that `enqueue` writes: those of `t` and those of the end of the queue. -/
def link (P : Cpus) (c t p : ℕ) : Cpus :=
  let tail := P.taskQueuesTail (c, p)
  let next := update P.links.next t none
  { P with
    links := ⟨if P.taskQueuesHead (c, p) = none then next
      else tail.elim next fun last => update next last (some t),
      update P.links.prev t tail⟩
    taskQueuesHead := if P.taskQueuesHead (c, p) = none then
      update P.taskQueuesHead (c, p) (some t) else P.taskQueuesHead
    taskQueuesTail := update P.taskQueuesTail (c, p) (some t)
    oldestTick := if P.taskQueuesHead (c, p) = none then
      update P.oldestTick (c, p) (P.task t).enqueueTick else P.oldestTick }

/-- `enqueue`; that the task is not `READY` only makes it print a line. -/
def enqueue (P : Cpus) (c t : ℕ) : Except Stop Cpus :=
  let p := (P.task t).priority
  if maxQueues ≤ p then .error (.panic "scheduler enqueue priority corrupt")
  else if P.links.next t ≠ none ∨ P.links.prev t ≠ none then
    .error (.panic "scheduler enqueue linked task")
  else
    let P := P.setTask t fun k => { k with enqueueTick := P.ticks c, lastCpuIndex := c }
    let P := P.link c t p
    .ok { P with
      taskQueueCount := update P.taskQueueCount (c, p) (P.taskQueueCount (c, p) + 1)
      runnableCount := update P.runnableCount c (P.runnableCount c + 1) }

/-- The loop of `promote_expired_tasks` over queue `i`. -/
def promoteQueue (P : Cpus) (c i : ℕ) : ℕ → Except Stop Cpus
  | 0 => .error .outOfFuel
  | n + 1 =>
    match P.taskQueuesHead (c, i) with
    | none => .ok P
    | some item =>
      if (P.ticks c + 2 ^ 64 - P.oldestTick (c, i)) % 2 ^ 64 ≤ agingThreshold then .ok P
      else do
        let P ← P.unlinkQueued c item i
        let P := P.setTask item fun k =>
          { k with priority := i - 1, quantum := timeQuantums.getD (i - 1) 0 }
        let P ← P.enqueue c item
        promoteQueue P c i n

def promoteExpiredTasks (P : Cpus) (c fuel : ℕ) : Except Stop Cpus :=
  [1, 2, 3].foldlM (fun P i => promoteQueue P c i fuel) P

def selectEnqueueCpu (P : Cpus) (preferred : ℕ) (acquired : ℕ → Bool) : ℕ :=
  if P.cores ≤ 1 then preferred
  else
    let best := (List.range P.cores).foldl (fun best i =>
      if i = preferred ∨ acquired i = false then best
      else if P.runnableCount i + 1 < best.2 then (i, P.runnableCount i) else best)
      (preferred, P.runnableCount preferred)
    if best.2 + 1 < P.runnableCount preferred then best.1 else preferred

def enqueueReadyOnBestCpu (P : Cpus) (preferred t : ℕ) (locks : TryLocks) : Except Stop Cpus :=
  let target := P.selectEnqueueCpu preferred locks.scan
  if target = preferred then P.enqueue preferred t
  else if locks.target then P.enqueue target t
  else P.enqueue preferred t

def stealOneFromLockedVictim (P : Cpus) (self victim : ℕ) : Except Stop (Option ℕ × Cpus) :=
  if self = victim ∨ P.runnableCount victim < stealMinRemoteReady then .ok (none, P)
  else
    match [3, 2, 1, 0].find? fun p => P.taskQueuesTail (victim, p) ≠ none with
    | none => .ok (none, P)
    | some p =>
      match P.taskQueuesTail (victim, p) with
      | none => .ok (none, P)
      | some t => do
        let P ← P.unlinkQueued victim t p
        .ok (some t, P.setTask t fun k => { k with lastCpuIndex := self })

/-- The CPU that `steal_task` chooses, with its load. -/
def stealVictim (P : Cpus) (self : ℕ) (acquired : ℕ → Bool) : Option ℕ × ℕ :=
  (List.range P.cores).foldl (fun (best : Option ℕ × ℕ) n =>
    let victim := (self + 1 + n) % P.cores
    if victim = self ∨ acquired victim = false then best
    else if best.2 < P.runnableCount victim then (some victim, P.runnableCount victim) else best)
    (none, 0)

/-- `steal_task` once the victim is chosen: the task gets the tick of its new CPU. -/
def stealFrom (P : Cpus) (self victim : ℕ) : Except Stop (Option ℕ × Cpus) := do
  let r ← P.stealOneFromLockedVictim self victim
  match r.1 with
  | none => .ok r
  | some t => .ok (some t, r.2.setTask t fun k => { k with enqueueTick := P.ticks self })

def stealTask (P : Cpus) (self : ℕ) (acquired : ℕ → Bool) : Except Stop (Option ℕ × Cpus) :=
  if P.cores ≤ 1 then .ok (none, P)
  else
    match (P.stealVictim self acquired).1 with
    | none => .ok (none, P)
    | some victim =>
      if (P.stealVictim self acquired).2 < stealMinRemoteReady then .ok (none, P)
      else P.stealFrom self victim

/-- `dequeue` after the promotions. -/
def takeNext (P : Cpus) (c : ℕ) (acquired : ℕ → Bool) : Except Stop (ℕ × Cpus) :=
  match (List.range maxQueues).find? fun p => P.taskQueuesHead (c, p) ≠ none with
  | some p =>
    match P.taskQueuesHead (c, p) with
    | none => .ok (P.idleTask c, P)
    | some t => do
      let P ← P.unlinkQueued c t p
      .ok (t, P)
  | none => do
    let r ← P.stealTask c acquired
    .ok (r.1.getD (r.2.idleTask c), r.2)

def dequeue (P : Cpus) (c : ℕ) (acquired : ℕ → Bool) (fuel : ℕ) : Except Stop (ℕ × Cpus) := do
  let P ← P.promoteExpiredTasks c fuel
  P.takeNext c acquired

/-- The links of a sleeper whose time has come are undone; `prev_sleep` is the last one that
sleeps on. -/
def unsleep (P : Cpus) (c : ℕ) (prevSleep : Option ℕ) (t : ℕ) : Cpus :=
  let next := prevSleep.elim P.links.next fun q => update P.links.next q (P.links.next t)
  { P with
    sleepListHead := if prevSleep = none then
      update P.sleepListHead c (P.links.next t) else P.sleepListHead
    links := ⟨update next t none, update P.links.prev t none⟩ }

/-- The loop of `schedule` over the sleep list. -/
def wakeSleepers (P : Cpus) (c : ℕ) (prevSleep sleepItem : Option ℕ) : ℕ → Except Stop Cpus
  | 0 => .error .outOfFuel
  | n + 1 =>
    match sleepItem with
    | none => .ok P
    | some t =>
      if (P.task t).wakeupTime ≤ P.ticks c then do
        let P' ← ((P.unsleep c prevSleep t).setState t .ready).enqueue c t
        wakeSleepers P' c prevSleep (P.links.next t) n
      else wakeSleepers P c (some t) (P.links.next t) n

/-- From `pick_next` on. -/
def pickNext (P : Cpus) (c : ℕ) (acquired : ℕ → Bool) (fuel : ℕ) : Except Stop Cpus := do
  let r ← P.dequeue c acquired fuel
  let P := r.2.setState r.1 .running
  .ok { P with currentTask := update P.currentTask c r.1 }

/-- `schedule` after the sleep list. -/
def preempt (P : Cpus) (c : ℕ) (isTimerTick : Bool) (acquired : ℕ → Bool) (fuel : ℕ) :
    Except Stop Cpus :=
  let current := P.currentTask c
  if current ≠ P.idleTask c ∧ (P.task current).state = .running then
    if isTimerTick then
      let P := P.setTask current chargeQuantum
      if (P.task current).state = .ready then do
        let P ← P.enqueue c current
        P.pickNext c acquired fuel
      else if (List.range (P.task current).priority).any fun p =>
          P.taskQueuesHead (c, p) ≠ none then do
        let P ← (P.setState current .ready).enqueue c current
        P.pickNext c acquired fuel
      else .ok P
    else do
      let P ← (P.setState current .ready).enqueue c current
      P.pickNext c acquired fuel
  else P.pickNext c acquired fuel

def schedule (P : Cpus) (c : ℕ) (isTimerTick : Bool) (acquired : ℕ → Bool) (fuel : ℕ) :
    Except Stop Cpus :=
  if isTimerTick then do
    let P ← P.wakeSleepers c none (P.sleepListHead c) fuel
    P.preempt c true acquired fuel
  else P.preempt c false acquired fuel

def blockCurrent (P : Cpus) (c : ℕ) (state : TaskState) : Cpus :=
  if state = .ready ∨ state = .running ∨ state = .zombie then P
  else if P.currentTask c = P.idleTask c then P
  else P.setState (P.currentTask c) state

/-- The critical section of `wake`, `unfreeze` and `wake_blocked_or_waiting`. -/
def wakeWhen (wakes : TaskState → Bool) (P : Cpus) (cpu t : ℕ) (locks : TryLocks) :
    Except Stop Cpus :=
  if wakes (P.task t).state then (P.setState t .ready).enqueueReadyOnBestCpu cpu t locks
  else .ok P

def sleep (P : Cpus) (c ticks : ℕ) : Cpus :=
  let current := P.currentTask c
  { P.setTask current fun k =>
      { k with state := .sleeping, wakeupTime := (P.ticks c + ticks) % 2 ^ 64 } with
    links := ⟨update P.links.next current (P.sleepListHead c),
      update P.links.prev current none⟩
    sleepListHead := update P.sleepListHead c (some current) }

/-- The timer interrupt counts. -/
def tick (P : Cpus) (c : ℕ) : Cpus :=
  { P with ticks := update P.ticks c ((P.ticks c + 1) % 2 ^ 64) }

end Cpus

end RHKernel.Sched
