import Mathlib.Algebra.Ring.Nat
import RHKernel.Smp.Scheduler.QueueOps

/-!
# Runs over the run queues

A step is a call of one of the functions that work on the run queues, on any CPU, or something
that the rest of the kernel does between two such calls: a tick of the timer, a task that goes to
sleep or blocks, a write to the fields of a task structure.

`enqueue` relies on its callers. It prints a line for a task that is not `READY` and puts it into
the queue all the same. It panics for a task with a neighbour, but the only task of a queue has
none, so it can be put into a queue a second time. And a task that is `READY` in one queue while a
CPU still runs it, after a wake-up that came too early, is given another state where it is. If no
step does such a thing, the queues stay well formed and their counters do not underflow.
-/

namespace RHKernel.Sched

open DList Function List Refine Relation Step

/-- The run queues are well formed: doubly linked lists `q` of `READY` tasks, oldest first, with
their counters. -/
structure QueuesOk (P : Cpus) (q : ℕ × ℕ → List ℕ) : Prop where
  lists : Lists P.links P.taskQueuesHead q
  tail : ∀ w, P.taskQueuesTail w = (q w).getLast?
  ready : ∀ {c p t}, t ∈ q (c, p) → (P.task t).state = .ready ∧ (P.task t).priority = p
  count : ∀ w, P.taskQueueCount w = (q w).length
  runnable : ∀ c, P.runnableCount c =
    ((List.range maxQueues).map fun p => P.taskQueueCount (c, p)).sum
  oldest : ∀ {w t}, P.taskQueuesHead w = some t → P.oldestTick w = (P.task t).enqueueTick
  sorted : ∀ w, (q w).Pairwise fun a b => (P.task a).enqueueTick ≤ (P.task b).enqueueTick

def Cpus.WellFormed (P : Cpus) : Prop := ∃ q, QueuesOk P q

/-- The links of a run queue lead to the task. -/
def Cpus.Queued (P : Cpus) (t : ℕ) : Prop :=
  ∃ w n, walk P.links.next (P.taskQueuesHead w) n = some t

/-- The links of a sleep list lead to the task. -/
def Cpus.Asleep (P : Cpus) (t : ℕ) : Prop :=
  ∃ c n, walk P.links.next (P.sleepListHead c) n = some t

/-- The state after boot: the queues are empty and every CPU runs its idle task. -/
structure Cpus.Booted (P : Cpus) : Prop where
  head : ∀ w, P.taskQueuesHead w = none
  tail : ∀ w, P.taskQueuesTail w = none
  count : ∀ w, P.taskQueueCount w = 0
  runnable : ∀ c, P.runnableCount c = 0
  sleepers : ∀ c, P.sleepListHead c = none
  links : ∀ t, P.links.next t = none ∧ P.links.prev t = none
  idle : ∀ {c}, c < P.cores → (P.task (P.idleTask c)).state = .running
  idle_inj : ∀ {c c'}, c < P.cores → c' < P.cores → P.idleTask c = P.idleTask c' → c = c'
  current : ∀ {c}, c < P.cores → P.currentTask c = P.idleTask c

/-- What can happen to the run queues. -/
inductive QueueOp where
  | enqueue (c t : ℕ)
  | dequeue (c : ℕ) (acquired : ℕ → Bool)
  | stealTask (c : ℕ) (acquired : ℕ → Bool)
  | promoteExpiredTasks (c : ℕ)
  | schedule (c : ℕ) (isTimerTick : Bool) (acquired : ℕ → Bool)
  | wake (cpu t : ℕ) (locks : TryLocks)
  | unfreeze (cpu t : ℕ) (locks : TryLocks)
  | wakeBlockedOrWaiting (cpu t : ℕ) (locks : TryLocks)
  | blockCurrent (c : ℕ) (state : TaskState)
  | sleep (c ticks : ℕ)
  | tick (c : ℕ)
  | write (t : ℕ) (k : Task)

namespace QueueOp

/-- The five functions over the run queues. -/
def OverQueues : QueueOp → Prop
  | enqueue _ _ | dequeue _ _ | stealTask _ _ | promoteExpiredTasks _ | schedule _ _ _ => True
  | _ => False

def run (P : Cpus) (fuel : ℕ) : QueueOp → Except Stop Cpus
  | enqueue c t => P.enqueue c t
  | dequeue c acquired => do
    let r ← P.dequeue c acquired fuel
    .ok r.2
  | stealTask c acquired => do
    let r ← P.stealTask c acquired
    .ok r.2
  | promoteExpiredTasks c => P.promoteExpiredTasks c fuel
  | schedule c isTimerTick acquired => P.schedule c isTimerTick acquired fuel
  | wake cpu t locks => P.wakeWhen (fun state => state = .waiting) cpu t locks
  | unfreeze cpu t locks => P.wakeWhen (fun state => state = .frozen) cpu t locks
  | wakeBlockedOrWaiting cpu t locks =>
    P.wakeWhen (fun state => state = .waiting ∨ state = .blocked) cpu t locks
  | blockCurrent c state => .ok (P.blockCurrent c state)
  | sleep c ticks => .ok (P.sleep c ticks)
  | tick c => .ok (P.tick c)
  | write t k => .ok (P.setTask t fun _ => k)

/-- The CPU that calls exists. -/
def OnCpu (P : Cpus) : QueueOp → Prop
  | schedule c _ _ | blockCurrent c _ | sleep c _ => c < P.cores
  | _ => True

/-- What the code does not check: `enqueue` of a task that is not `READY` or is queued, other
writes to a task that is in a queue, in a sleep list or idle, a tick after which the counter
starts again. -/
def Bad (P : Cpus) : QueueOp → Prop
  | enqueue _ t => (P.task t).state ≠ .ready ∨ P.Queued t
  | blockCurrent c _ => P.Queued (P.currentTask c) ∨ P.Asleep (P.currentTask c)
  | sleep c _ => P.Queued (P.currentTask c) ∨ P.Asleep (P.currentTask c) ∨
      P.currentTask c = P.idleTask c
  | tick c => 2 ^ 64 ≤ P.ticks c + 1
  | write t _ => P.Queued t ∨ P.Asleep t ∨ ∃ c < P.cores, t = P.idleTask c
  | _ => False

/-- A step that does not panic. -/
def Step (op : QueueOp) (P P' : Cpus) : Prop := op.OnCpu P ∧ ∃ fuel, op.run P fuel = .ok P'

end QueueOp

section Runs

variable {P P' : Cpus} {s : State} {c t : ℕ}

/-! ### What the pointers say -/

theorem Rep.queued_iff (h : Rep P s) : P.Queued t ↔ ∃ w, t ∈ s.taskQueues w :=
  exists_congr fun w => (h.lists.linked w).chain.walk_iff

theorem Rep.asleep_iff (h : Rep P s) : P.Asleep t ↔ ∃ c, t ∈ s.sleepList c :=
  exists_congr fun c => (h.chain c).walk_iff

theorem Rep.wellFormed (h : Rep P s) : P.WellFormed := by
  refine ⟨s.taskQueues, h.lists, h.tail, fun ht => ?_, h.count, fun c => ?_, fun {w t} ht => ?_, ?_⟩
  · rw [h.task]
    exact ⟨(h.ordered.queued ht).2.1, (h.ordered.queued ht).2.2.1⟩
  · have hrange : List.range maxQueues = [0, 1, 2, 3] := rfl
    rw [h.runnable, queued, hrange]
    simp only [h.count, foldl_cons, foldl_nil, map_cons, map_nil,
      sum_cons, sum_nil]
    omega
  · rw [h.oldestTick, h.task]
    exact h.ordered.oldest ((h.lists.head_eq w).symm.trans ht)
  · rw [h.task]
    exact h.ordered.sorted

theorem Cpus.Booted.rep (h : P.Booted) : ∃ s, Rep P s := by
  refine ⟨{
    cores := P.cores, ticks := P.ticks, currentTask := P.currentTask, idleTask := P.idleTask
    taskQueues := fun _ => [], oldestTick := P.oldestTick, sleepList := fun _ => []
    task := P.task, allTasks := [], initTask := none, nextTid := 2 },
    rfl, rfl, rfl, rfl, rfl, rfl, ⟨h.head, fun _ => nodup_nil, nofun⟩, h.tail, h.count,
    h.runnable, h.sleepers, nofun, fun _ _ => h.links _, ?_⟩
  exact ⟨Queues.apart_nil, nofun, nofun, fun _ => List.Pairwise.nil, Queues.apart_nil, nofun,
    h.idle, h.idle_inj, fun hc hc' he => h.idle_inj hc' hc ((h.current hc').symm.trans he)⟩

variable (h : Rep P s)

include h

theorem Rep.unlisted (hq : ¬P.Queued t) (hs : ¬P.Asleep t)
    (hidle : ∀ {c}, c < s.cores → t ≠ s.idleTask c) : Unlisted s t :=
  ⟨fun w hw => hq (h.queued_iff.mpr ⟨w, hw⟩), fun c hc => hs (h.asleep_iff.mpr ⟨c, hc⟩), hidle⟩

/-! ### One step -/

theorem Rep.unlisted_of_ready (hready : (P.task t).state = .ready)
    (hq : ¬P.Queued t) : Unlisted s t := by
  rw [h.task] at hready
  refine h.unlisted hq (fun hs => ?_) fun hc => h.ordered.ne_idle (by rw [hready]; nofun) hc
  obtain ⟨c, hc⟩ := h.asleep_iff.mp hs
  exact nomatch hready.symm.trans (h.ordered.asleep hc)

theorem Rep.wakeWhen {e : Prop} {wakes : TaskState → Bool} {locks : TryLocks}
    (hwakes : ∀ state, wakes state = true →
      state = .waiting ∨ state = .blocked ∨ state = .frozen) :
    ∃ y, Follows Rep e (P.wakeWhen wakes c t locks) y := by
  by_cases hw : wakes (P.task t).state = true
  · have hcases := hwakes _ hw
    rw [h.task] at hcases
    have hu : Unlisted s t := by
      refine h.ordered.unlisted ?_ ?_ (h.ordered.ne_idle ?_) <;>
        (intro he; rw [he] at hcases; exact absurd hcases (by decide))
    have hu' := (h.ordered.setTask hu fun k => { k with state := .ready }).2
    rw [Cpus.wakeWhen, if_pos hw]
    exact ⟨_, (h.setTask hu _).enqueueReadyOnBestCpu hu' (by rw [setTask_task_self])⟩
  · rw [Cpus.wakeWhen, if_neg hw]
    exact ⟨.ok s, .ok h⟩

/-- The task on a CPU, if the pointers show it in no list. -/
theorem Rep.unlisted_current (hc : c < P.cores)
    (hidle : P.currentTask c ≠ P.idleTask c) (hq : ¬P.Queued (P.currentTask c))
    (hs : ¬P.Asleep (P.currentTask c)) : Unlisted s (P.currentTask c) := by
  refine h.unlisted hq hs fun {c'} hc' he => hidle ?_
  rw [h.currentTask] at he
  obtain rfl := h.ordered.idle_on hc' (h.cores ▸ hc) he
  rw [h.currentTask, h.idleTask, he]

theorem Rep.blockCurrent (state : TaskState) (hc : c < P.cores)
    (hq : ¬P.Queued (P.currentTask c)) (hs : ¬P.Asleep (P.currentTask c)) :
    ∃ s', Rep (P.blockCurrent c state) s' := by
  unfold Cpus.blockCurrent
  split
  · exact ⟨s, h⟩
  split
  · exact ⟨s, h⟩
  rename_i hidle
  exact ⟨_, h.setTask (h.unlisted_current hc hidle hq hs) _⟩

theorem Rep.later {f : ℕ → ℕ} (hle : ∀ c, s.ticks c ≤ f c) :
    Rep { P with ticks := f } { s with ticks := f } := by
  obtain ⟨h1, -, h3, h4, h5, h6, h7, h8, h9, h10, h11, h12, h13, ho⟩ := h
  refine ⟨h1, rfl, h3, h4, h5, h6, h7, h8, h9, h10, h11, h12, h13, ho.queues, fun hx => ?_,
    ho.oldest, ho.sorted, ho.sleepers, ho.asleep, ho.idle, ho.idle_inj, ho.idle_on⟩
  obtain ⟨hp, hst, hprio, htick⟩ := ho.queued hx
  exact ⟨hp, hst, hprio, htick.trans (hle _)⟩

theorem Rep.tick (hwrap : P.ticks c + 1 < 2 ^ 64) : ∃ s', Rep (P.tick c) s' := by
  refine ⟨_, h.later ?_⟩
  rw [← h.ticks, Nat.mod_eq_of_lt hwrap]
  exact le_update_self_iff.mpr (Nat.le_succ _)

/-- **One step**: what is not bad follows the lists, and with enough fuel it ends. -/
theorem Rep.step {op : QueueOp} (hcpu : op.OnCpu P) (hbad : ¬op.Bad P) :
    ∃ c, ∀ fuel, ∃ y, Follows Rep (s.load c + 1 < fuel) (op.run P fuel) y := by
  have hd : ∀ c, During s c (s.load c) P s := fun c => ⟨h, .refl s, le_rfl⟩
  cases op with
  | enqueue c t =>
    obtain ⟨hready, hq⟩ := not_or.mp hbad
    have hu := h.unlisted_of_ready (not_not.mp hready) hq
    rw [h.task] at hready
    exact ⟨c, fun fuel => ⟨_, h.enqueue hu (not_not.mp hready)⟩⟩
  | dequeue c acquired =>
    refine ⟨c, fun fuel => ⟨dequeue s c acquired >>= fun r => .ok r.2, ?_⟩⟩
    exact (((hd c).dequeue fuel).weaken Nat.lt_of_succ_lt).bind fun hr => .ok hr.during.rep
  | stealTask c acquired =>
    refine ⟨c, fun fuel => ⟨.ok (stealTask s c acquired) >>= fun r => .ok r.2, ?_⟩⟩
    exact ((hd c).stealTask acquired).bind fun hr => .ok hr.during.rep
  | promoteExpiredTasks c =>
    refine ⟨c, fun fuel => ⟨promoteExpiredTasks s c, ?_⟩⟩
    exact (((hd c).promoteExpiredTasks fuel).weaken Nat.lt_of_succ_lt).mono fun hr => hr.rep
  | schedule c isTimerTick acquired =>
    exact ⟨c, fun fuel => ⟨_, h.schedule (h.cores ▸ hcpu) fuel⟩⟩
  | wake cpu t locks =>
    exact ⟨cpu, fun _ => h.wakeWhen fun state hw => .inl (of_decide_eq_true hw)⟩
  | unfreeze cpu t locks =>
    exact ⟨cpu, fun _ => h.wakeWhen fun state hw => .inr (.inr (of_decide_eq_true hw))⟩
  | wakeBlockedOrWaiting cpu t locks =>
    exact ⟨cpu, fun _ => h.wakeWhen fun state hw => Or.imp_right .inl (of_decide_eq_true hw)⟩
  | blockCurrent c state =>
    obtain ⟨hq, hs⟩ := not_or.mp hbad
    obtain ⟨s', h'⟩ := h.blockCurrent state hcpu hq hs
    exact ⟨c, fun _ => ⟨.ok s', .ok h'⟩⟩
  | sleep c ticks =>
    obtain ⟨hq, hs, hidle⟩ : ¬P.Queued (P.currentTask c) ∧ ¬P.Asleep (P.currentTask c) ∧
        P.currentTask c ≠ P.idleTask c := by simpa only [QueueOp.Bad, not_or] using hbad
    have hu := h.unlisted_current hcpu hidle hq hs
    rw [h.currentTask] at hu
    exact ⟨c, fun _ => ⟨.ok _, .ok (h.sleep ticks hu)⟩⟩
  | tick c =>
    obtain ⟨s', h'⟩ := h.tick (Nat.lt_of_not_le hbad)
    exact ⟨c, fun _ => ⟨.ok s', .ok h'⟩⟩
  | write t k =>
    obtain ⟨hq, hs, hidle⟩ : ¬P.Queued t ∧ ¬P.Asleep t ∧ ∀ c < P.cores, t ≠ P.idleTask c := by
      simpa only [QueueOp.Bad, not_or, not_exists, not_and] using hbad
    rw [h.cores, h.idleTask] at hidle
    have hu := h.unlisted hq hs fun hc => hidle _ hc
    exact ⟨0, fun _ => ⟨.ok _, .ok (h.setTask hu fun _ => k)⟩⟩

omit h

/-! ### What `enqueue` asks of its callers -/

theorem Cpus.WellFormed.next_of_tail (h : P.WellFormed) {w : ℕ × ℕ}
    (ht : P.taskQueuesTail w = some t) : P.links.next t = none := by
  obtain ⟨q, h⟩ := h
  rw [h.tail, getLast?_eq_some_iff] at ht
  obtain ⟨l, hl⟩ := ht
  have hlinked := h.lists.linked w
  rw [hl] at hlinked
  exact hlinked.split.2

/-- The first task of a queue and its successor are ready. -/
theorem Cpus.WellFormed.ready_of_walk (h : P.WellFormed) (ht : P.Queued t) :
    (P.task t).state = .ready := by
  obtain ⟨q, h⟩ := h
  obtain ⟨w, ht⟩ := ht
  exact (h.ready (c := w.1) (p := w.2) ((h.lists.linked w).chain.walk_iff.mp ht)).1

/-- What `enqueue` leaves at the end of the queue. -/
theorem Cpus.enqueue_ok (h : P.enqueue c t = .ok P') :
    (P.links.next t = none ∧ P.links.prev t = none) ∧
      P'.links = (P.link c t (P.task t).priority).links ∧
      P'.taskQueuesHead = (P.link c t (P.task t).priority).taskQueuesHead ∧
      P'.taskQueuesTail (c, (P.task t).priority) = some t ∧
      (P'.task t).state = (P.task t).state := by
  unfold Cpus.enqueue at h
  by_cases hp : maxQueues ≤ (P.task t).priority
  · simp only [if_pos hp] at h
    cases h
  by_cases hlink : P.links.next t ≠ none ∨ P.links.prev t ≠ none
  · simp only [if_neg hp, if_pos hlink] at h
    cases h
  simp only [if_neg hp, if_neg hlink] at h
  cases h
  refine ⟨by simpa only [not_or, not_not] using hlink, rfl, rfl, ?_, ?_⟩
  · simp only [Cpus.link, update_self]
  · simp only [Cpus.link, Cpus.setTask, update_self]

/-- `enqueue` keeps the queues well formed exactly for a `READY` task that is in no queue. -/
theorem Rep.enqueue_iff (h : Rep P s) (hP' : P.enqueue c t = .ok P') :
    P'.WellFormed ↔ (P.task t).state = .ready ∧ ¬P.Queued t := by
  constructor
  · intro hwf
    obtain ⟨hfree, hlinks, hhead, htail, hstate⟩ := Cpus.enqueue_ok hP'
    have hlast := hwf.next_of_tail htail
    obtain ⟨q, hok⟩ := hwf
    have hmem : t ∈ q (c, (P.task t).priority) :=
      mem_of_getLast? ((hok.tail _).symm.trans htail)
    refine ⟨hstate ▸ (hok.ready hmem).1, fun hq => ?_⟩
    obtain ⟨w, hw⟩ := h.queued_iff.mp hq
    -- the guard has let `t` pass, so it is the only task of its queue
    have halone := ((h.lists.linked w).alone_iff hw).mp hfree
    have hheadw : P.taskQueuesHead w = some t := by rw [h.lists.head_eq, halone]; rfl
    by_cases hwc : w = (c, (P.task t).priority)
    · have htailw : P.taskQueuesTail (c, (P.task t).priority) = some t := by
        rw [← hwc, h.tail, halone]
        rfl
      rw [hwc] at hheadw
      rw [hlinks] at hlast
      simp [Cpus.link, hheadw, htailw] at hlast
    · have hheadw' : P'.taskQueuesHead w = some t := by
        simp only [hhead, Cpus.link]
        split
        · rw [update_of_ne hwc, hheadw]
        · exact hheadw
      exact hwc (hok.lists.disjoint (hok.lists.head_mem hheadw') hmem)
  · rintro ⟨hready, hq⟩
    have hu := h.unlisted_of_ready hready hq
    rw [h.task] at hready
    have hf := h.enqueue (c := c) (e := True) hu hready
    rw [hP'] at hf
    obtain ⟨s', -, h'⟩ := hf.of_ok
    exact h'.wellFormed

/-- **Run queues.** -/
theorem queues_wellFormed_of_run {P₀ : Cpus} (hb : P₀.Booted)
    (hrun : ReflTransGen (fun a b => ∃ op : QueueOp, op.Step a b ∧ ¬op.Bad a) P₀ P) :
    P.WellFormed ∧
      (∀ op : QueueOp, op.OnCpu P → ¬op.Bad P → (∀ fuel, op.run P fuel ≠ .error Cpus.underflow) ∧
        ∃ n, ∀ fuel > n, op.run P fuel ≠ .error .outOfFuel) ∧
      ∀ c t P', P.enqueue c t = .ok P' →
        (P'.WellFormed ↔ (P.task t).state = .ready ∧ ¬P.Queued t) := by
  obtain ⟨s, h⟩ : ∃ s, Rep P s := run_invariant (I := fun x => ∃ s, Rep x s) hrun hb.rep
    fun ⟨s, h⟩ ⟨op, ⟨hcpu, fuel, hok⟩, hbad⟩ => by
      obtain ⟨c, hf⟩ := h.step hcpu hbad
      obtain ⟨y, hf⟩ := hf fuel
      rw [hok] at hf
      obtain ⟨s', -, h'⟩ := hf.of_ok
      exact ⟨s', h'⟩
  refine ⟨h.wellFormed, fun op hcpu hbad => ?_, fun c t P' hP' => h.enqueue_iff hP'⟩
  obtain ⟨c, hf⟩ := h.step hcpu hbad
  refine ⟨fun fuel he => ?_, s.load c + 1, fun fuel hfuel => ?_⟩
  · obtain ⟨y, hf⟩ := hf fuel
    rw [he] at hf
    exact absurd hf.of_panic (by decide)
  · obtain ⟨y, hf⟩ := hf fuel
    exact hf.ne_outOfFuel hfuel

end Runs

/-! ### Two CPUs -/

/-- Two CPUs with their idle tasks `100` and `101`, a task `5` that is ready, and others that are
frozen. -/
def twoQueues : Cpus where
  cores := 2
  ticks _ := 0
  currentTask c := 100 + c
  idleTask c := 100 + c
  taskQueuesHead _ := none
  taskQueuesTail _ := none
  taskQueueCount _ := 0
  runnableCount _ := 0
  oldestTick _ := 0
  sleepListHead _ := none
  links := ⟨fun _ => none, fun _ => none⟩
  task t := ⟨t, if 100 ≤ t then .running else if t = 5 then .ready else .frozen, 0, 2, 0, 0, 0, 0,
    none, []⟩

theorem booted_twoQueues : twoQueues.Booted where
  head _ := rfl
  tail _ := rfl
  count _ := rfl
  runnable _ := rfl
  sleepers _ := rfl
  links _ := ⟨rfl, rfl⟩
  idle {c} _ := if_pos (Nat.le_add_right 100 c)
  idle_inj _ _ h := add_left_cancel h
  current _ := rfl

namespace QueueOp

instance (P : Cpus) (op : QueueOp) : Decidable (op.OnCpu P) :=
  match op with
  | schedule c _ _ | blockCurrent c _ | sleep c _ => inferInstanceAs (Decidable (c < P.cores))
  | enqueue _ _ | dequeue _ _ | stealTask _ _ | promoteExpiredTasks _ | wake _ _ _ | unfreeze _ _ _
  | wakeBlockedOrWaiting _ _ _ | tick _ | write _ _ => isTrue trivial

/-- A step that is evaluated, with its fuel. -/
def exec (P : Cpus) (x : QueueOp × ℕ) : Option Cpus :=
  if x.1.OnCpu P then (x.1.run P x.2).toOption else none

theorem exec_step {P P' : Cpus} {x : QueueOp × ℕ} (h : exec P x = some P') : x.1.Step P P' := by
  obtain ⟨hcpu, h⟩ := Option.ite_none_right_eq_some.mp h
  exact ⟨hcpu, x.2, ok_of_toOption h⟩

end QueueOp

/-- Two tasks are made ready, and one of them runs. -/
def unfreezeTwo : List (QueueOp × ℕ) :=
  [(.unfreeze 0 7 ⟨fun _ => true, true⟩, 0), (.unfreeze 0 8 ⟨fun _ => true, true⟩, 0),
    (.schedule 0 false fun _ => true, 3)]

theorem queues_wellFormed_of_run_unfreeze : ∃ P, ReflTransGen
    (fun a b => ∃ op : QueueOp, op.Step a b ∧ ¬op.Bad a) twoQueues P ∧
      P.taskQueuesHead (0, 0) = some 8 ∧ P.WellFormed := by
  obtain ⟨P, hrun, hhead⟩ := exists_run (f := QueueOp.exec) (s := twoQueues) (l := unfreezeTwo)
    (r := fun a b => ∃ op : QueueOp, op.Step a b ∧ ¬op.Bad a)
    (Q := fun P => P.taskQueuesHead (0, 0) = some 8) (fun x hx a b h => by
      simp only [unfreezeTwo, mem_cons, not_mem_nil, or_false] at hx
      rcases hx with rfl | rfl | rfl <;> exact ⟨_, QueueOp.exec_step h, id⟩) (by decide)
  exact ⟨P, hrun, hhead, (queues_wellFormed_of_run booted_twoQueues hrun).1⟩

/-- `enqueue` of the only task of a queue makes it its own neighbour. And a task that is woken
before its CPU has switched runs on another CPU; when its first CPU puts it back into a queue and
the other one blocks it, it is in the queue without being ready. -/
theorem queues_corrupted :
    (¬∀ P₀ P : Cpus, P₀.Booted → ReflTransGen
      (fun a b => ∃ op : QueueOp, op.Step a b ∧ op.OverQueues) P₀ P → P.WellFormed) ∧
    ¬∀ P₀ P : Cpus, P₀.Booted → ReflTransGen
      (fun a b => ∃ op : QueueOp, op.Step a b ∧ (∀ c t, op ≠ .enqueue c t) ∧ ∀ t k, op ≠ .write t k)
      P₀ P → P.WellFormed := by
  constructor
  · intro hall
    obtain ⟨P, hrun, htail, hnext⟩ := exists_run (f := QueueOp.exec) (s := twoQueues)
      (r := fun a b => ∃ op : QueueOp, op.Step a b ∧ op.OverQueues)
      (l := [(.enqueue 0 5, 0), (.enqueue 0 5, 0)])
      (Q := fun P => P.taskQueuesTail (0, 0) = some 5 ∧ P.links.next 5 = some 5)
      (fun x hx a b h => by
        simp only [mem_cons, not_mem_nil, or_false, or_self] at hx
        exact ⟨_, QueueOp.exec_step h, hx ▸ trivial⟩) (by decide)
    exact nomatch hnext.symm.trans ((hall _ _ booted_twoQueues hrun).next_of_tail htail)
  · intro hall
    obtain ⟨P, hrun, hhead, hstate⟩ := exists_run (f := QueueOp.exec) (s := twoQueues)
      (r := fun a b => ∃ op : QueueOp, op.Step a b ∧ (∀ c t, op ≠ .enqueue c t) ∧
        ∀ t k, op ≠ .write t k)
      (l := unfreezeTwo ++ [(.blockCurrent 0 .waiting, 0), (.wake 0 7 ⟨fun _ => true, true⟩, 0),
        (.schedule 1 false fun _ => true, 3), (.schedule 0 false fun _ => true, 3),
        (.blockCurrent 1 .waiting, 0)])
      (Q := fun P => P.taskQueuesHead (0, 0) = some 7 ∧ (P.task 7).state = .waiting)
      (fun x hx a b h => by
        simp only [unfreezeTwo, cons_append, nil_append, mem_cons, not_mem_nil,
          or_false] at hx
        rcases hx with rfl | rfl | rfl | rfl | rfl | rfl | rfl | rfl <;>
          exact ⟨_, QueueOp.exec_step h, nofun, nofun⟩) (by decide)
    have hready := (hall _ _ booted_twoQueues hrun).ready_of_walk ⟨(0, 0), 0, hhead⟩
    exact nomatch hstate.symm.trans hready

end RHKernel.Sched
