import Mathlib.Tactic.IntervalCases
import RHKernel.Smp.Scheduler.Process

/-!
# Runs of the scheduler

A step is one critical section under a `sched_lock`, on any CPU, in any order. A CPU runs code of
a task only while that task is `RUNNING`: after `block_current`, `sleep`, `wait` or `exit` has
given it another state, the CPU goes on to `schedule`. `sleep`, `wait`, `exit` and `clone` are
called by tasks, not by the idle loop.

Between giving its task another state and switching away from it, a CPU does not hold its lock.
A wake-up that comes in this window puts a task into a run queue that is still on a CPU, and
another CPU can run it. Likewise `wait` can reap a zombie that is still on a CPU, and its memory
becomes a new task. If no step falls into the window, a task is on at most one CPU.
-/

namespace RHKernel.Sched

open Function List Option Relation Step

/-- A critical section. -/
inductive Op where
  | tick (c : ℕ)
  | blockCurrent (c : ℕ) (state : TaskState)
  | wake (cpu t : ℕ)
  | unfreeze (cpu t : ℕ)
  | wakeBlockedOrWaiting (cpu t : ℕ)
  | sleep (c ticks : ℕ)
  | exit (c : ℕ) (code : ℤ)
  | wait (c : ℕ)
  | clone (c child : ℕ)
  | spawn (c child : ℕ) (state : TaskState) (init : Bool)
  | schedule (c : ℕ) (isTimerTick : Bool)

/-- CPU `c` runs code of the task that is on it. -/
def State.Runs (s : State) (c : ℕ) : Prop :=
  c < s.cores ∧ (s.task (s.currentTask c)).state = .running

/-- The task is `current_task` of a CPU. -/
def State.OnCpu (s : State) (t : ℕ) : Prop := ∃ c < s.cores, s.currentTask c = t

instance (s : State) (c : ℕ) : Decidable (s.Runs c) :=
  inferInstanceAs (Decidable (c < s.cores ∧ (s.task (s.currentTask c)).state = .running))

instance (s : State) (t : ℕ) : Decidable (s.OnCpu t) :=
  inferInstanceAs (Decidable (∃ c < s.cores, s.currentTask c = t))

/-- A critical section that does not panic. New task structures are at addresses where there is
no task. -/
inductive SchedStep : Op → State → State → Prop
  | tick {s : State} {c : ℕ} (hc : c < s.cores) :
      SchedStep (.tick c) s { s with ticks := update s.ticks c (s.ticks c + 1) }
  | blockCurrent {s s' : State} {c : ℕ} {state : TaskState} {r : Bool} (hrun : s.Runs c)
      (h : blockCurrent s c state = (r, s')) : SchedStep (.blockCurrent c state) s s'
  | wake {s s' : State} {cpu t : ℕ} {locks : TryLocks} {r : Bool} (ht : t ∈ s.allTasks)
      (h : wake s cpu t locks = .ok (r, s')) : SchedStep (.wake cpu t) s s'
  | unfreeze {s s' : State} {cpu t : ℕ} {locks : TryLocks} {r : Bool} (ht : t ∈ s.allTasks)
      (h : unfreeze s cpu t locks = .ok (r, s')) : SchedStep (.unfreeze cpu t) s s'
  | wakeBlockedOrWaiting {s s' : State} {cpu t : ℕ} {locks : TryLocks} {r : Bool}
      (ht : t ∈ s.allTasks) (h : wakeBlockedOrWaiting s cpu t locks = .ok (r, s')) :
      SchedStep (.wakeBlockedOrWaiting cpu t) s s'
  | sleep {s : State} {c ticks : ℕ} (hrun : s.Runs c) (hidle : s.currentTask c ≠ s.idleTask c) :
      SchedStep (.sleep c ticks) s (sleep s c ticks)
  | exit {s s' : State} {c : ℕ} {code : ℤ} {locks : TryLocks} (hrun : s.Runs c)
      (hidle : s.currentTask c ≠ s.idleTask c) (h : exit s c code locks = .ok s') :
      SchedStep (.exit c code) s s'
  | wait {s s' : State} {c : ℕ} {r : WaitResult} (hrun : s.Runs c)
      (hidle : s.currentTask c ≠ s.idleTask c) (h : wait s c = (r, s')) :
      SchedStep (.wait c) s s'
  | clone {s s' : State} {c child : ℕ} {locks : TryLocks} (hrun : s.Runs c)
      (hidle : s.currentTask c ≠ s.idleTask c) (hchild : child ∉ s.allTasks)
      (h : clone s c child locks = .ok s') : SchedStep (.clone c child) s s'
  | spawn {s s' : State} {c child : ℕ} {state : TaskState} {init : Bool} {locks : TryLocks}
      (hrun : s.Runs c) (hchild : child ∉ s.allTasks)
      (h : spawn s c child state init locks = .ok s') :
      SchedStep (.spawn c child state init) s s'
  | schedule {s s' : State} {c : ℕ} {isTimerTick : Bool} {acquired : ℕ → Bool} (hc : c < s.cores)
      (h : schedule s c isTimerTick acquired = .ok s') : SchedStep (.schedule c isTimerTick) s s'

/-- The step wakes or reaps a task that is still on a CPU. -/
def Op.HitsCurrent (op : Op) (s : State) : Prop :=
  match op with
  | .wake _ t => (s.task t).state = .waiting ∧ s.OnCpu t
  | .unfreeze _ t => (s.task t).state = .frozen ∧ s.OnCpu t
  | .wakeBlockedOrWaiting _ t => s.Stopped t ∧ s.OnCpu t
  | .exit c _ => ∃ p, exitWakes s c p ∧ s.Stopped p ∧ s.OnCpu p
  | .wait c => ∃ z, zombieChild s (s.currentTask c) = some z ∧ s.OnCpu z
  | _ => False

/-- The CPUs after `init_core`: every one runs its idle task, and there is no other task. -/
structure Booted (s : State) : Prop where
  current : ∀ c < s.cores, s.currentTask c = s.idleTask c
  idle : ∀ c < s.cores, (s.task (s.idleTask c)).state = .running ∧ s.idleTask c ∈ s.allTasks
  idle_inj : ∀ c < s.cores, ∀ c' < s.cores, s.idleTask c = s.idleTask c' → c = c'
  queues : ∀ w, s.taskQueues w = []
  sleepers : ∀ c, s.sleepList c = []
  nodup : s.allTasks.Nodup
  parent : ∀ t ∈ s.allTasks, (s.task t).parent = none
  init : s.initTask = none

/-- No task is on two CPUs, no task on a CPU is in a run queue, and no task is in two run queues
or in one twice. -/
structure AtMostOneCpu (s : State) : Prop where
  current_inj : ∀ c < s.cores, ∀ c' < s.cores, s.currentTask c = s.currentTask c' → c = c'
  current_not_queued : ∀ c < s.cores, ∀ w, s.currentTask c ∉ s.taskQueues w
  queue_disjoint : ∀ w w' t, t ∈ s.taskQueues w → t ∈ s.taskQueues w' → w = w'
  queue_nodup : ∀ w, (s.taskQueues w).Nodup

/-- Which task is on which CPU. -/
def State.on (s : State) (c : ℕ) : Option ℕ := if c < s.cores then some (s.currentTask c) else none

section Run

variable {s s' : State}

theorem on_of_lt {c : ℕ} (hc : c < s.cores) : s.on c = some (s.currentTask c) := if_pos hc

theorem onCpu_of_on {c t : ℕ} (h : s.on c = some t) : s.OnCpu t := by
  unfold State.on at h
  split at h
  · exact ⟨c, ‹_›, some.inj h⟩
  · cases h

theorem on_congr (hcores : s'.cores = s.cores) (hcur : s'.currentTask = s.currentTask) :
    s'.on = s.on := by
  funext c
  rw [State.on, State.on, hcores, hcur]

theorem Switched.inv_on {c : ℕ} (hc : c < s.cores) (h : Switched s s' s.on c) : Inv s' s'.on := by
  obtain ⟨htree, t, hcur, hi⟩ := h
  have hon : s'.on = update s.on c (some t) := by
    funext x
    rw [State.on, htree.cores, hcur]
    by_cases hx : x = c
    · subst hx
      rw [if_pos hc, update_self, update_self]
    · rw [update_of_ne hx, update_of_ne hx, State.on]
  rw [hon]
  exact hi

theorem Booted.inv (hb : Booted s) : Inv s s.on where
  queues := by
    rw [funext hb.queues]
    exact Queues.apart_nil
  queued h := absurd (hb.queues _ ▸ h) not_mem_nil
  sleepers := by
    rw [funext hb.sleepers]
    exact Queues.apart_nil
  asleep h := absurd (hb.sleepers _ ▸ h) not_mem_nil
  asleep_on h := absurd (hb.sleepers _ ▸ h) not_mem_nil
  on_state {c t} h := by
    obtain ⟨c', hc, rfl⟩ := onCpu_of_on h
    rw [hb.current c' hc, (hb.idle c' hc).1]
    exact ⟨nofun, (hb.idle c' hc).2⟩
  on_inj {c c' t} h h' := by
    unfold State.on at h h'
    split at h
    · split at h'
      · rename_i hc hc'
        have he := (some.inj h).trans (some.inj h').symm
        rw [hb.current c hc, hb.current c' hc'] at he
        exact hb.idle_inj c hc c' hc' he
      · cases h'
    · cases h
  idle hc := hb.idle _ hc
  idle_inj hc hc' := hb.idle_inj _ hc _ hc'
  idle_on {c c'} hc h := by
    unfold State.on at h
    split at h
    · rename_i hc'
      have he := some.inj h
      rw [hb.current c' hc'] at he
      exact hb.idle_inj c' hc' c hc he
    · cases h
  nodup := hb.nodup

theorem Booted.parents (hb : Booted s) : Parents s where
  parent ht h := nomatch (hb.parent _ ht).symm.trans h
  init h := nomatch hb.init.symm.trans h

theorem Inv.atMostOneCpu (hi : Inv s s.on) : AtMostOneCpu s where
  current_inj _ hc _ hc' h := hi.on_inj (on_of_lt hc) (h ▸ on_of_lt hc')
  current_not_queued _ hc _ h := (hi.on_state (on_of_lt hc)).1 (hi.queued h).1
  queue_disjoint _ _ _ h h' := hi.queues.disjoint h h'
  queue_nodup := hi.queues.nodup

/-- What a step does to the tasks and their families. -/
def Op.Effect (op : Op) (s s' : State) : Prop :=
  match op with
  | .exit c _ => Terminated s s' (s.currentTask c) ∧ (s.task (s.currentTask c)).id ≠ 1
  | .wait c => (∃ z, zombieChild s (s.currentTask c) = some z ∧ Reaped s s' (s.currentTask c) z) ∨
      zombieChild s (s.currentTask c) = none ∧ SameTree s s'
  | .clone c child => Joined s s' (s.currentTask c) child ∧ s'.initTask = s.initTask
  | .spawn c child _ init => Joined s s' (s.currentTask c) child ∧
      (init = false → s'.initTask = s.initTask) ∧ (init = true → s.initTask = none)
  | _ => SameTree s s'

/-- **Step lemma**: a step that does not hit a task on a CPU keeps the invariant. -/
theorem SchedStep.inv {op : Op} (h : SchedStep op s s') (hsafe : ¬op.HitsCurrent s)
    (hi : Inv s s.on) (hinit : ∀ {a}, s.initTask = some a → a ∈ s.allTasks)
    (hparent : ∀ {t p}, t ∈ s.allTasks → (s.task t).parent = some p → p ∈ s.allTasks) :
    Inv s' s'.on ∧ op.Effect s s' := by
  -- most steps switch no CPU, so `on` stays
  have hquiet : Inv s' s.on ∧ Quiet s s' → Inv s' s'.on ∧ SameTree s s' := fun ⟨hi', hq⟩ =>
    ⟨on_congr hq.cores hq.currentTask ▸ hi', hq.toSameTree⟩
  cases h with
  | tick hc =>
    have hq : ∀ ticks, Quiet s { s with ticks := ticks } := fun _ =>
      ⟨⟨rfl, rfl, rfl, rfl, fun _ => ⟨rfl, rfl, rfl⟩, fun _ => .rfl⟩, rfl⟩
    exact hquiet ⟨{ hi with }, hq _⟩
  | blockCurrent hrun h => exact hquiet (hi.blockCurrent (on_of_lt hrun.1) hrun.2 h)
  | wake ht h =>
    exact hquiet (hi.wakeWhen (fun _ hw => .inl (of_decide_eq_true hw)) ht
      (fun hw _ hon => hsafe ⟨of_decide_eq_true hw, onCpu_of_on hon⟩) h)
  | unfreeze ht h =>
    exact hquiet (hi.wakeWhen (fun _ hw => .inr (.inr (of_decide_eq_true hw))) ht
      (fun hw _ hon => hsafe ⟨of_decide_eq_true hw, onCpu_of_on hon⟩) h)
  | wakeBlockedOrWaiting ht h =>
    exact hquiet (hi.wakeWhen (fun _ hw => (of_decide_eq_true hw).imp_right .inl) ht
      (fun hw _ hon => hsafe ⟨(of_decide_eq_true hw).symm, onCpu_of_on hon⟩) h)
  | sleep hrun hidle =>
    exact hquiet ⟨hi.sleep (on_of_lt hrun.1) hidle hrun.2, quiet_sleep hrun.2⟩
  | exit hrun hidle h =>
    obtain ⟨hi', ht, hid⟩ := hi.exit (on_of_lt hrun.1) hidle hrun.2 (fun _ => hinit)
      (fun _ => hparent (hi.on_state (on_of_lt hrun.1)).2)
      (fun p hp hs _ hon => hsafe ⟨p, hp, hs, onCpu_of_on hon⟩) h
    exact ⟨on_congr ht.cores ht.currentTask ▸ hi', ht, hid⟩
  | wait hrun hidle h =>
    have hi' := hi.wait (on_of_lt hrun.1) hidle hrun.2
      (fun z hz _ hon => hsafe ⟨z, hz, onCpu_of_on hon⟩) h
    rcases wait_cases hrun.2 h with ⟨z, hz, hr⟩ | ⟨hnone, hq⟩
    · exact ⟨on_congr hr.cores hr.currentTask ▸ hi', .inl ⟨z, hz, hr⟩⟩
    · exact ⟨on_congr hq.cores hq.currentTask ▸ hi', .inr ⟨hnone, hq.toSameTree⟩⟩
  | clone hrun hidle hchild h =>
    obtain ⟨hi', hj, hsame⟩ := hi.clone (on_of_lt hrun.1) hchild h
    exact ⟨on_congr hj.cores hj.currentTask ▸ hi', hj, hsame⟩
  | spawn hrun hchild h =>
    obtain ⟨hi', hj, hfirst⟩ := hi.spawn (on_of_lt hrun.1) hchild h
    exact ⟨on_congr hj.cores hj.currentTask ▸ hi', hj, hfirst⟩
  | schedule hc h =>
    have hsw := hi.schedule hc (on_of_lt hc) h
    exact ⟨hsw.inv_on hc, hsw.tree⟩

/-- The init task does not end and no zombie is a parent. -/
theorem SchedStep.parents {op : Op} (h : SchedStep op s s') (hsafe : ¬op.HitsCurrent s)
    (hi : Inv s s.on) (hp : Parents s) : Inv s' s'.on ∧ Parents s' := by
  obtain ⟨hi', he⟩ := h.inv hsafe hi (fun ha => (hp.init ha).1) fun ht hq => (hp.parent ht hq).1
  refine ⟨hi', ?_⟩
  cases h with
  | exit => exact hp.terminated he.1 fun ha => he.2 (hp.init ha).2.1
  | wait =>
    rcases he with ⟨z, hz, hr⟩ | ⟨-, ht⟩
    · exact hp.reaped hi.nodup (zombieChild_some hz).2 hr
    · exact hp.of_tree ht
  | clone hrun _ hchild | spawn hrun hchild =>
    exact hp.joined hchild (hi.on_state (on_of_lt hrun.1)).2 (by rw [hrun.2]; nofun) he.1
  | _ => exact hp.of_tree he

/-- A wake-up that does hit one puts a task that is on a CPU into a run queue. -/
theorem not_atMostOneCpu_of_wakeWhen {wakes : TaskState → Bool} {cpu t : ℕ} {locks : TryLocks}
    {r : Bool} (hw : wakes (s.task t).state = true) (ht : s.OnCpu t)
    (h : wakeWhen wakes s cpu t locks = .ok (r, s')) : ¬AtMostOneCpu s' := by
  intro hone
  unfold wakeWhen at h
  rw [if_pos hw] at h
  obtain ⟨s1, h1, h⟩ := ok_bind h
  cases h
  obtain ⟨c, h1⟩ := enqueueReadyOnBestCpu_cases h1
  obtain ⟨oldest, rfl⟩ := enqueue_ok h1
  obtain ⟨c', hc', rfl⟩ := ht
  refine hone.current_not_queued c' hc'
    (c, ((s.setState (s.currentTask c') .ready).task (s.currentTask c')).priority) ?_
  simp only [update_self]
  exact mem_append_right _ mem_cons_self

/-- **At most one CPU.** In every run in which no step wakes or reaps a task that is still on a
CPU, a task is on at most one CPU, and only in one place of the run queues when it is on none. A
wake-up that does so ends this at once. -/
theorem atMostOneCpu_of_run {s₀ : State} (hb : Booted s₀)
    (hrun : ReflTransGen (fun a b => ∃ op, SchedStep op a b ∧ ¬op.HitsCurrent a) s₀ s) :
    AtMostOneCpu s ∧
      ∀ cpu t s', ∀ op ∈ [Op.wake cpu t, .unfreeze cpu t, .wakeBlockedOrWaiting cpu t],
      SchedStep op s s' → (AtMostOneCpu s' ↔ ¬op.HitsCurrent s) := by
  obtain ⟨hi, hp⟩ : Inv s s.on ∧ Parents s :=
    run_invariant (I := fun x => Inv x x.on ∧ Parents x) hrun ⟨hb.inv, hb.parents⟩
      fun hx ⟨_, hstep, hsafe⟩ => hstep.parents hsafe hx.1 hx.2
  refine ⟨hi.atMostOneCpu, fun cpu t s' op hop hstep => ⟨fun hone hhit => ?_, fun hsafe =>
    (hstep.parents hsafe hi hp).1.atMostOneCpu⟩⟩
  simp only [mem_cons, not_mem_nil, or_false] at hop
  rcases hop with rfl | rfl | rfl
  · cases hstep with
    | wake ht h => exact not_atMostOneCpu_of_wakeWhen (decide_eq_true hhit.1) hhit.2 h hone
  · cases hstep with
    | unfreeze ht h => exact not_atMostOneCpu_of_wakeWhen (decide_eq_true hhit.1) hhit.2 h hone
  · cases hstep with
    | wakeBlockedOrWaiting ht h =>
      exact not_atMostOneCpu_of_wakeWhen (decide_eq_true hhit.1.symm) hhit.2 h hone

end Run

/-- Two CPUs with their idle tasks `100` and `101`. -/
def twoCpus : State where
  cores := 2
  ticks _ := 0
  currentTask c := 100 + c
  idleTask c := 100 + c
  taskQueues _ := []
  oldestTick _ := 0
  sleepList _ := []
  task _ := ⟨0, .running, 3, 0, 0, 0, 0, 0, none, []⟩
  allTasks := [101, 100]
  initTask := none
  nextTid := 2

theorem booted_twoCpus : Booted twoCpus where
  current _ _ := rfl
  idle c hc := by
    change c < 2 at hc
    refine ⟨rfl, ?_⟩
    interval_cases c <;> decide
  idle_inj c _ c' _ h := add_left_cancel h
  queues _ := rfl
  sleepers _ := rfl
  nodup := by decide
  parent _ _ := rfl
  init := rfl

/-- All `try_acquire` succeed. -/
def allLocks : TryLocks := ⟨fun _ => true, true⟩

/-- Critical sections that are evaluated, with every lock to be had. -/
def Op.exec (s : State) : Op → Option State
  | .blockCurrent c state => if s.Runs c then some (Sched.blockCurrent s c state).2 else none
  | .wake cpu t => if t ∈ s.allTasks then (Sched.wake s cpu t allLocks).toOption.map (·.2) else none
  | .exit c code =>
    if s.Runs c ∧ s.currentTask c ≠ s.idleTask c then (Sched.exit s c code allLocks).toOption
    else none
  | .wait c => if s.Runs c ∧ s.currentTask c ≠ s.idleTask c then some (Sched.wait s c).2 else none
  | .clone c child =>
    if s.Runs c ∧ s.currentTask c ≠ s.idleTask c ∧ child ∉ s.allTasks then
      (Sched.clone s c child allLocks).toOption
    else none
  | .spawn c child state init =>
    if s.Runs c ∧ child ∉ s.allTasks then (Sched.spawn s c child state init allLocks).toOption
    else none
  | .schedule c isTimerTick =>
    if c < s.cores then (Sched.schedule s c isTimerTick fun _ => true).toOption else none
  | _ => none

theorem Op.exec_step {op : Op} {s s' : State} (h : op.exec s = some s') : SchedStep op s s' := by
  cases op with
  | tick | unfreeze | wakeBlockedOrWaiting | sleep => cases h
  | blockCurrent =>
    obtain ⟨hrun, h⟩ := ite_none_right_eq_some.mp h
    exact .blockCurrent hrun (Prod.ext rfl (some.inj h))
  | wake =>
    obtain ⟨ht, h⟩ := ite_none_right_eq_some.mp h
    obtain ⟨x, hx, rfl⟩ := map_eq_some_iff.mp h
    exact .wake ht (ok_of_toOption hx)
  | exit =>
    obtain ⟨⟨hrun, hidle⟩, h⟩ := ite_none_right_eq_some.mp h
    exact .exit hrun hidle (ok_of_toOption h)
  | wait =>
    obtain ⟨⟨hrun, hidle⟩, h⟩ := ite_none_right_eq_some.mp h
    exact .wait hrun hidle (Prod.ext rfl (some.inj h))
  | clone =>
    obtain ⟨⟨hrun, hidle, hnew⟩, h⟩ := ite_none_right_eq_some.mp h
    exact .clone hrun hidle hnew (ok_of_toOption h)
  | spawn =>
    obtain ⟨⟨hrun, hnew⟩, h⟩ := ite_none_right_eq_some.mp h
    exact .spawn hrun hnew (ok_of_toOption h)
  | schedule =>
    obtain ⟨hc, h⟩ := ite_none_right_eq_some.mp h
    exact .schedule hc (ok_of_toOption h)

/-- A task is spawned, runs, waits and is woken after its CPU has switched to the idle task. -/
theorem atMostOneCpu_of_run_wake : ∃ s, ReflTransGen
    (fun a b => ∃ op, SchedStep op a b ∧ ¬op.HitsCurrent a) twoCpus s ∧
      s.taskQueues (0, 0) = [7] ∧ AtMostOneCpu s := by
  obtain ⟨s, hrun, hoff, hwake⟩ := exists_run (f := Op.exec) (s := twoCpus)
    (r := fun a b => ∃ op, SchedStep op a b ∧ ¬op.HitsCurrent a)
    (l := [.spawn 0 7 .ready false, .schedule 0 false, .blockCurrent 0 .waiting, .schedule 0 false])
    (Q := fun s => ¬s.OnCpu 7 ∧
      (Op.exec s (.wake 0 7)).any (fun s => decide (s.taskQueues (0, 0) = [7])) = true)
    (fun op hop a b h => by
      simp only [mem_cons, not_mem_nil, or_false] at hop
      rcases hop with rfl | rfl | rfl | rfl <;> exact ⟨_, Op.exec_step h, id⟩)
    (by decide)
  obtain ⟨s', h, hq⟩ := (any_eq_true _ _).mp hwake
  have hrun' := hrun.tail ⟨_, Op.exec_step h, fun hhit => hoff hhit.2⟩
  exact ⟨s', hrun', of_decide_eq_true hq, (atMostOneCpu_of_run booted_twoCpus hrun').1⟩

/-- The same task woken before its CPU has switched: the other CPU steals it, and both run it. -/
theorem woken_task_on_two_cpus :
    ¬∀ s₀ s : State, Booted s₀ →
      ReflTransGen (fun a b => ∃ op, SchedStep op a b) s₀ s → AtMostOneCpu s := by
  intro hall
  obtain ⟨s, hrun, hc, hcur⟩ := exists_run (f := Op.exec) (s := twoCpus)
    (r := fun a b => ∃ op, SchedStep op a b)
    (l := [.spawn 0 7 .ready false, .schedule 0 false, .blockCurrent 0 .waiting, .wake 0 7,
      .schedule 1 false])
    (Q := fun s => 1 < s.cores ∧ s.currentTask 0 = s.currentTask 1)
    (fun op _ _ _ h => ⟨op, Op.exec_step h⟩) (by decide)
  have hone := hall _ _ booted_twoCpus hrun
  exact absurd (hone.current_inj 0 (Nat.zero_lt_of_lt hc) 1 hc hcur) (by decide)

end RHKernel.Sched
