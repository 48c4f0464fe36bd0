import RHKernel.Lib.Queues
import RHKernel.Smp.Scheduler.Model

/-!
# Where a task can be

The invariant of the scheduler says of every task where it is: on a CPU, in one run queue, in one
sleep list, or nowhere. Its state tells which: queued tasks are `READY`, tasks in a sleep list are
`SLEEPING`, and a task on a CPU is not `READY`.

A task that is nowhere is *loose*. Every operation takes tasks off a CPU, a queue or a sleep list,
which makes them loose, changes loose tasks, and puts loose tasks back; the rules here are one for
each of these moves. Which task is on which CPU is a parameter `on`, because `schedule` is between
two tasks for a while.
-/

namespace RHKernel.Sched

open Queues
open Function (update update_self update_of_ne)

/-- The invariant; `on` says which task is on which CPU. -/
structure Inv (s : State) (on : ℕ → Option ℕ) : Prop where
  queues : Apart s.taskQueues
  queued : ∀ {w t}, t ∈ s.taskQueues w → (s.task t).state = .ready ∧ t ∈ s.allTasks
  sleepers : Apart s.sleepList
  asleep : ∀ {c t}, t ∈ s.sleepList c → (s.task t).state = .sleeping ∧ t ∈ s.allTasks
  asleep_on : ∀ {c c' t}, t ∈ s.sleepList c → on c' = some t → c' = c
  on_state : ∀ {c t}, on c = some t → (s.task t).state ≠ .ready ∧ t ∈ s.allTasks
  on_inj : ∀ {c c' t}, on c = some t → on c' = some t → c = c'
  idle : ∀ {c}, c < s.cores →
    (s.task (s.idleTask c)).state = .running ∧ s.idleTask c ∈ s.allTasks
  idle_inj : ∀ {c c'}, c < s.cores → c' < s.cores → s.idleTask c = s.idleTask c' → c = c'
  idle_on : ∀ {c c'}, c < s.cores → on c' = some (s.idleTask c) → c' = c
  nodup : s.allTasks.Nodup

/-- A task that is on no CPU and in no list, and is not an idle task. -/
structure Loose (s : State) (on : ℕ → Option ℕ) (t : ℕ) : Prop where
  mem : t ∈ s.allTasks
  not_queued : ∀ w, t ∉ s.taskQueues w
  not_asleep : ∀ c, t ∉ s.sleepList c
  not_on : ∀ c, on c ≠ some t
  not_idle : ∀ {c}, c < s.cores → t ≠ s.idleTask c

/-- What the operations on queues leave alone. -/
structure Kept (s s' : State) : Prop where
  cores : s'.cores = s.cores
  currentTask : s'.currentTask = s.currentTask
  idleTask : s'.idleTask = s.idleTask
  allTasks : s'.allTasks = s.allTasks

theorem Kept.refl (s : State) : Kept s s := ⟨rfl, rfl, rfl, rfl⟩

theorem Kept.trans {s s' s'' : State} (h : Kept s s') (h' : Kept s' s'') : Kept s s'' :=
  ⟨h'.cores.trans h.cores, h'.currentTask.trans h.currentTask, h'.idleTask.trans h.idleTask,
    h'.allTasks.trans h.allTasks⟩

/-- What the scheduling of tasks leaves alone: which tasks there are, how they are related, and
which of them are zombies. -/
structure SameTree (s s' : State) : Prop where
  cores : s'.cores = s.cores
  idleTask : s'.idleTask = s.idleTask
  allTasks : s'.allTasks = s.allTasks
  initTask : s'.initTask = s.initTask
  kin : ∀ x, (s'.task x).id = (s.task x).id ∧ (s'.task x).parent = (s.task x).parent ∧
    (s'.task x).children = (s.task x).children
  zombie : ∀ x, (s'.task x).state = .zombie ↔ (s.task x).state = .zombie

theorem SameTree.refl (s : State) : SameTree s s :=
  ⟨rfl, rfl, rfl, rfl, fun _ => ⟨rfl, rfl, rfl⟩, fun _ => .rfl⟩

theorem SameTree.trans {s s' s'' : State} (h : SameTree s s') (h' : SameTree s' s'') :
    SameTree s s'' :=
  ⟨h'.cores.trans h.cores, h'.idleTask.trans h.idleTask, h'.allTasks.trans h.allTasks,
    h'.initTask.trans h.initTask, fun x => ⟨(h'.kin x).1.trans (h.kin x).1,
      (h'.kin x).2.1.trans (h.kin x).2.1, (h'.kin x).2.2.trans (h.kin x).2.2⟩,
    fun x => (h'.zombie x).trans (h.zombie x)⟩

/-- Nor does any CPU switch. -/
structure Quiet (s s' : State) : Prop extends SameTree s s' where
  currentTask : s'.currentTask = s.currentTask

theorem Quiet.refl (s : State) : Quiet s s := ⟨.refl s, rfl⟩

theorem Quiet.trans {s s' s'' : State} (h : Quiet s s') (h' : Quiet s' s'') : Quiet s s'' :=
  ⟨h.toSameTree.trans h'.toSameTree, h'.currentTask.trans h.currentTask⟩

section Rules

variable {s s' : State} {on : ℕ → Option ℕ} {c t p c' x : ℕ}

/-! ### Leaving -/

variable (hi : Inv s on)

include hi

variable (ht : t ∈ s.allTasks) (h1 : (s.task t).state ≠ .ready) (h2 : (s.task t).state ≠ .sleeping)

include ht h1 h2

/-- A task in a state of its own kind is in no list. -/
theorem Inv.loose (hidle : ∀ {c}, c < s.cores → t ≠ s.idleTask c)
    (hon : ∀ c, on c ≠ some t) : Loose s on t :=
  ⟨ht, fun _ h => h1 (hi.queued h).1, fun _ h => h2 (hi.asleep h).1, hon, hidle⟩

theorem Inv.loose_of_blocked (h3 : (s.task t).state ≠ .running) (hon : ∀ c, on c ≠ some t) :
    Loose s on t :=
  hi.loose ht h1 h2 (fun hc he => h3 (he ▸ (hi.idle hc).1)) hon

omit ht h1 h2

theorem Inv.leave (c : ℕ) : Inv s (update on c none) := by
  have hsub : ∀ {c' t}, update on c none c' = some t → on c' = some t := by
    exact fun h => ((update_eq_cases h).resolve_left nofun).2
  exact { hi with
      asleep_on := fun h1 h2 => hi.asleep_on h1 (hsub h2)
      on_state := fun h => hi.on_state (hsub h)
      on_inj := fun h1 h2 => hi.on_inj (hsub h1) (hsub h2)
      idle_on := fun h1 h2 => hi.idle_on h1 (hsub h2) }

theorem Inv.off (hon : on c = some t) (c' : ℕ) : update on c none c' ≠ some t := by
  intro h
  obtain ⟨hc, h⟩ := (update_eq_cases h).resolve_left nofun
  exact hc (hi.on_inj h hon)

theorem Inv.not_idle (hon : on c = some t) (hidle : t ≠ s.idleTask c)
    (hc : c' < s.cores) : t ≠ s.idleTask c' := by
  intro he
  have hcc : c = c' := hi.idle_on hc (he ▸ hon)
  exact hidle (hcc ▸ he)

/-- The task that its CPU has put down is loose if it was running. -/
theorem Inv.loose_current (hon : on c = some t) (hidle : t ≠ s.idleTask c)
    (hrun : (s.task t).state = .running) : Loose s (update on c none) t :=
  (hi.leave c).loose (hi.on_state hon).2 (by rw [hrun]; nofun) (by rw [hrun]; nofun)
    (hi.not_idle hon hidle) (hi.off hon)

theorem Inv.unlinkQueued (ht : t ∈ s.taskQueues (c, p)) :
    Inv (unlinkQueued s c t p) on ∧ Loose (Sched.unlinkQueued s c t p) on t ∧
      (s.task t).state = .ready := by
  have hmem : ∀ {w x}, x ∈ (Sched.unlinkQueued s c t p).taskQueues w ↔
      x ≠ t ∧ x ∈ s.taskQueues w := hi.queues.mem_erase_iff ht
  obtain ⟨hready, hlive⟩ := hi.queued ht
  refine ⟨{ hi with
      queues := hi.queues.shrink List.erase_sublist
      queued := fun h => hi.queued (hmem.mp h).2 },
    ⟨hlive, fun w h => (hmem.mp h).1 rfl, fun c' h => ?_, fun c' h => ?_, fun {c'} hc he => ?_⟩,
    hready⟩
  · exact nomatch hready.symm.trans (hi.asleep h).1
  · exact (hi.on_state h).1 hready
  · have he' : t = s.idleTask c' := he
    rw [he', (hi.idle hc).1] at hready
    cases hready

/-- A task leaves the sleep list of a CPU that has put its task down. -/
theorem Inv.unsleep (ht : t ∈ s.sleepList c) (hc : on c = none) :
    Inv { s with sleepList := update s.sleepList c ((s.sleepList c).erase t) } on ∧
      Loose { s with sleepList := update s.sleepList c ((s.sleepList c).erase t) } on t := by
  have hmem : ∀ {w x}, x ∈ update s.sleepList c ((s.sleepList c).erase t) w ↔
      x ≠ t ∧ x ∈ s.sleepList w := hi.sleepers.mem_erase_iff ht
  obtain ⟨hsleep, hlive⟩ := hi.asleep ht
  refine ⟨{ hi with
      sleepers := hi.sleepers.shrink List.erase_sublist
      asleep := fun h => hi.asleep (hmem.mp h).2
      asleep_on := fun h => hi.asleep_on (hmem.mp h).2 },
      ⟨hlive, fun w h => ?_,
    fun w h => (hmem.mp h).1 rfl, fun c' h => ?_, fun {c'} hc' he => ?_⟩⟩
  · exact nomatch hsleep.symm.trans (hi.queued h).1
  · obtain rfl := hi.asleep_on ht h
    exact nomatch hc.symm.trans h
  · have he' : t = s.idleTask c' := he
    rw [he', (hi.idle hc').1] at hsleep
    cases hsleep

omit hi

/-! ### Changing a loose task -/

@[simp]
theorem setTask_task_self (f : Task → Task) : (s.setTask t f).task t = f (s.task t) :=
  update_self _ _ _

theorem setTask_task_of_ne {f : Task → Task} (hx : x ≠ t) :
    (s.setTask t f).task x = s.task x := update_of_ne hx _ _

theorem Inv.setLoose (hi : Inv s on) (hl : Loose s on t) (f : Task → Task) :
    Inv (s.setTask t f) on ∧ Loose (s.setTask t f) on t := by
  have hother : ∀ {x}, x ≠ t → (s.setTask t f).task x = s.task x := setTask_task_of_ne
  refine ⟨{ hi with
      queued := fun {w x} h => ?_
      asleep := fun {c' x} h => ?_
      on_state := fun {c' x} h => ?_
      idle := fun {c'} h => ?_ },
    { hl with }⟩
  · rw [hother fun he => hl.not_queued w (he ▸ h)]
    exact hi.queued h
  · rw [hother fun he => hl.not_asleep c' (he ▸ h)]
    exact hi.asleep h
  · rw [hother fun he => hl.not_on c' (he ▸ h)]
    exact hi.on_state h
  · have hne : s.idleTask c' ≠ t := (hl.not_idle h).symm
    exact (hother hne).symm ▸ hi.idle h

/-- Writes to a task that leave its relatives alone and do not make it a zombie or bring it
back. -/
theorem quiet_setTask {f : Task → Task} (hid : (f (s.task t)).id = (s.task t).id)
    (hparent : (f (s.task t)).parent = (s.task t).parent)
    (hchildren : (f (s.task t)).children = (s.task t).children)
    (hstate : (f (s.task t)).state = .zombie ↔ (s.task t).state = .zombie) :
    Quiet s (s.setTask t f) := by
  refine ⟨⟨rfl, rfl, rfl, rfl, fun x => ?_, fun x => ?_⟩, rfl⟩
  · by_cases hx : x = t
    · subst hx
      rw [setTask_task_self]
      exact ⟨hid, hparent, hchildren⟩
    · rw [setTask_task_of_ne hx]
      exact ⟨rfl, rfl, rfl⟩
  · by_cases hx : x = t
    · subst hx
      rw [setTask_task_self]
      exact hstate
    · rw [setTask_task_of_ne hx]

theorem quiet_setState (state : TaskState) (hz : (s.task t).state ≠ .zombie)
    (hstate : state ≠ .zombie) : Quiet s (s.setState t state) :=
  quiet_setTask rfl rfl rfl (iff_of_false hstate hz)

theorem Inv.setState (hi : Inv s on) (hl : Loose s on t) (state : TaskState) :
    Inv (s.setState t state) on ∧ Loose (s.setState t state) on t := hi.setLoose hl _

/-! ### Coming back -/

theorem enqueue_ok (h : enqueue s c t = .ok s') : ∃ oldest, s' =
    { s.setTask t fun k => { k with enqueueTick := s.ticks c, lastCpuIndex := c } with
      oldestTick := oldest
      taskQueues := update s.taskQueues (c, (s.task t).priority)
        (s.taskQueues (c, (s.task t).priority) ++ [t]) } := by
  unfold enqueue at h
  by_cases hp : maxQueues ≤ (s.task t).priority
  · simp only [if_pos hp] at h
    cases h
  by_cases hlink : s.linked t = true
  · simp only [if_neg hp, if_pos hlink] at h
    cases h
  simp only [if_neg hp, if_neg hlink] at h
  exact ⟨_, (Except.ok.inj h).symm⟩

theorem quiet_enqueue (h : enqueue s c t = .ok s') : Quiet s s' := by
  obtain ⟨oldest, rfl⟩ := enqueue_ok h
  have hq := quiet_setTask (s := s) (t := t)
    (f := fun k => { k with enqueueTick := s.ticks c, lastCpuIndex := c }) rfl rfl rfl .rfl
  exact ⟨⟨rfl, rfl, rfl, rfl, hq.kin, hq.zombie⟩, rfl⟩

theorem Inv.enqueue (hi : Inv s on) (hl : Loose s on t) (hready : (s.task t).state = .ready)
    (h : enqueue s c t = .ok s') : Inv s' on := by
  obtain ⟨oldest, rfl⟩ := enqueue_ok h
  obtain ⟨hi', -⟩ := hi.setLoose hl fun k => { k with enqueueTick := s.ticks c, lastCpuIndex := c }
  have hperm : (s.taskQueues (c, (s.task t).priority) ++ [t]).Perm
      (t :: s.taskQueues (c, (s.task t).priority)) := List.perm_append_singleton _ _
  refine { hi' with queues := hi.queues.insert hperm hl.not_queued, queued := fun {w x} hx => ?_ }
  rcases (mem_insert_iff hperm).mp hx with ⟨rfl, -⟩ | hx
  · exact ⟨by simpa using hready, hl.mem⟩
  · exact hi'.queued hx

/-- A task goes on CPU `c`: it is not ready, and neither on another CPU, nor in the sleep list or
the idle task of one. -/
theorem Inv.enter (hi : Inv s on) (ht : t ∈ s.allTasks) (hstate : (s.task t).state ≠ .ready)
    (hsleep : ∀ c', t ∈ s.sleepList c' → c = c') (hon : ∀ c', on c' = some t → c' = c)
    (hidle : ∀ {c'}, c' < s.cores → t = s.idleTask c' → c = c') :
    Inv s (update on c (some t)) := by
  have hsub : ∀ {c' x}, update on c (some t) c' = some x → (c' = c ∧ x = t) ∨ on c' = some x := by
    intro c' x h
    exact (update_eq_cases h).imp (And.imp_right fun h => (Option.some.inj h).symm) And.right
  refine { hi with
      asleep_on := fun {c1 c' x} hx h => ?_
      on_state := fun {c' x} h => ?_
      on_inj := fun {c1 c2 x} h1 h2 => ?_
      idle_on := fun {c1 c'} hc h => ?_ }
  · rcases hsub h with ⟨rfl, rfl⟩ | hold
    · exact hsleep c1 hx
    · exact hi.asleep_on hx hold
  · rcases hsub h with ⟨-, rfl⟩ | hold
    · exact ⟨hstate, ht⟩
    · exact hi.on_state hold
  · rcases hsub h1 with ⟨rfl, rfl⟩ | hold
    · rcases hsub h2 with ⟨rfl, -⟩ | hold'
      · rfl
      · exact (hon c2 hold').symm
    · rcases hsub h2 with ⟨rfl, rfl⟩ | hold'
      · exact hon c1 hold
      · exact hi.on_inj hold hold'
  · rcases hsub h with ⟨rfl, he⟩ | hold
    · exact hidle hc he.symm
    · exact hi.idle_on hc hold

theorem Inv.enterLoose (hi : Inv s on) (hl : Loose s on t) (hstate : (s.task t).state ≠ .ready) :
    Inv s (update on c (some t)) :=
  hi.enter hl.mem hstate (fun c' h => absurd h (hl.not_asleep c'))
    (fun c' h => absurd h (hl.not_on c')) fun hc he => absurd he (hl.not_idle hc)

theorem Inv.enterIdle (hi : Inv s on) (hc : c < s.cores) :
    Inv s (update on c (some (s.idleTask c))) := by
  have hrun := hi.idle hc
  refine hi.enter hrun.2 (by rw [hrun.1]; nofun) (fun c' h => ?_) (fun c' h => hi.idle_on hc h)
    fun hc' he => hi.idle_inj hc hc' he
  exact nomatch hrun.1.symm.trans (hi.asleep h).1

end Rules

end RHKernel.Sched
