import RHKernel.Smp.Scheduler.Ops

/-!
# Processes

`clone` and `spawn` put a new task into the tree of parents and children, `exit` makes the running
task a zombie and hands its children to the init task, `wait` reaps a zombie. `Terminated` and
`Linked` say what ending a task and adding one changes in the tree. As long as the init task is not
killed, the parent of a task is not a zombie, so that no pointer to a parent dangles.
-/

namespace RHKernel.Sched

open List Queues Step

/-- Parents are live, and so is the init task. -/
structure Parents (s : State) : Prop where
  parent : ∀ {t p}, t ∈ s.allTasks → (s.task t).parent = some p →
    p ∈ s.allTasks ∧ (s.task p).state ≠ .zombie ∧ t ∈ (s.task p).children
  init : ∀ {t}, s.initTask = some t →
    t ∈ s.allTasks ∧ (s.task t).id = 1 ∧ (s.task t).state ≠ .zombie

section Process

variable {s s' s₂ s₁ : State} {on : ℕ → Option ℕ} {c t parent child p x z : ℕ} {code : ℤ}
  {locks : TryLocks}

theorem Parents.of_tree (hp : Parents s) (h : SameTree s s') : Parents s' where
  parent {t p} ht hparent := by
    rw [h.allTasks] at ht ⊢
    rw [(h.kin t).2.1] at hparent
    obtain ⟨h1, h2, h3⟩ := hp.parent ht hparent
    exact ⟨h1, mt (h.zombie p).mp h2, (h.kin p).2.2.symm ▸ h3⟩
  init {t} ht := by
    rw [h.initTask] at ht
    obtain ⟨h1, h2, h3⟩ := hp.init ht
    exact ⟨h.allTasks.symm ▸ h1, (h.kin t).1.trans h2, mt (h.zombie t).mp h3⟩

/-! ### Ending a task -/

/-- What handing children over changes. -/
structure Reparented (s s' : State) (kids : List ℕ) (adopter : Option ℕ) : Prop where
  frame : s' = { s with task := s'.task }
  state : ∀ x, (s'.task x).state = (s.task x).state
  id : ∀ x, (s'.task x).id = (s.task x).id
  parent : ∀ x, (s'.task x).parent = if x ∈ kids then adopter else (s.task x).parent
  children : ∀ x, (s'.task x).children =
    if adopter = some x then kids.reverse ++ (s.task x).children else (s.task x).children

theorem reparentChild_reparented (adopter : Option ℕ) (s : State) (child : ℕ) :
    Reparented s (reparentChild adopter s child) [child] adopter := by
  have hparent : ∀ x, ((s.setTask child fun k => { k with parent := adopter }).task x) =
      { s.task x with parent := if x ∈ [child] then adopter else (s.task x).parent } := by
    intro x
    by_cases hx : x = child
    · subst hx
      simp
    · rw [setTask_task_of_ne hx, if_neg (by simpa using hx)]
  obtain _ | a := adopter
  · refine ⟨rfl, fun x => ?_, fun x => ?_, fun x => ?_, fun x => ?_⟩ <;>
      simp only [reparentChild, Option.elim_none, hparent, reduceCtorEq, if_false]
  have htask : ∀ x, ((reparentChild (some a) s child).task x) =
      { s.task x with
        parent := if x ∈ [child] then some a else (s.task x).parent
        children := if a = x then child :: (s.task x).children else (s.task x).children } := by
    intro x
    simp only [reparentChild, Option.elim_some]
    by_cases hx : x = a
    · subst hx
      rw [setTask_task_self, hparent, if_pos rfl]
    · rw [setTask_task_of_ne hx, hparent, if_neg (Ne.symm hx)]
  refine ⟨rfl, fun x => by rw [htask], fun x => by rw [htask], fun x => by rw [htask], fun x => ?_⟩
  simp only [htask, Option.some.injEq, reverse_singleton, singleton_append]

theorem foldl_reparented (adopter : Option ℕ) (kids : List ℕ) (s : State) :
    Reparented s (kids.foldl (reparentChild adopter) s) kids adopter := by
  induction kids generalizing s with
  | nil => exact ⟨rfl, fun _ => rfl, fun _ => rfl, fun _ => rfl, fun _ => by simp⟩
  | cons child kids ih =>
    have h1 := reparentChild_reparented adopter s child
    have h2 := ih (reparentChild adopter s child)
    refine ⟨?_, fun x => (h2.state x).trans (h1.state x), fun x => (h2.id x).trans (h1.id x),
      fun x => ?_, fun x => ?_⟩
    · rw [foldl_cons, h2.frame, h1.frame]
    · rw [foldl_cons, h2.parent, h1.parent]
      by_cases hx : x ∈ kids
      · rw [if_pos hx, if_pos (mem_cons_of_mem _ hx)]
      · rw [if_neg hx]
        simp only [mem_cons, hx, or_false, not_mem_nil]
    · rw [foldl_cons, h2.children, h1.children]
      by_cases hx : adopter = some x
      · simp [hx]
      · simp only [hx, if_false]

/-- The task that takes over the children of `t`. -/
def adopterOf (s : State) (t : ℕ) : Option ℕ := if s.initTask = some t then none else s.initTask

/-- `t` has become a zombie and its children belong to the adopter. -/
structure Terminated (s s' : State) (t : ℕ) : Prop where
  cores : s'.cores = s.cores
  currentTask : s'.currentTask = s.currentTask
  idleTask : s'.idleTask = s.idleTask
  allTasks : s'.allTasks = s.allTasks
  initTask : s'.initTask = s.initTask
  self : (s'.task t).state = .zombie
  zombie : ∀ {x}, x ≠ t → ((s'.task x).state = .zombie ↔ (s.task x).state = .zombie)
  id : ∀ x, (s'.task x).id = (s.task x).id
  parent : ∀ x, (s'.task x).parent =
    if x ∈ (s.task t).children then adopterOf s t else (s.task x).parent
  childless : (s'.task t).children = []
  children : ∀ {x}, x ≠ t → (s'.task x).children =
    if adopterOf s t = some x then (s.task t).children.reverse ++ (s.task x).children
      else (s.task x).children

theorem adopterOf_some (h : adopterOf s t = some p) : s.initTask = some p ∧ p ≠ t := by
  unfold adopterOf at h
  split at h
  · cases h
  · rename_i hne
    exact ⟨h, fun he => hne (he ▸ h)⟩

theorem adopterOf_ne (s : State) (t : ℕ) : adopterOf s t ≠ some t :=
  fun h => (adopterOf_some h).2 rfl

theorem Terminated.mem_children (h : Terminated s s' t) (hp : p ≠ t) :
    x ∈ (s'.task p).children ↔
      (adopterOf s t = some p ∧ x ∈ (s.task t).children) ∨ x ∈ (s.task p).children := by
  rw [h.children hp]
  split_ifs with ha <;> simp [ha]

/-- The children have been handed over; the adopter has not been woken yet. -/
theorem terminated_of_reparented
    (hr : Reparented ((s.setTask t fun k => { k with exitCode := code, state := .zombie }).setTask t
      fun k => { k with children := [] }) s₂ (s.task t).children (adopterOf s t)) :
    Terminated s s₂ t := by
  have hself : ((s.setTask t fun k => { k with exitCode := code, state := .zombie }).setTask t
      fun k => { k with children := [] }).task t =
      { s.task t with exitCode := code, state := .zombie, children := [] } := by
    rw [setTask_task_self, setTask_task_self]
  have hother : ∀ {x}, x ≠ t → (((s.setTask t fun k =>
      { k with exitCode := code, state := .zombie }).setTask t
        fun k => { k with children := [] }).task x) = s.task x := fun hx => by
    rw [setTask_task_of_ne hx, setTask_task_of_ne hx]
  refine ⟨by rw [hr.frame]; rfl, by rw [hr.frame]; rfl, by rw [hr.frame]; rfl,
    by rw [hr.frame]; rfl, by rw [hr.frame]; rfl, by rw [hr.state, hself],
    fun hx => by rw [hr.state, hother hx], fun x => ?_, fun x => ?_,
    by rw [hr.children, if_neg (adopterOf_ne s t), hself], fun hx => by rw [hr.children, hother hx]⟩
  · by_cases hx : x = t
    · subst hx
      rw [hr.id, hself]
    · rw [hr.id, hother hx]
  · by_cases hx : x = t
    · subst hx
      rw [hr.parent, hself]
    · rw [hr.parent, hother hx]

theorem Terminated.quiet (h : Terminated s s₁ t) (hq : Quiet s₁ s') : Terminated s s' t where
  cores := hq.cores.trans h.cores
  currentTask := hq.currentTask.trans h.currentTask
  idleTask := hq.idleTask.trans h.idleTask
  allTasks := hq.allTasks.trans h.allTasks
  initTask := hq.initTask.trans h.initTask
  self := (hq.zombie t).mpr h.self
  zombie hx := (hq.zombie _).trans (h.zombie hx)
  id x := (hq.kin x).1.trans (h.id x)
  parent x := (hq.kin x).2.1.trans (h.parent x)
  childless := (hq.kin t).2.2.trans h.childless
  children hx := (hq.kin _).2.2.trans (h.children hx)

/-- The running task has become a zombie: it is where it was. -/
theorem Inv.zombie {kids : List ℕ} {adopter : Option ℕ} (hi : Inv s on)
    (hon : on c = some t) (hidle : t ≠ s.idleTask c) (hrun : (s.task t).state = .running)
    (hr : Reparented ((s.setTask t fun k => { k with exitCode := code, state := .zombie }).setTask t
      fun k => { k with children := [] }) s₂ kids adopter) : Inv s₂ on := by
  have hl := hi.loose_current hon hidle hrun
  have hstate : ∀ {x}, x ≠ t → (s₂.task x).state = (s.task x).state := fun hx => by
    rw [hr.state, setTask_task_of_ne hx, setTask_task_of_ne hx]
  have hzombie : (s₂.task t).state = .zombie := by
    rw [hr.state, setTask_task_self, setTask_task_self]
  have hmem := hl.mem
  rw [hr.frame]
  refine { hi with
      queued := fun {w x} hx => ?_
      asleep := fun {c' x} hx => ?_
      on_state := fun {c' x} hx => ?_
      idle := fun {c'} hc => ?_ }
  · exact ⟨(hstate fun he => hl.not_queued w (he ▸ hx)).trans (hi.queued hx).1, (hi.queued hx).2⟩
  · exact ⟨(hstate fun he => hl.not_asleep c' (he ▸ hx)).trans (hi.asleep hx).1, (hi.asleep hx).2⟩
  · by_cases hxt : x = t
    · subst hxt
      exact ⟨by rw [hzombie]; nofun, hmem⟩
    · exact ⟨by rw [hstate hxt]; exact (hi.on_state hx).1, (hi.on_state hx).2⟩
  · exact ⟨(hstate (hi.not_idle hon hidle hc).symm).trans (hi.idle hc).1, (hi.idle hc).2⟩

/-- The tasks that `exit` on CPU `c` may wake: the parent, and the init task when it gets
children. -/
def exitWakes (s : State) (c p : ℕ) : Prop :=
  (s.task (s.currentTask c)).parent = some p ∨
    (s.task (s.currentTask c)).children ≠ [] ∧ s.initTask = some p

/-- A task waits for something that `exit` can bring. -/
def State.Stopped (s : State) (t : ℕ) : Prop :=
  (s.task t).state = .blocked ∨ (s.task t).state = .waiting

theorem State.Stopped.not_zombie (h : s.Stopped t) : (s.task t).state ≠ .zombie := by
  intro he
  rw [State.Stopped, he] at h
  exact absurd h (by decide)

theorem Inv.loose_of_stopped (hi : Inv s on) (ht : t ∈ s.allTasks) (h : s.Stopped t)
    (hoff : ∀ c, on c ≠ some t) : Loose s on t := by
  refine hi.loose_of_blocked ht ?_ ?_ ?_ hoff <;>
    (intro he; rw [State.Stopped, he] at h; exact absurd h (by decide))

theorem setTask_eq_self {f : Task → Task} (h : f (s.task t) = s.task t) : s.setTask t f = s := by
  rw [State.setTask, h, Function.update_eq_self]

theorem stopped_of_enqueue (h : enqueue (s.setState p .ready) c p = .ok s')
    (hx : s'.Stopped x) : s.Stopped x := by
  obtain ⟨oldest, rfl⟩ := enqueue_ok h
  by_cases hxp : x = p
  · subst hxp
    simp [State.Stopped, State.setState, State.setTask] at hx
  · simpa [State.Stopped, State.setState, State.setTask, Function.update_of_ne hxp] using hx

/-- `terminate_current_locked` on CPU `c`, without the event for the parent. -/
def terminateCurrentLocked (s : State) (c : ℕ) (code : ℤ) : Except String State :=
  let current := s.currentTask c
  reparentChildren (s.setTask current fun k => { k with exitCode := code, state := .zombie }) c
    current

/-- What `terminate_current_locked` leaves. -/
structure Ended (s s' : State) (on : ℕ → Option ℕ) (t : ℕ) : Prop where
  inv : Inv s' on
  terminated : Terminated s s' t
  stopped : ∀ {x}, s'.Stopped x → s.Stopped x

variable (hi : Inv s on) (hon : on c = some (s.currentTask c))
  (hidle : s.currentTask c ≠ s.idleTask c) (hrun : (s.task (s.currentTask c)).state = .running)
  (hadopter : ∀ a, s.initTask = some a → a ∈ s.allTasks)

include hi hon hidle hrun hadopter

/-- **`terminate_current_locked`**, when the adopter is on no CPU if it is to be woken. -/
theorem Inv.terminateCurrentLocked
    (hoff : ∀ p, (s.task (s.currentTask c)).children ≠ [] → s.initTask = some p → s.Stopped p →
      ∀ c, on c ≠ some p) (h : terminateCurrentLocked s c code = .ok s') :
    Ended s s' on (s.currentTask c) := by
  unfold Sched.terminateCurrentLocked at h
  simp only at h
  generalize ht : s.currentTask c = t at *
  have hkids :
      ((s.setTask t fun k => { k with exitCode := code, state := .zombie }).task t).children =
      (s.task t).children := by rw [setTask_task_self]
  -- the state in which the children have been handed over
  have hr := foldl_reparented (adopterOf s t) (s.task t).children
    ((s.setTask t fun k => { k with exitCode := code, state := .zombie }).setTask t
      fun k => { k with children := [] })
  generalize hs2 : (s.task t).children.foldl (reparentChild (adopterOf s t))
    ((s.setTask t fun k => { k with exitCode := code, state := .zombie }).setTask t
      fun k => { k with children := [] }) = s₂ at hr
  have hi2 := hi.zombie hon hidle hrun hr
  have ht2 := terminated_of_reparented hr
  have hstop2 : ∀ {x}, s₂.Stopped x → s.Stopped x := by
    intro x hx
    rw [State.Stopped, hr.state] at hx
    by_cases hxt : x = t
    · subst hxt
      simp at hx
    · rwa [setTask_task_of_ne hxt, setTask_task_of_ne hxt] at hx
  unfold Sched.reparentChildren at h
  rw [hkids] at h
  by_cases hnil : (s.task t).children = []
  · rw [if_pos hnil] at h
    cases h
    rw [hnil, foldl_nil, setTask_eq_self (by rw [setTask_task_self, hnil])] at hs2
    rw [hs2]
    exact ⟨hi2, ht2, hstop2⟩
  rw [if_neg hnil] at h
  have hadopt : (if (s.setTask t fun k =>
      { k with exitCode := code, state := .zombie }).initTask = some t then none else
      (s.setTask t fun k => { k with exitCode := code, state := .zombie }).initTask) =
      adopterOf s t := rfl
  simp only [hadopt, hs2] at h
  cases ha : adopterOf s t with
  | none =>
    simp only [ha] at h
    cases h
    exact ⟨hi2, ht2, hstop2⟩
  | some a =>
    simp only [ha] at h
    have hinit : s.initTask = some a := by
      unfold adopterOf at ha
      split at ha
      · cases ha
      · exact ha
    split_ifs at h with hblocked
    · have hstop := hstop2 (x := a) (.inl hblocked)
      have hl : Loose s₂ on a := hi2.loose_of_stopped (ht2.allTasks ▸ hadopter a hinit)
        (.inl hblocked) (hoff a hnil hinit hstop)
      obtain ⟨hi3, hq3⟩ := hi2.makeReady hl (by rw [hblocked]; nofun) h
      exact ⟨hi3, ht2.quiet hq3, fun hx => hstop2 (stopped_of_enqueue h hx)⟩
    · cases h
      exact ⟨hi2, ht2, hstop2⟩

/-- **`exit`** of the task on CPU `c`, when the tasks it wakes are on no CPU. -/
theorem Inv.exit  (hparent : ∀ p, (s.task (s.currentTask c)).parent = some p → p ∈ s.allTasks)
    (hoff : ∀ p, exitWakes s c p → s.Stopped p → ∀ c, on c ≠ some p)
    (h : exit s c code locks = .ok s') :
    Inv s' on ∧ Terminated s s' (s.currentTask c) ∧ (s.task (s.currentTask c)).id ≠ 1 := by
  unfold Sched.exit at h
  simp only at h
  split at h
  · cases h
  rename_i hid
  obtain ⟨s₁, h1, h⟩ := ok_bind h
  obtain ⟨hi1, ht1, hstop⟩ := hi.terminateCurrentLocked hon hidle hrun hadopter
    (fun p hne hp => hoff p (.inr ⟨hne, hp⟩)) h1
  split at h
  · cases h
    exact ⟨hi1, ht1, hid⟩
  rename_i p hp
  split at h
  · rename_i hs
    -- the parent is the old one, or the adopter if the task was its own child
    have hcases : exitWakes s c p ∧ p ∈ s.allTasks := by
      rw [ht1.parent] at hp
      split_ifs at hp with hmem
      · have hinit := (adopterOf_some hp).1
        exact ⟨.inr ⟨ne_nil_of_mem hmem, hinit⟩, hadopter p hinit⟩
      · exact ⟨.inl hp, hparent p hp⟩
    have hl : Loose s₁ on p := hi1.loose_of_stopped (ht1.allTasks ▸ hcases.2) hs
      (hoff p hcases.1 (hstop hs))
    obtain ⟨hi', hq⟩ := hi1.wakeOnBestCpu hl (State.Stopped.not_zombie hs) h
    exact ⟨hi', ht1.quiet hq, hid⟩
  · cases h
    exact ⟨hi1, ht1, hid⟩

omit hi hon hidle hrun hadopter

theorem Parents.terminated (hp : Parents s) (h : Terminated s s' t) (hinit : s.initTask ≠ some t) :
    Parents s' where
  parent {x q} hx hq := by
    rw [h.allTasks] at hx ⊢
    rw [h.parent] at hq
    by_cases hk : x ∈ (s.task t).children
    · rw [if_pos hk] at hq
      obtain ⟨ha, hqt⟩ := adopterOf_some hq
      obtain ⟨h1, -, h3⟩ := hp.init ha
      exact ⟨h1, mt (h.zombie hqt).mp h3, (h.mem_children hqt).mpr (.inl ⟨hq, hk⟩)⟩
    · rw [if_neg hk] at hq
      obtain ⟨h1, h2, h3⟩ := hp.parent hx hq
      have hqt : q ≠ t := fun he => hk (he ▸ h3)
      exact ⟨h1, mt (h.zombie hqt).mp h2, (h.mem_children hqt).mpr (.inr h3)⟩
  init {x} hx := by
    rw [h.initTask] at hx
    obtain ⟨h1, h2, h3⟩ := hp.init hx
    have hxt : x ≠ t := fun he => hinit (he ▸ hx)
    exact ⟨h.allTasks.symm ▸ h1, (h.id x).trans h2, mt (h.zombie hxt).mp h3⟩

/-! ### `wait` -/

/-- The zombie `z` is no longer a child of `p`, nor a task. -/
structure Reaped (s s' : State) (p z : ℕ) : Prop where
  cores : s'.cores = s.cores
  currentTask : s'.currentTask = s.currentTask
  idleTask : s'.idleTask = s.idleTask
  allTasks : s'.allTasks = s.allTasks.erase z
  initTask : s'.initTask = s.initTask
  fields : ∀ x, (s'.task x).state = (s.task x).state ∧ (s'.task x).id = (s.task x).id ∧
    (s'.task x).parent = (s.task x).parent
  children : ∀ x, (s'.task x).children =
    if x = p then (s.task p).children.erase z else (s.task x).children

/-- `wait` reaps a zombie child, or nothing happens to the tree. -/
theorem wait_cases {r : WaitResult} (hrun : (s.task (s.currentTask c)).state = .running)
    (h : wait s c = (r, s')) :
    (∃ z, zombieChild s (s.currentTask c) = some z ∧ Reaped s s' (s.currentTask c) z) ∨
      zombieChild s (s.currentTask c) = none ∧ Quiet s s' := by
  unfold wait at h
  simp only at h
  split_ifs at h with hnil
  · cases h
    exact .inr ⟨by rw [zombieChild, hnil, find?_nil], .refl _⟩
  split at h
  · rename_i z hz
    cases h
    refine .inl ⟨z, hz, rfl, rfl, rfl, rfl, rfl, fun x => ?_, fun x => ?_⟩
    · by_cases hx : x = s.currentTask c
      · subst hx
        simp only [setTask_task_self, and_self]
      · simp only [setTask_task_of_ne hx, and_self]
    · by_cases hx : x = s.currentTask c
      · subst hx
        simp only [setTask_task_self, if_true]
      · simp only [setTask_task_of_ne hx, hx, if_false]
  · rename_i hnone
    cases h
    exact .inr ⟨hnone, quiet_setState .blocked (by rw [hrun]; nofun) nofun⟩

theorem zombieChild_some (h : zombieChild s t = some z) :
    z ∈ (s.task t).children ∧ (s.task z).state = .zombie :=
  ⟨mem_of_find?_eq_some h, by simpa using find?_some h⟩

/-- **`wait`** of the task on CPU `c`, when the zombie it reaps is on no CPU. -/
theorem Inv.wait {r : WaitResult} (hi : Inv s on) (hon : on c = some (s.currentTask c))
    (hidle : s.currentTask c ≠ s.idleTask c)
    (hrun : (s.task (s.currentTask c)).state = .running)
    (hoff : ∀ z, zombieChild s (s.currentTask c) = some z → ∀ c, on c ≠ some z)
    (h : wait s c = (r, s')) : Inv s' on := by
  unfold Sched.wait at h
  simp only at h
  split at h
  · cases h
    exact hi
  split at h
  · rename_i z hz
    cases h
    have hzombie := (zombieChild_some hz).2
    have hne : ∀ {x}, (s.task x).state ≠ .zombie → x ≠ z := fun hx he => hx (he ▸ hzombie)
    have hmem : ∀ {x}, x ∈ s.allTasks → (s.task x).state ≠ .zombie → x ∈ s.allTasks.erase z :=
      fun hx hs => (mem_erase_of_ne (hne hs)).mpr hx
    have hstate : ∀ x, ((s.setTask (s.currentTask c) fun k =>
        { k with children := k.children.erase z }).task x).state = (s.task x).state := by
      intro x
      by_cases hx : x = s.currentTask c
      · subst hx
        rw [setTask_task_self]
      · rw [setTask_task_of_ne hx]
    refine { hi with
        queued := fun {w x} hx => ?_
        asleep := fun {c' x} hx => ?_
        on_state := fun {c' x} hx => ?_
        idle := fun {c'} hc => ?_
        nodup := hi.nodup.erase z }
    · obtain ⟨h1, h2⟩ := hi.queued hx
      exact ⟨(hstate x).trans h1, hmem h2 (by rw [h1]; nofun)⟩
    · obtain ⟨h1, h2⟩ := hi.asleep hx
      exact ⟨(hstate x).trans h1, hmem h2 (by rw [h1]; nofun)⟩
    · obtain ⟨h1, h2⟩ := hi.on_state hx
      have hxz : x ≠ z := fun he => hoff z hz c' (he ▸ hx)
      exact ⟨by rw [hstate x]; exact h1, (mem_erase_of_ne hxz).mpr h2⟩
    · obtain ⟨h1, h2⟩ := hi.idle hc
      have h3 : s.idleTask c' ∈ s.allTasks.erase z := hmem h2 (by rw [h1]; nofun)
      exact ⟨(hstate _).trans h1, h3⟩
  · cases h
    obtain ⟨hi1, hl1⟩ := (hi.leave c).setState (hi.loose_current hon hidle hrun) .blocked
    exact hi1.resume hl1 hon (by simp [State.setState])

theorem Parents.reaped (hp : Parents s) (hnodup : s.allTasks.Nodup)
    (hz : (s.task z).state = .zombie) (h : Reaped s s' t z) : Parents s' where
  parent {x q} hx hq := by
    rw [h.allTasks] at hx ⊢
    rw [(h.fields x).2.2] at hq
    obtain ⟨h1, h2, h3⟩ := hp.parent (mem_of_mem_erase hx) hq
    have hxz : x ≠ z := (hnodup.mem_erase_iff.mp hx).1
    have hqz : q ≠ z := fun he => h2 (he ▸ hz)
    refine ⟨(mem_erase_of_ne hqz).mpr h1, by rwa [(h.fields q).1], ?_⟩
    rw [h.children]
    split_ifs with he
    · exact (mem_erase_of_ne hxz).mpr (he ▸ h3)
    · exact h3
  init {x} hx := by
    rw [h.initTask] at hx
    obtain ⟨h1, h2, h3⟩ := hp.init hx
    have hxz : x ≠ z := fun he => h3 (he ▸ hz)
    rw [h.allTasks]
    exact ⟨(mem_erase_of_ne hxz).mpr h1, (h.fields x).2.1.trans h2, by rwa [(h.fields x).1]⟩

/-! ### New tasks -/

/-- The task `child` is new: a child of `parent`, without children of its own. -/
structure Joined (s s' : State) (parent child : ℕ) : Prop where
  cores : s'.cores = s.cores
  currentTask : s'.currentTask = s.currentTask
  idleTask : s'.idleTask = s.idleTask
  allTasks : s'.allTasks = child :: s.allTasks
  initTask : s'.initTask = s.initTask ∨ s'.initTask = some child ∧ (s'.task child).id = 1
  live : (s'.task child).state ≠ .zombie
  above : (s'.task child).parent = some parent
  childless : (s'.task child).children = []
  zombie : ∀ {x}, x ≠ child → ((s'.task x).state = .zombie ↔ (s.task x).state = .zombie)
  fields : ∀ {x}, x ≠ child → (s'.task x).id = (s.task x).id ∧
    (s'.task x).parent = (s.task x).parent
  children : ∀ {x}, x ≠ child → (s'.task x).children =
    if x = parent then child :: (s.task x).children else (s.task x).children

theorem Joined.mem_children (h : Joined s s' parent child) (hp : p ≠ child) :
    x ∈ (s'.task p).children ↔ (x = child ∧ p = parent) ∨ x ∈ (s.task p).children := by
  rw [h.children hp]
  split_ifs with he <;> simp [he]

theorem Joined.quiet (h : Joined s s₁ parent child) (hq : Quiet s₁ s') :
    Joined s s' parent child where
  cores := hq.cores.trans h.cores
  currentTask := hq.currentTask.trans h.currentTask
  idleTask := hq.idleTask.trans h.idleTask
  allTasks := hq.allTasks.trans h.allTasks
  initTask := by
    rw [hq.initTask, (hq.kin child).1]
    exact h.initTask
  live := mt (hq.zombie child).mp h.live
  above := (hq.kin child).2.1.trans h.above
  childless := (hq.kin child).2.2.trans h.childless
  zombie hx := (hq.zombie _).trans (h.zombie hx)
  fields hx := ⟨(hq.kin _).1.trans (h.fields hx).1, (hq.kin _).2.1.trans (h.fields hx).2⟩
  children hx := (hq.kin _).2.2.trans (h.children hx)

theorem linkTask_task (k : Task) (h : child ≠ parent) :
    (linkTask s parent child k).task child = k := by
  rw [linkTask, setTask_task_of_ne h]
  exact Function.update_self _ _ _

theorem linkTask_task_of_ne (k : Task) (hx : x ≠ child) :
    (linkTask s parent child k).task x =
      { s.task x with children := if x = parent then child :: (s.task x).children
          else (s.task x).children } := by
  by_cases hxp : x = parent
  · subst hxp
    rw [linkTask, setTask_task_self, if_pos rfl]
    simp only [Function.update_of_ne hx]
  · rw [linkTask, setTask_task_of_ne hxp, if_neg hxp]
    simp only [Function.update_of_ne hx]

/-- A new task structure is put into its place; it may be the init task. -/
theorem Inv.linkTask {k : Task} (hi : Inv s on) (parent : ℕ) (init : Option ℕ) (n : ℕ)
    (hchild : child ∉ s.allTasks) :
    Inv (linkTask { s with initTask := init, nextTid := n } parent child k) on ∧
      Loose (Sched.linkTask { s with initTask := init, nextTid := n } parent child k) on child := by
  have hne : ∀ {x}, x ∈ s.allTasks → x ≠ child := fun hx he => hchild (he ▸ hx)
  have hold : ∀ {x}, x ∈ s.allTasks → ((Sched.linkTask { s with initTask := init, nextTid := n }
      parent child k).task x).state = (s.task x).state := fun hx => by
    rw [linkTask_task_of_ne k (hne hx)]
  have hcons : ∀ {x}, x ∈ s.allTasks → x ∈ child :: s.allTasks := mem_cons_of_mem _
  refine ⟨{ hi with
      queued := fun {w x} hx => ?_
      asleep := fun {c' x} hx => ?_
      on_state := fun {c' x} hx => ?_
      idle := fun {c'} hc => ?_
      nodup := nodup_cons.mpr ⟨hchild, hi.nodup⟩ },
    ⟨mem_cons_self, fun w hx => hchild (hi.queued hx).2, fun c' hx => hchild (hi.asleep hx).2,
      fun c' hx => hchild (hi.on_state hx).2, fun hc he => hchild (he ▸ (hi.idle hc).2)⟩⟩
  · obtain ⟨h1, h2⟩ := hi.queued hx
    exact ⟨(hold h2).trans h1, hcons h2⟩
  · obtain ⟨h1, h2⟩ := hi.asleep hx
    exact ⟨(hold h2).trans h1, hcons h2⟩
  · obtain ⟨h1, h2⟩ := hi.on_state hx
    exact ⟨by rw [hold h2]; exact h1, hcons h2⟩
  · obtain ⟨h1, h2⟩ := hi.idle hc
    exact ⟨(hold h2).trans h1, hcons h2⟩

theorem joined_linkTask {k : Task} {init : Option ℕ} (n : ℕ) (hne : child ≠ parent)
    (hk : k.parent = some parent) (hkids : k.children = []) (hstate : k.state ≠ .zombie)
    (hinit : init = s.initTask ∨ init = some child ∧ k.id = 1) :
    Joined s (linkTask { s with initTask := init, nextTid := n } parent child k) parent child := by
  have hnew : (linkTask { s with initTask := init, nextTid := n } parent child k).task child = k :=
    linkTask_task k hne
  refine ⟨rfl, rfl, rfl, rfl, ?_, by rw [hnew]; exact hstate, by rw [hnew, hk],
    by rw [hnew, hkids], fun hx => by rw [linkTask_task_of_ne k hx],
    fun hx => by rw [linkTask_task_of_ne k hx]; exact ⟨rfl, rfl⟩,
    fun hx => by rw [linkTask_task_of_ne k hx]⟩
  rw [hnew]
  exact hinit

theorem allocateTaskIdLocked_eq (s : State) :
    ∃ id n, allocateTaskIdLocked s = (id, { s with nextTid := n }) := by
  unfold allocateTaskIdLocked
  split
  · exact ⟨_, _, rfl⟩
  · exact ⟨_, _, rfl⟩

/-- **`clone`** of the task on CPU `c` into a structure that is no task yet. -/
theorem Inv.clone (hi : Inv s on) (hon : on c = some (s.currentTask c))
    (hchild : child ∉ s.allTasks) (h : clone s c child locks = .ok s') :
    Inv s' on ∧ Joined s s' (s.currentTask c) child ∧ s'.initTask = s.initTask := by
  unfold Sched.clone at h
  set t := s.currentTask c
  obtain ⟨id, n, htid⟩ := allocateTaskIdLocked_eq s
  simp only [htid] at h
  obtain ⟨c', h⟩ := enqueueReadyOnBestCpu_cases h
  have hne : child ≠ t := fun he => hchild (he ▸ (hi.on_state hon).2)
  obtain ⟨hi1, hl1⟩ := hi.linkTask (k := { s.task t with
    id := id, state := .ready, parent := some t, children := [] })
    t s.initTask n hchild
  have hj : Joined s (Sched.linkTask { s with nextTid := n } t child
      { s.task t with
        id := id, state := .ready, parent := some t, children := [] })
      t child := joined_linkTask n hne rfl rfl nofun (.inl rfl)
  have hq := quiet_enqueue h
  exact ⟨hi1.enqueue hl1 (by rw [linkTask_task _ hne]) h, hj.quiet hq, hq.initTask⟩

/-- **`spawn`** on CPU `c` into a structure that is no task yet. -/
theorem Inv.spawn {state : TaskState} {init : Bool} (hi : Inv s on)
    (hon : on c = some (s.currentTask c)) (hchild : child ∉ s.allTasks)
    (h : spawn s c child state init locks = .ok s') :
    Inv s' on ∧ Joined s s' (s.currentTask c) child ∧ (init = false → s'.initTask = s.initTask) ∧
      (init = true → s.initTask = none) := by
  unfold Sched.spawn at h
  split at h
  · cases h
  rename_i hstate
  split at h
  · cases h
  rename_i hnone
  have hne : child ≠ s.currentTask c := fun he => hchild (he ▸ (hi.on_state hon).2)
  have hid : ∃ id n, (if init = true then (1, s) else allocateTaskIdLocked s) =
      (id, { s with nextTid := n }) ∧ (init = true → id = 1) := by
    cases init with
    | true => exact ⟨1, s.nextTid, rfl, fun _ => rfl⟩
    | false =>
      obtain ⟨id, n, he⟩ := allocateTaskIdLocked_eq s
      exact ⟨id, n, he, nofun⟩
  obtain ⟨id, n, he, hone⟩ := hid
  simp only [he] at h
  have hz : state ≠ .zombie := by
    rintro rfl
    exact hstate ⟨nofun, nofun⟩
  set first := if init = true then some child else s.initTask with hfirst
  have hinit : first = s.initTask ∨ first = some child ∧ id = 1 := by
    cases init with
    | true => exact .inr ⟨rfl, hone rfl⟩
    | false => exact .inl rfl
  obtain ⟨hi1, hl1⟩ := hi.linkTask
    (k := ⟨id, state, 0, timeQuantums.getD 0 0, 0, c, 0, 0, some (s.currentTask c), []⟩)
    (s.currentTask c) first n hchild
  have hj : Joined s (Sched.linkTask { s with
        initTask := first, nextTid := n }
      (s.currentTask c) child
      ⟨id, state, 0, timeQuantums.getD 0 0, 0, c, 0, 0, some (s.currentTask c), []⟩)
      (s.currentTask c) child := joined_linkTask n hne rfl rfl hz hinit
  have hout : ∀ {s₂ : State}, s₂.initTask = first →
      (init = false → s₂.initTask = s.initTask) ∧ (init = true → s.initTask = none) := by
    intro s₂ hs2
    refine ⟨fun hf => by rw [hs2, hfirst, hf]; rfl, fun ht => ?_⟩
    by_contra hsome
    exact hnone ⟨ht, hsome⟩
  split at h
  · rename_i hready
    obtain ⟨c', h⟩ := enqueueReadyOnBestCpu_cases h
    have hq := quiet_enqueue h
    exact ⟨hi1.enqueue hl1 (by rw [linkTask_task _ hne]; exact hready) h, hj.quiet hq,
      hout hq.initTask⟩
  · cases h
    exact ⟨hi1, hj, hout rfl⟩

theorem Parents.joined (hp : Parents s) (hchild : child ∉ s.allTasks) (hlive : parent ∈ s.allTasks)
    (hz : (s.task parent).state ≠ .zombie) (h : Joined s s' parent child) : Parents s' where
  parent {x q} hx hq := by
    have hne : ∀ {x}, x ∈ s.allTasks → x ≠ child := fun hx he => hchild (he ▸ hx)
    have hup : ∀ {y}, y ∈ s.allTasks → (s.task y).state ≠ .zombie →
        (x = child ∧ y = parent) ∨ x ∈ (s.task y).children →
          y ∈ s'.allTasks ∧ (s'.task y).state ≠ .zombie ∧ x ∈ (s'.task y).children :=
      fun hy hz hxy => ⟨h.allTasks.symm ▸ mem_cons_of_mem _ hy, mt (h.zombie (hne hy)).mp hz,
        (h.mem_children (hne hy)).mpr hxy⟩
    rw [h.allTasks] at hx
    rcases mem_cons.mp hx with rfl | hx
    · rw [h.above] at hq
      obtain rfl := Option.some.inj hq
      exact hup hlive hz (.inl ⟨rfl, rfl⟩)
    · rw [(h.fields (hne hx)).2] at hq
      obtain ⟨h1, h2, h3⟩ := hp.parent hx hq
      exact hup h1 h2 (.inr h3)
  init {x} hx := by
    rcases h.initTask with hinit | ⟨hinit, hid⟩
    · rw [hinit] at hx
      obtain ⟨h1, h2, h3⟩ := hp.init hx
      have hxc : x ≠ child := fun he => hchild (he ▸ h1)
      exact ⟨h.allTasks.symm ▸ mem_cons_of_mem _ h1, (h.fields hxc).1.trans h2,
        mt (h.zombie hxc).mp h3⟩
    · obtain rfl := Option.some.inj (hinit.symm.trans hx)
      exact ⟨h.allTasks.symm ▸ mem_cons_self, hid, h.live⟩

end Process

end RHKernel.Sched
