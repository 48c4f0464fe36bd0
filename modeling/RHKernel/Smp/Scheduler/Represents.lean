import RHKernel.Smp.Scheduler.Invariant
import RHKernel.Smp.Scheduler.RunQueues

/-!
# The pointers hold the lists

`Rep P s` says that the heads, tails, links and counters of `P` hold the run queues and sleep lists
of `s`, and that these are in order: a queue holds `READY` tasks of its priority, oldest first.

A task that is in no list and is not an idle task is *unlisted*. A task that is taken out of a
queue or a sleep list becomes unlisted; an unlisted task may be changed at will, and put into a
queue if it is ready or into a sleep list. There is one rule for each of these moves.
-/

namespace RHKernel.Sched

open DList Function List Option Queues Refine

/-- The tasks that wait in the queues of a CPU. -/
def queued (q : ℕ × ℕ → List ℕ) (c : ℕ) : ℕ :=
  (List.range maxQueues).foldl (fun n p => n + (q (c, p)).length) 0

theorem queued_update (q : ℕ × ℕ → List ℕ) (c : ℕ) {p : ℕ} (hp : p < maxQueues) (l : List ℕ)
    (c' : ℕ) : queued (update q (c, p) l) c' + (if c' = c then (q (c, p)).length else 0) =
      queued q c' + if c' = c then l.length else 0 := by
  have hrange : List.range maxQueues = [0, 1, 2, 3] := rfl
  simp only [queued, hrange, foldl_cons, foldl_nil, zero_add]
  by_cases hc : c' = c
  · subst hc
    have hcases : p = 0 ∨ p = 1 ∨ p = 2 ∨ p = 3 := by
      unfold maxQueues at hp
      omega
    rcases hcases with rfl | rfl | rfl | rfl <;> simp <;> omega
  · simp [hc]

theorem length_le_queued (q : ℕ × ℕ → List ℕ) (c : ℕ) {p : ℕ} (hp : p < maxQueues) :
    (q (c, p)).length ≤ queued q c := by
  have h := queued_update q c hp [] c
  simp only [if_true, length_nil] at h
  omega

/-- The tasks that wait on a CPU, for it or for their time to come. -/
def State.load (s : State) (c : ℕ) : ℕ := queued s.taskQueues c + (s.sleepList c).length

/-- The lists are in order. -/
structure Ordered (s : State) : Prop where
  queues : Apart s.taskQueues
  queued : ∀ {c p t}, t ∈ s.taskQueues (c, p) → p < maxQueues ∧ (s.task t).state = .ready ∧
    (s.task t).priority = p ∧ (s.task t).enqueueTick ≤ s.ticks c
  oldest : ∀ {w t}, (s.taskQueues w).head? = some t → s.oldestTick w = (s.task t).enqueueTick
  sorted : ∀ w, (s.taskQueues w).Pairwise fun a b =>
    (s.task a).enqueueTick ≤ (s.task b).enqueueTick
  sleepers : Apart s.sleepList
  asleep : ∀ {c t}, t ∈ s.sleepList c → (s.task t).state = .sleeping
  idle : ∀ {c}, c < s.cores → (s.task (s.idleTask c)).state = .running
  idle_inj : ∀ {c c'}, c < s.cores → c' < s.cores → s.idleTask c = s.idleTask c' → c = c'
  idle_on : ∀ {c c'}, c < s.cores → c' < s.cores → s.currentTask c' = s.idleTask c → c' = c

/-- A task that is in no list and not an idle task. -/
structure Unlisted (s : State) (t : ℕ) : Prop where
  not_queued : ∀ w, t ∉ s.taskQueues w
  not_asleep : ∀ c, t ∉ s.sleepList c
  not_idle : ∀ {c}, c < s.cores → t ≠ s.idleTask c

/-- The pointers and counters of `P` hold the lists of `s`. -/
structure Rep (P : Cpus) (s : State) : Prop where
  cores : P.cores = s.cores
  ticks : P.ticks = s.ticks
  currentTask : P.currentTask = s.currentTask
  idleTask : P.idleTask = s.idleTask
  oldestTick : P.oldestTick = s.oldestTick
  task : P.task = s.task
  lists : Lists P.links P.taskQueuesHead s.taskQueues
  tail : ∀ w, P.taskQueuesTail w = (s.taskQueues w).getLast?
  count : ∀ w, P.taskQueueCount w = (s.taskQueues w).length
  runnable : ∀ c, P.runnableCount c = Sched.queued s.taskQueues c
  chain : ∀ c, Chain P.links.next (P.sleepListHead c) (s.sleepList c)
  asleep_prev : ∀ {c t}, t ∈ s.sleepList c → P.links.prev t = none
  free : ∀ {t}, (∀ w, t ∉ s.taskQueues w) → (∀ c, t ∉ s.sleepList c) →
    P.links.next t = none ∧ P.links.prev t = none
  ordered : Ordered s

/-- The code over pointers follows the code over lists. A corrupt priority is the only reason to
panic. -/
abbrev Follows {α β : Type} (R : α → β → Prop) (enough : Prop) :
    Except Stop α → Except String β → Prop :=
  Refines (· = "scheduler enqueue priority corrupt") R enough

section Lists

variable {s s' : State} {c t p : ℕ}

/-! ### The rules for the lists -/

variable (ho : Ordered s)

include ho

theorem Ordered.unlisted (h1 : (s.task t).state ≠ .ready)
    (h2 : (s.task t).state ≠ .sleeping) (hidle : ∀ {c}, c < s.cores → t ≠ s.idleTask c) :
    Unlisted s t :=
  ⟨fun _ h => h1 (ho.queued h).2.1, fun _ h => h2 (ho.asleep h), hidle⟩

theorem Ordered.not_asleep {w : ℕ × ℕ} (ht : t ∈ s.taskQueues w) : t ∉ s.sleepList c := by
  intro h
  have hstate := (ho.queued (c := w.1) (p := w.2) ht).2.1
  rw [ho.asleep h] at hstate
  cases hstate

theorem Ordered.ne_idle (h : (s.task t).state ≠ .running) (hc : c < s.cores) :
    t ≠ s.idleTask c := fun he => h (he ▸ ho.idle hc)

theorem Ordered.unlinkQueued (ht : t ∈ s.taskQueues (c, p)) :
    Ordered (unlinkQueued s c t p) ∧ Unlisted (Sched.unlinkQueued s c t p) t := by
  have hmem : ∀ {w x}, x ∈ (Sched.unlinkQueued s c t p).taskQueues w ↔
      x ≠ t ∧ x ∈ s.taskQueues w := ho.queues.mem_erase_iff ht
  have hready := (ho.queued ht).2.1
  refine ⟨{ ho with
      queues := ho.queues.shrink erase_sublist
      queued := fun h => ho.queued (hmem.mp h).2
      oldest := fun {w x} hx => ?_
      sorted := fun w => ?_ },
    ⟨fun w h => (hmem.mp h).1 rfl, fun c' => ho.not_asleep ht, fun hc => ?_⟩⟩
  · by_cases hw : w = (c, p)
    · subst hw
      simp only [Sched.unlinkQueued, update_self] at hx ⊢
      rw [hx, map_some, getD_some]
    · simp only [Sched.unlinkQueued, update_of_ne hw] at hx ⊢
      exact ho.oldest hx
  · simp only [Sched.unlinkQueued]
    exact update_elim ((ho.sorted (c, p)).sublist erase_sublist) (fun w _ => ho.sorted w) w
  · exact ho.ne_idle (by rw [hready]; nofun) hc

theorem Ordered.setTask (hu : Unlisted s t) (f : Task → Task) :
    Ordered (s.setTask t f) ∧ Unlisted (s.setTask t f) t := by
  have hother : ∀ {x}, x ≠ t → (s.setTask t f).task x = s.task x := setTask_task_of_ne
  have hq : ∀ {w x}, x ∈ s.taskQueues w → (s.setTask t f).task x = s.task x := fun {w x} hx =>
    hother fun he => hu.not_queued w (he ▸ hx)
  refine ⟨⟨ho.queues, fun {c' p' x} hx => ?_, fun {w x} hx => ?_, fun w => ?_, ho.sleepers,
    fun {c' x} hx => ?_, fun {c'} hc => ?_, ho.idle_inj, ho.idle_on⟩, { hu with }⟩
  · rw [hq hx]
    exact ho.queued hx
  · rw [hq (mem_of_head? hx)]
    exact ho.oldest hx
  · refine (ho.sorted w).imp_of_mem fun ha hb hab => ?_
    rw [hq ha, hq hb]
    exact hab
  · rw [hother fun he => hu.not_asleep c' (he ▸ hx)]
    exact ho.asleep hx
  · have hne : s.idleTask c' ≠ t := (hu.not_idle hc).symm
    exact (hother hne).symm ▸ ho.idle hc

omit ho

theorem enqueue_eq (hp : (s.task t).priority < maxQueues) (hlinked : s.linked t = false) :
    enqueue s c t = .ok
      { s.setTask t fun k => { k with enqueueTick := s.ticks c, lastCpuIndex := c } with
        oldestTick := update s.oldestTick (c, (s.task t).priority)
          (if s.taskQueues (c, (s.task t).priority) = [] then s.ticks c
            else s.oldestTick (c, (s.task t).priority))
        taskQueues := update s.taskQueues (c, (s.task t).priority)
          (s.taskQueues (c, (s.task t).priority) ++ [t]) } := by
  unfold enqueue
  simp only [if_neg (not_le.mpr hp), hlinked, Bool.false_eq_true, if_false]

theorem Unlisted.linked (hu : Unlisted s t) : s.linked t = false := by
  simp [State.linked, hu.not_queued, hu.not_asleep]

theorem Ordered.enqueue (ho : Ordered s) (hu : Unlisted s t) (hready : (s.task t).state = .ready)
    (h : enqueue s c t = .ok s') : Ordered s' := by
  have hp : (s.task t).priority < maxQueues := by
    by_contra hp
    simp only [Sched.enqueue, if_pos (not_lt.mp hp)] at h
    cases h
  rw [enqueue_eq hp hu.linked] at h
  cases h
  obtain ⟨ho', -⟩ := ho.setTask hu fun k => { k with enqueueTick := s.ticks c, lastCpuIndex := c }
  have hperm : (s.taskQueues (c, (s.task t).priority) ++ [t]).Perm
      (t :: s.taskQueues (c, (s.task t).priority)) := perm_append_singleton _ _
  have hself : ∀ f : Task → Task, (s.setTask t f).task t = f (s.task t) := fun _ =>
    setTask_task_self _
  refine { ho' with
      queues := ho.queues.insert hperm hu.not_queued
      queued := fun {c' p' x} hx => ?_
      oldest := fun {w x} hx => ?_
      sorted := fun w => ?_ }
  · rcases (mem_insert_iff hperm).mp hx with ⟨rfl, hw⟩ | hx
    · cases hw
      simp only [hself]
      exact ⟨hp, hready, trivial, le_rfl⟩
    · exact ho'.queued hx
  · by_cases hw : w = (c, (s.task t).priority)
    · subst hw
      simp only [update_self] at hx ⊢
      by_cases hnil : s.taskQueues (c, (s.task t).priority) = []
      · rw [hnil] at hx
        cases hx
        rw [if_pos hnil, hself]
      · rw [if_neg hnil]
        rw [head?_append_of_ne_nil _ hnil] at hx
        exact ho'.oldest hx
    · simp only [update_of_ne hw] at hx ⊢
      exact ho'.oldest hx
  · simp only
    refine update_elim (pairwise_append.mpr ⟨ho'.sorted _, pairwise_singleton _ _,
      fun a ha b hb => ?_⟩) (fun w _ => ho'.sorted w) w
    cases mem_singleton.mp hb
    rw [hself]
    exact (ho'.queued ha).2.2.2

theorem Ordered.unsleep (ho : Ordered s) (ht : t ∈ s.sleepList c) :
    Ordered { s with sleepList := update s.sleepList c ((s.sleepList c).erase t) } ∧
      Unlisted { s with sleepList := update s.sleepList c ((s.sleepList c).erase t) } t := by
  have hmem : ∀ {w x}, x ∈ update s.sleepList c ((s.sleepList c).erase t) w ↔
      x ≠ t ∧ x ∈ s.sleepList w := ho.sleepers.mem_erase_iff ht
  have hsleep := ho.asleep ht
  exact ⟨{ ho with
      sleepers := ho.sleepers.shrink erase_sublist
      asleep := fun h => ho.asleep (hmem.mp h).2 },
    ⟨fun w h => ho.not_asleep h ht, fun w h => (hmem.mp h).1 rfl,
    fun hc => ho.ne_idle (by rw [hsleep]; nofun) hc⟩⟩

end Lists

section Pointers

variable {P : Cpus} {s : State} {c t p : ℕ}

/-! ### The rules for the pointers -/

/-- A task leaves its run queue; the counters do not underflow. -/
theorem Rep.unlinkQueued (h : Rep P s) (ht : t ∈ s.taskQueues (c, p)) :
    ∃ P', P.unlinkQueued c t p = .ok P' ∧ Rep P' (Sched.unlinkQueued s c t p) := by
  have hp := (h.ordered.queued ht).1
  have hlen : 0 < (s.taskQueues (c, p)).length := length_pos_of_mem ht
  have hle := length_le_queued s.taskQueues c hp
  have hcount : ¬(P.taskQueueCount (c, p) = 0 ∨ P.runnableCount c = 0) := by
    rw [h.count, h.runnable]
    omega
  have hlists := h.lists.unlink ht
  -- the neighbours of `t` are in its queue, so the sleepers keep their links
  have hnext : ∀ {x}, x ≠ t → (∀ w, x ∉ s.taskQueues w) →
      (P.links.remove t).next x = P.links.next x := by
    intro x hx hq
    have hne : P.links.prev t ≠ some x := fun he =>
      ((h.lists.linked _).prev_mem ht he).elim nofun (hq _)
    simp only [Links.remove, hx, if_false, hne]
  have hprev : ∀ {x}, x ≠ t → (∀ w, x ∉ s.taskQueues w) →
      (P.links.remove t).prev x = P.links.prev x := by
    intro x hx hq
    have hne : P.links.next t ≠ some x := fun he => hq _ ((h.lists.linked _).next_mem ht he)
    simp only [Links.remove, hx, if_false, hne]
  have hsleeper : ∀ {c' x}, x ∈ s.sleepList c' → x ≠ t ∧ ∀ w, x ∉ s.taskQueues w :=
    fun {c' x} hx => ⟨fun he => h.ordered.not_asleep ht (he ▸ hx),
      fun w hw => h.ordered.not_asleep hw hx⟩
  refine ⟨_, if_neg hcount, ⟨h.cores, h.ticks, h.currentTask, h.idleTask, ?_, h.task, hlists,
    h.lists.unlink_tail ht h.tail, fun w => ?_, fun c' => ?_, fun c' => ?_, fun {c' x} hx => ?_,
    fun {x} hq hs => ?_, (h.ordered.unlinkQueued ht).1⟩⟩
  · have hhead := hlists.head_eq (c, p)
    rw [update_self] at hhead
    simp only [Cpus.refreshQueueOldest, Cpus.queueOldestTick, Cpus.unlink, h.oldestTick, h.task,
      Sched.unlinkQueued, hhead]
  · by_cases hw : w = (c, p)
    · subst hw
      simp only [Cpus.refreshQueueOldest, Cpus.unlink, Sched.unlinkQueued, update_self,
        h.count, length_erase_of_mem ht]
    · simp only [Cpus.refreshQueueOldest, Cpus.unlink, Sched.unlinkQueued, update_of_ne hw, h.count]
  · have hupdate := queued_update s.taskQueues c hp ((s.taskQueues (c, p)).erase t) c'
    by_cases hc : c' = c
    · subst hc
      simp only [if_true, length_erase_of_mem ht] at hupdate
      simp only [Cpus.refreshQueueOldest, Cpus.unlink, Sched.unlinkQueued, update_self, h.runnable]
      omega
    · simp only [if_neg hc, add_zero] at hupdate
      simp only [Cpus.refreshQueueOldest, Cpus.unlink, Sched.unlinkQueued,
        update_of_ne hc, h.runnable, hupdate]
  · exact (h.chain c').congr fun x hx => hnext (hsleeper hx).1 (hsleeper hx).2
  · exact (hprev (hsleeper hx).1 (hsleeper hx).2).trans (h.asleep_prev hx)
  · by_cases hx : x = t
    · subst hx
      exact ⟨by simp [Cpus.refreshQueueOldest, Cpus.unlink, Links.remove],
        by simp [Cpus.refreshQueueOldest, Cpus.unlink, Links.remove]⟩
    · have hq' : ∀ w, x ∉ s.taskQueues w := fun w hw =>
        hq w ((h.ordered.queues.mem_erase_iff ht).mpr ⟨hx, hw⟩)
      obtain ⟨h1, h2⟩ := h.free hq' hs
      exact ⟨(hnext hx hq').trans h1, (hprev hx hq').trans h2⟩

theorem Rep.setTask (h : Rep P s) (hu : Unlisted s t) (f : Task → Task) :
    Rep (P.setTask t f) (s.setTask t f) where
  cores := h.cores
  ticks := h.ticks
  currentTask := h.currentTask
  idleTask := h.idleTask
  oldestTick := h.oldestTick
  task := by simp only [Cpus.setTask, State.setTask, h.task]
  lists := h.lists
  tail := h.tail
  count := h.count
  runnable := h.runnable
  chain := h.chain
  asleep_prev := h.asleep_prev
  free := h.free
  ordered := (h.ordered.setTask hu f).1

/-- The links that `enqueue` writes for an unlisted task. -/
theorem Rep.link_links (h : Rep P s) (hu : Unlisted s t) (f : Task → Task) :
    ((P.setTask t f).link c t p).links = P.links.append (s.taskQueues (c, p)).getLast? t := by
  have hnext : ((P.setTask t f).link c t p).links.next =
      (P.links.append (s.taskQueues (c, p)).getLast? t).next := by
    funext x
    simp only [Cpus.link, Cpus.setTask, Links.append, h.lists.head_eq_none_iff, h.tail]
    by_cases hnil : s.taskQueues (c, p) = []
    · simp only [hnil, if_true, getLast?_nil, update_apply, reduceCtorEq, if_false]
    have hlast := getLast_mem hnil
    rw [if_neg hnil, getLast?_eq_some_getLast hnil]
    simp only [elim_some, update_apply, Option.some.injEq]
    by_cases hx : x = t
    · subst hx
      have hne : x ≠ (s.taskQueues (c, p)).getLast hnil := fun he =>
        hu.not_queued (c, p) (he ▸ hlast)
      rw [if_neg hne, if_pos rfl, if_pos rfl]
    · simp only [hx, if_false, eq_comm]
  have hprev : ((P.setTask t f).link c t p).links.prev =
      (P.links.append (s.taskQueues (c, p)).getLast? t).prev := by
    funext x
    simp only [Cpus.link, Cpus.setTask, Links.append, h.tail, update_apply]
  generalize ((P.setTask t f).link c t p).links = L at hnext hprev ⊢
  cases L
  simp only at hnext hprev
  rw [hnext, hprev]

theorem Rep.enqueue {e : Prop} (h : Rep P s) (hu : Unlisted s t)
    (hready : (s.task t).state = .ready) :
    Follows Rep e (P.enqueue c t) (Sched.enqueue s c t) := by
  obtain ⟨hfree, hfree'⟩ := h.free hu.not_queued hu.not_asleep
  by_cases hp : maxQueues ≤ (s.task t).priority
  · have h1 : P.enqueue c t = .error (.panic "scheduler enqueue priority corrupt") := by
      rw [← h.task] at hp
      exact if_pos hp
    rw [h1, show Sched.enqueue s c t = .error "scheduler enqueue priority corrupt" from if_pos hp]
    exact .panic rfl
  have hp' := Nat.lt_of_not_le hp
  have ho := h.ordered.enqueue hu hready (enqueue_eq (c := c) hp' hu.linked)
  rw [enqueue_eq hp' hu.linked]
  have hlast : ∀ {w x}, (s.taskQueues w).getLast? = some x → x ∈ s.taskQueues w := mem_of_getLast?
  have h1 : P.enqueue c t = .ok
      { (P.setTask t fun k => { k with enqueueTick := P.ticks c, lastCpuIndex := c }).link c t
        (s.task t).priority with
        taskQueueCount := update P.taskQueueCount (c, (s.task t).priority)
          (P.taskQueueCount (c, (s.task t).priority) + 1)
        runnableCount := update P.runnableCount c (P.runnableCount c + 1) } := by
    rw [← h.task] at hp ⊢
    exact (if_neg hp).trans (if_neg (by simp [hfree, hfree']))
  rw [h1]
  generalize (s.task t).priority = p at hp' ho ⊢
  refine .ok ⟨h.cores, h.ticks, h.currentTask, h.idleTask, ?_, ?_, ?_, fun w => ?_, fun w => ?_,
    fun c' => ?_, fun c' => ?_, fun {c' x} hx => ?_, fun {x} hq hs => ?_, ho⟩
  · simp only [Cpus.link, Cpus.setTask, h.lists.head_eq_none_iff, h.oldestTick, h.ticks,
      update_self]
    by_cases hnil : s.taskQueues (c, p) = []
    · simp only [hnil, if_true]
    · simp only [hnil, if_false, update_eq_self]
  · simp only [Cpus.link, Cpus.setTask, State.setTask, h.task, h.ticks]
  · simp only [h.link_links hu]
    have happ := h.lists.append (c, p) hu.not_queued
    have hhead : ((P.setTask t fun k => { k with enqueueTick := P.ticks c, lastCpuIndex := c }).link
        c t p).taskQueuesHead = update P.taskQueuesHead (c, p) (if P.taskQueuesHead (c, p) = none
            then some t else P.taskQueuesHead (c, p)) := by
      simp only [Cpus.link, Cpus.setTask]
      by_cases hnone : P.taskQueuesHead (c, p) = none
      · simp only [hnone, if_true]
      · simp only [hnone, if_false, update_eq_self]
    rw [hhead]
    exact happ
  · by_cases hw : w = (c, p)
    · subst hw
      simp [Cpus.link]
    · simp only [Cpus.link, Cpus.setTask, update_of_ne hw, h.tail]
  · by_cases hw : w = (c, p)
    · subst hw
      simp only [update_self, h.count, length_append, length_singleton]
    · simp only [update_of_ne hw, h.count]
  · have hupdate := queued_update s.taskQueues c hp' (s.taskQueues (c, p) ++ [t]) c'
    by_cases hc : c' = c
    · subst hc
      simp only [if_true, length_append, length_singleton] at hupdate
      simp only [update_self, h.runnable]
      omega
    · simp only [if_neg hc, add_zero] at hupdate
      simp only [update_of_ne hc, h.runnable, hupdate]
  · simp only [h.link_links hu]
    refine (h.chain c').congr fun x hx => ?_
    have hxt : x ≠ t := fun he => hu.not_asleep c' (he ▸ hx)
    have hxl : (s.taskQueues (c, p)).getLast? ≠ some x := fun he =>
      h.ordered.not_asleep (hlast he) hx
    simp only [Links.append, hxt, if_false, hxl]
  · simp only [h.link_links hu]
    have hxt : x ≠ t := fun he => hu.not_asleep c' (he ▸ hx)
    simp only [Links.append, hxt, if_false]
    exact h.asleep_prev hx
  · have hmem : ∀ {w}, x ∈ update s.taskQueues (c, p)
        (s.taskQueues (c, p) ++ [t]) w ↔
          (x = t ∧ w = (c, p)) ∨ x ∈ s.taskQueues w :=
      mem_insert_iff (perm_append_singleton _ _)
    have hxt : x ≠ t := fun he => hq _ (hmem.mpr (.inl ⟨he, rfl⟩))
    have hxq : ∀ w, x ∉ s.taskQueues w := fun w hw => hq w (hmem.mpr (.inr hw))
    have hxl : (s.taskQueues (c, p)).getLast? ≠ some x := fun he =>
      hxq _ (hlast he)
    simp only [h.link_links hu, Links.append, hxt, if_false, hxl]
    exact h.free hxq hs

theorem Rep.erase_sleeper (h : Rep P s) {pre rest : List ℕ}
    (hl : s.sleepList c = pre ++ t :: rest) : (s.sleepList c).erase t = pre ++ rest := by
  have hnd := h.ordered.sleepers.nodup c
  rw [hl] at hnd ⊢
  have htpre : t ∉ pre := fun hm => (nodup_append.mp hnd).2.2 t hm t mem_cons_self rfl
  rw [erase_append_right _ htpre, erase_cons_head]

/-- A sleeper leaves its sleep list; `pre` sleeps on. -/
theorem Rep.unsleep (h : Rep P s) {pre rest : List ℕ} (hl : s.sleepList c = pre ++ t :: rest) :
    Rep (P.unsleep c pre.getLast? t)
      { s with sleepList := update s.sleepList c (pre ++ rest) } := by
  have hnd := h.ordered.sleepers.nodup c
  have ht : t ∈ s.sleepList c := by simp [hl]
  have herase := h.erase_sleeper hl
  obtain ⟨ho, hu⟩ := h.ordered.unsleep ht
  rw [herase] at ho hu
  have hprevs : ∀ {q}, pre.getLast? = some q → q ∈ s.sleepList c := fun hq => by
    rw [hl]
    exact mem_append_left _ (mem_of_getLast? hq)
  -- the only links that change are those of two sleepers of `c`
  have hother : ∀ {x}, x ∉ s.sleepList c →
      (P.unsleep c pre.getLast? t).links.next x = P.links.next x ∧
        (P.unsleep c pre.getLast? t).links.prev x = P.links.prev x := by
    intro x hx
    have hxt : x ≠ t := fun he => hx (he ▸ ht)
    refine ⟨?_, by simp only [Cpus.unsleep, update_of_ne hxt]⟩
    simp only [Cpus.unsleep, update_of_ne hxt]
    cases hq : pre.getLast? with
    | none => rfl
    | some q =>
      have hxq : x ≠ q := fun he => hx (he ▸ hprevs hq)
      exact update_of_ne hxq _ _
  have hmem : ∀ {w x}, x ∈ update s.sleepList c (pre ++ rest) w ↔
      x ≠ t ∧ x ∈ s.sleepList w := herase ▸ h.ordered.sleepers.mem_erase_iff ht
  refine ⟨h.cores, h.ticks, h.currentTask, h.idleTask, h.oldestTick, h.task,
    h.lists.congr (fun hx => (hother (h.ordered.not_asleep hx)).1)
      fun hx => (hother (h.ordered.not_asleep hx)).2, h.tail, h.count, h.runnable,
    fun c' => ?_, fun {c' x} hx => ?_, fun {x} hq hs => ?_, ho⟩
  · by_cases hc : c' = c
    · subst hc
      simp only [update_self]
      have hchain := h.chain c'
      rw [hl] at hchain hnd
      rcases eq_nil_or_concat pre with rfl | ⟨l, q, rfl⟩
      · have hrest : Chain P.links.next (P.links.next t) rest := hchain.2
        have htr : t ∉ rest := (nodup_cons.mp hnd).1
        simp only [Cpus.unsleep, getLast?_nil, if_true, update_self, elim_none]
        refine hrest.congr fun x hx => ?_
        have hxt : x ≠ t := fun he => htr (he ▸ hx)
        exact update_of_ne hxt _ _
      rw [concat_eq_append] at hchain hnd ⊢
      rw [append_assoc, singleton_append] at hchain hnd
      have hskip := hchain.skip hnd
      simp only [Cpus.unsleep, getLast?_append, getLast?_singleton, some_or,
        elim_some, reduceCtorEq, if_false, append_assoc, singleton_append]
      refine hskip.congr fun x hx => update_of_ne ?_ _ _
      rintro rfl
      rcases mem_append.mp hx with hx | hx
      · exact (nodup_append.mp hnd).2.2 x hx x (by simp) rfl
      · rcases mem_cons.mp hx with rfl | hx
        · exact (nodup_cons.mp (nodup_append.mp hnd).2.1).1 mem_cons_self
        · exact (nodup_cons.mp (nodup_cons.mp (nodup_append.mp hnd).2.1).2).1 hx
    · have hhead : (P.unsleep c pre.getLast? t).sleepListHead c' = P.sleepListHead c' := by
        simp only [Cpus.unsleep]
        split
        · exact update_of_ne hc _ _
        · rfl
      rw [hhead]
      simp only [update_of_ne hc]
      exact (h.chain c').congr fun x hx =>
        (hother fun hx' => hc (h.ordered.sleepers.disjoint hx hx')).1
  · obtain ⟨hxt, hx⟩ := hmem.mp hx
    simp only [Cpus.unsleep, update_of_ne hxt]
    exact h.asleep_prev hx
  · by_cases hxt : x = t
    · subst hxt
      simp only [Cpus.unsleep, update_self, and_self]
    · have hs' : ∀ c', x ∉ s.sleepList c' := fun c' hx => hs c' (hmem.mpr ⟨hxt, hx⟩)
      obtain ⟨h1, h2⟩ := h.free hq hs'
      exact ⟨(hother (hs' c)).1.trans h1, (hother (hs' c)).2.trans h2⟩

end Pointers

end RHKernel.Sched
