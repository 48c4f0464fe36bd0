import RHKernel.Smp.Scheduler.Invariant

/-!
# The operations of the scheduler keep the invariant

One lemma for each critical section, put together from the rules for loose tasks. Waking and
reaping carry a hypothesis that the code does not check: the task concerned is on no CPU.
-/

namespace RHKernel.Sched

open Queues Step
open Function (update update_self update_idem update_eq_self)

section Ops

variable {s s' s₁ : State} {on : ℕ → Option ℕ} {c t p i n self victim ticks : ℕ} {locks : TryLocks}
  {acquired : ℕ → Bool}

theorem quiet_unlinkQueued : Quiet s (unlinkQueued s c t p) :=
  ⟨⟨rfl, rfl, rfl, rfl, fun _ => ⟨rfl, rfl, rfl⟩, fun _ => .rfl⟩, rfl⟩

theorem enqueueReadyOnBestCpu_cases (h : enqueueReadyOnBestCpu s c t locks = .ok s') :
    ∃ c', enqueue s c' t = .ok s' := by
  unfold enqueueReadyOnBestCpu at h
  simp only at h
  split at h
  · exact ⟨_, h⟩
  · split at h
    · exact ⟨_, h⟩
    · exact ⟨_, h⟩

theorem Inv.makeReady (hi : Inv s on) (hl : Loose s on t) (hz : (s.task t).state ≠ .zombie)
    (h : Sched.enqueue (s.setState t .ready) c t = .ok s') : Inv s' on ∧ Quiet s s' := by
  obtain ⟨hi', hl'⟩ := hi.setState hl .ready
  have hready : ((s.setState t .ready).task t).state = .ready := by simp [State.setState]
  exact ⟨hi'.enqueue hl' hready h, (quiet_setState .ready hz nofun).trans (quiet_enqueue h)⟩

/-! ### Picking the next task -/

theorem Inv.promoteQueue (hi : Inv s on) (h : promoteQueue s c i n = .ok s') :
    Inv s' on ∧ Quiet s s' := by
  induction n generalizing s with
  | zero =>
    cases h
    exact ⟨hi, .refl _⟩
  | succ n ih =>
    rw [Sched.promoteQueue] at h
    cases hq : s.taskQueues (c, i) with
    | nil =>
      simp only [hq] at h
      cases h
      exact ⟨hi, .refl _⟩
    | cons item rest =>
      simp only [hq] at h
      split at h
      · cases h
        exact ⟨hi, .refl _⟩
      obtain ⟨s₁, h1, h⟩ := ok_bind h
      obtain ⟨hi1, hl1, hready⟩ := hi.unlinkQueued (hq ▸ List.mem_cons_self)
      obtain ⟨hi2, hl2⟩ := hi1.setLoose hl1 fun k =>
        { k with priority := i - 1, quantum := timeQuantums.getD (i - 1) 0 }
      have hi3 := hi2.enqueue hl2 (by rw [setTask_task_self]; exact hready) h1
      obtain ⟨hi', hk'⟩ := ih hi3 h
      have hk2 : Quiet (Sched.unlinkQueued s c item i)
          ((Sched.unlinkQueued s c item i).setTask item fun k =>
            { k with priority := i - 1, quantum := timeQuantums.getD (i - 1) 0 }) :=
        quiet_setTask rfl rfl rfl .rfl
      exact ⟨hi', ((quiet_unlinkQueued.trans hk2).trans (quiet_enqueue h1)).trans hk'⟩

theorem Inv.promoteExpiredTasks (hi : Inv s on) (h : promoteExpiredTasks s c = .ok s') :
    Inv s' on ∧ Quiet s s' :=
  foldlM_invariant (I := fun x => Inv x on ∧ Quiet s x)
    (fun hx hstep => (hx.1.promoteQueue hstep).imp id hx.2.trans) ⟨hi, .refl s⟩ h

/-- What stealing leaves: the stolen task is loose. -/
def Stole (s s' : State) (on : ℕ → Option ℕ) (r : Option ℕ) : Prop :=
  Inv s' on ∧ Quiet s s' ∧ ∀ t, r = some t → Loose s' on t ∧ (s'.task t).state = .ready

theorem Inv.stealOneFromLockedVictim {r : Option ℕ} (hi : Inv s on)
    (h : stealOneFromLockedVictim s self victim = (r, s')) : Stole s s' on r := by
  have hnone : (none, s) = (r, s') → Stole s s' on r := by
    intro he
    cases he
    exact ⟨hi, .refl _, nofun⟩
  unfold Sched.stealOneFromLockedVictim at h
  split at h
  · exact hnone h
  split at h
  · exact hnone h
  split at h
  · exact hnone h
  rename_i p _ _ x hlast
  cases h
  obtain ⟨hi1, hl1, hready⟩ := hi.unlinkQueued (List.mem_of_getLast? hlast)
  obtain ⟨hi2, hl2⟩ := hi1.setLoose hl1 fun k => { k with lastCpuIndex := self }
  refine ⟨hi2, quiet_unlinkQueued.trans (quiet_setTask rfl rfl rfl .rfl), fun t ht => ?_⟩
  obtain rfl := Option.some.inj ht
  exact ⟨hl2, by rw [setTask_task_self]; exact hready⟩

theorem Inv.stealTask {r : Option ℕ} (hi : Inv s on) (h : stealTask s c acquired = (r, s')) :
    Stole s s' on r := by
  have hnone : (none, s) = (r, s') → Stole s s' on r := by
    intro he
    cases he
    exact ⟨hi, .refl _, nofun⟩
  unfold Sched.stealTask at h
  split at h
  · exact hnone h
  simp only at h
  split at h
  · exact hnone h
  rename_i victim _
  split at h
  · exact hnone h
  generalize hs : Sched.stealOneFromLockedVictim s c victim = x at h
  obtain ⟨hi1, hk1, hl1⟩ := hi.stealOneFromLockedVictim hs
  split at h
  · cases h
    exact ⟨hi1, hk1, hl1⟩
  rename_i t hsome
  cases h
  obtain ⟨hl, hready⟩ := hl1 t hsome
  obtain ⟨hi2, hl2⟩ := hi1.setLoose hl fun k => { k with enqueueTick := s.ticks c }
  refine ⟨hi2, hk1.trans (quiet_setTask rfl rfl rfl .rfl), fun t ht => ?_⟩
  obtain rfl := Option.some.inj ht
  exact ⟨hl2, by rw [setTask_task_self]; exact hready⟩

/-- The next task is loose, or the idle task. -/
theorem Inv.dequeue (hi : Inv s on) (h : dequeue s c acquired = .ok (t, s')) :
    Inv s' on ∧ Quiet s s' ∧ (Loose s' on t ∧ (s'.task t).state = .ready ∨ t = s'.idleTask c) := by
  unfold Sched.dequeue at h
  obtain ⟨s₁, h1, h⟩ := ok_bind h
  obtain ⟨hi1, hk1⟩ := hi.promoteExpiredTasks h1
  split at h
  · rename_i p hp
    split at h
    · cases h
      exact ⟨hi1, hk1, .inr rfl⟩
    · rename_i x rest hq
      cases h
      obtain ⟨hi2, hl2, hready⟩ := hi1.unlinkQueued (hq ▸ List.mem_cons_self)
      exact ⟨hi2, hk1.trans quiet_unlinkQueued, .inl ⟨hl2, hready⟩⟩
  · split at h
    · rename_i x s2 hsteal
      cases h
      obtain ⟨hi2, hk2, hl2⟩ := hi1.stealTask hsteal
      exact ⟨hi2, hk1.trans hk2, .inl (hl2 _ rfl)⟩
    · rename_i s2 hsteal
      cases h
      obtain ⟨hi2, hk2, -⟩ := hi1.stealTask hsteal
      exact ⟨hi2, hk1.trans hk2, .inr rfl⟩

theorem setState_eq_self {state : TaskState} (h : (s.task t).state = state) :
    s.setState t state = s := by
  subst h
  exact congrArg (fun f => { s with task := f }) (update_eq_self t s.task)

/-- What is on which CPU after CPU `c` has switched. -/
structure Switched (s s' : State) (on : ℕ → Option ℕ) (c : ℕ) : Prop where
  tree : SameTree s s'
  inv : ∃ t, s'.currentTask = update s.currentTask c t ∧
    Inv s' (update on c (some t))

theorem Inv.pickNext (hi : Inv s on) (hc : c < s.cores) (h : pickNext s c acquired = .ok s') :
    Switched s s' on c := by
  unfold Sched.pickNext at h
  obtain ⟨⟨t, s₁⟩, h1, h⟩ := ok_bind h
  cases h
  obtain ⟨hi1, hk1, hcase⟩ := hi.dequeue h1
  have hi2 : Inv (s₁.setState t .running) (update on c (some t)) ∧
      Quiet s₁ (s₁.setState t .running) := by
    rcases hcase with ⟨hl, hready⟩ | rfl
    · obtain ⟨hi2, hl2⟩ := hi1.setState hl .running
      exact ⟨hi2.enterLoose hl2 (by simp [State.setState]),
        quiet_setState .running (by rw [hready]; nofun) nofun⟩
    · have hc1 : c < s₁.cores := hk1.cores.symm ▸ hc
      rw [setState_eq_self (hi1.idle hc1).1]
      exact ⟨hi1.enterIdle hc1, .refl _⟩
  obtain ⟨hi2, hq2⟩ := hi2
  have hq := hk1.trans hq2
  refine ⟨{ hq with }, t, by simp only [State.setState, State.setTask, hk1.currentTask], ?_⟩
  exact { hi2 with }

/-! ### `schedule` -/

/-- A round of the loop over the sleep list. -/
theorem Inv.wakeSleeper (hi : Inv s on) (hc : on c = none) (ht : t ∈ s.sleepList c)
    (h : wakeSleeper c s t = .ok s') :
    Inv s' on ∧ Quiet s s' ∧ ∀ x ∈ s.sleepList c, x ≠ t → x ∈ s'.sleepList c := by
  unfold Sched.wakeSleeper at h
  split at h
  · obtain ⟨hi1, hl1⟩ := hi.unsleep ht hc
    obtain ⟨hi2, hk2⟩ := hi1.makeReady hl1 (by rw [(hi.asleep ht).1]; nofun) h
    obtain ⟨oldest, rfl⟩ := enqueue_ok h
    refine ⟨hi2, ⟨{ hk2 with }, hk2.currentTask⟩, fun x hx hne => ?_⟩
    exact (hi.sleepers.mem_erase_iff ht).mpr ⟨hne, hx⟩
  · cases h
    exact ⟨hi, .refl _, fun x hx _ => hx⟩

/-- The sleepers of a CPU that has put its task down are woken. -/
theorem Inv.wakeSleepers (hi : Inv s on) (hc : on c = none)
    (h : wakeSleepers s c = .ok s') : Inv s' on ∧ Quiet s s' := by
  -- the items not yet visited are still in the sleep list
  have hloop : ∀ (l : List ℕ) (x : State), l.Nodup → (∀ t ∈ l, t ∈ x.sleepList c) →
      Inv x on → l.foldlM (Sched.wakeSleeper c) x = .ok s' → Inv s' on ∧ Quiet x s' := by
    intro l
    induction l with
    | nil =>
      intro x _ _ hx h
      cases h
      exact ⟨hx, .refl _⟩
    | cons t l ih =>
      intro x hnd hmem hx h
      rw [List.foldlM_cons] at h
      obtain ⟨y, hy, h⟩ := ok_bind h
      obtain ⟨htl, hnd⟩ := List.nodup_cons.mp hnd
      obtain ⟨hx', hk', hrest⟩ := hx.wakeSleeper hc (hmem t List.mem_cons_self) hy
      have hmem' : ∀ z ∈ l, z ∈ y.sleepList c := fun z hz =>
        hrest z (hmem z (List.mem_cons_of_mem _ hz)) fun he => htl (he ▸ hz)
      exact (ih y hnd hmem' hx' h).imp id hk'.trans
  exact hloop _ s (hi.sleepers.nodup c) (fun _ h => h) hi h

theorem Switched.of_quiet (hq : Quiet s s₁) (h : Switched s₁ s' on c) : Switched s s' on c := by
  obtain ⟨htree, t, hcur, hi⟩ := h
  exact ⟨hq.toSameTree.trans htree, t, hq.currentTask ▸ hcur, hi⟩

/-- A loose task goes to a queue and the next one is picked. -/
theorem Inv.requeue (hi : Inv s on) (hl : Loose s on t) (hready : (s.task t).state = .ready)
    (hc : c < s.cores)
    (h : (do
      let s ← Sched.enqueue s c t
      Sched.pickNext s c acquired) = .ok s') : Switched s s' on c := by
  obtain ⟨s₁, h1, h⟩ := ok_bind h
  have hq1 := quiet_enqueue h1
  exact .of_quiet hq1 ((hi.enqueue hl hready h1).pickNext (hq1.cores.symm ▸ hc) h)

/-- A tick leaves a running task running or makes it ready. -/
theorem chargeQuantum_state {k : Task} (h : k.state = .running) :
    (chargeQuantum k).state = .running ∨ (chargeQuantum k).state = .ready := by
  unfold chargeQuantum
  simp only
  split
  · exact .inr rfl
  · exact .inl h

theorem chargeQuantum_frame (k : Task) : (chargeQuantum k).id = k.id ∧
    (chargeQuantum k).parent = k.parent ∧ (chargeQuantum k).children = k.children := by
  unfold chargeQuantum
  simp only
  split <;> exact ⟨rfl, rfl, rfl⟩

/-- The task that CPU `c` has put down is dealt with, and the next one picked. -/
theorem Inv.preempt {timer : Bool} (hi : Inv s on) (hc : c < s.cores)
    (hl : (s.task (s.currentTask c)).state = .running → s.currentTask c ≠ s.idleTask c →
      Loose s on (s.currentTask c)) (h : preempt s c timer acquired = .ok s') :
    Switched s s' on c := by
  unfold Sched.preempt at h
  simp only at h
  split at h
  case isFalse => exact hi.pickNext hc h
  case isTrue hrun =>
    have hl := hl hrun.2 hrun.1
    cases timer with
    | false =>
      obtain ⟨hi1, hl1⟩ := hi.setState hl .ready
      exact .of_quiet (quiet_setState .ready (by rw [hrun.2]; nofun) nofun)
        (hi1.requeue hl1 (by simp [State.setState]) hc h)
    | true =>
      have hstate := chargeQuantum_state hrun.2
      obtain ⟨hid, hparent, hchildren⟩ := chargeQuantum_frame (s.task (s.currentTask c))
      have hz : (chargeQuantum (s.task (s.currentTask c))).state ≠ .zombie := fun hz => by
        rw [hz] at hstate
        exact absurd hstate (by decide)
      have hq1 : Quiet s (s.setTask (s.currentTask c) chargeQuantum) :=
        quiet_setTask hid hparent hchildren (iff_of_false hz (by rw [hrun.2]; nofun))
      obtain ⟨hi1, hl1⟩ := hi.setLoose hl chargeQuantum
      simp only [if_true] at h
      split at h
      case isTrue hready => exact .of_quiet hq1 (hi1.requeue hl1 hready hc h)
      case isFalse hnot =>
        split at h
        case isTrue =>
          obtain ⟨hi2, hl2⟩ := hi1.setState hl1 .ready
          have hz1 : ((s.setTask (s.currentTask c) chargeQuantum).task (s.currentTask c)).state ≠
              .zombie := by
            simp only [setTask_task_self]
            exact hz
          have hq2 := hq1.trans (quiet_setState .ready hz1 nofun)
          exact .of_quiet hq2 (hi2.requeue hl2 (by simp [State.setState]) hc h)
        case isFalse =>
          -- the task goes on
          cases h
          exact ⟨hq1.toSameTree, s.currentTask c, (update_eq_self _ _).symm,
            hi1.enterLoose hl1 hnot⟩

/-- **`schedule`** on CPU `c`. -/
theorem Inv.schedule {timer : Bool} (hi : Inv s on) (hc : c < s.cores)
    (hon : on c = some (s.currentTask c)) (h : schedule s c timer acquired = .ok s') :
    Switched s s' on c := by
  have hi0 := hi.leave c
  have hback : Switched s s' (update on c none) c → Switched s s' on c := by
    rintro ⟨htree, t, hcur, hi'⟩
    rw [update_idem] at hi'
    exact ⟨htree, t, hcur, hi'⟩
  have hmem := (hi.on_state hon).2
  have hloose : ∀ {s₁ : State}, Quiet s s₁ → Inv s₁ (update on c none) →
      (s₁.task (s₁.currentTask c)).state = .running → s₁.currentTask c ≠ s₁.idleTask c →
      Loose s₁ (update on c none) (s₁.currentTask c) := by
    intro s₁ hk hi1 hrun hidle
    rw [hk.currentTask] at hrun hidle ⊢
    rw [hk.idleTask] at hidle
    refine hi1.loose (hk.allTasks ▸ hmem) (by rw [hrun]; nofun) (by rw [hrun]; nofun)
      (fun {c'} hc' => ?_) (hi.off hon)
    rw [hk.cores] at hc'
    rw [hk.idleTask]
    exact hi.not_idle hon hidle hc'
  unfold Sched.schedule at h
  refine hback ?_
  cases timer with
  | false => exact hi0.preempt hc (hloose (.refl s) hi0) h
  | true =>
    simp only [if_true] at h
    obtain ⟨s₁, h1, h⟩ := ok_bind h
    obtain ⟨hi1, hk1⟩ := hi0.wakeSleepers (update_self _ _ _) h1
    exact .of_quiet hk1 (hi1.preempt (hk1.cores.symm ▸ hc) (hloose hk1 hi1) h)

/-! ### Blocking and waking -/

/-- The CPU takes up again the task it has put down. -/
theorem Inv.resume (hi : Inv s (update on c none))
    (hl : Loose s (update on c none) t) (hon : on c = some t)
    (hstate : (s.task t).state ≠ .ready) : Inv s on := by
  have h := hi.enterLoose (c := c) hl hstate
  rwa [update_idem, ← hon, update_eq_self] at h

theorem Inv.blockCurrent {state : TaskState} {r : Bool} (hi : Inv s on)
    (hon : on c = some (s.currentTask c)) (hrun : (s.task (s.currentTask c)).state = .running)
    (h : blockCurrent s c state = (r, s')) : Inv s' on ∧ Quiet s s' := by
  unfold Sched.blockCurrent at h
  split at h
  · cases h
    exact ⟨hi, .refl _⟩
  case isFalse hstate =>
    split_ifs at h with hidle
    · cases h
      exact ⟨hi, .refl _⟩
    cases h
    push Not at hstate
    obtain ⟨hi1, hl1⟩ := (hi.leave c).setState (hi.loose_current hon hidle hrun) state
    exact ⟨hi1.resume hl1 hon (by simpa [State.setState] using hstate.1),
      quiet_setState state (by rw [hrun]; nofun) hstate.2.2⟩

theorem Inv.wakeOnBestCpu (hi : Inv s on) (hl : Loose s on t) (hz : (s.task t).state ≠ .zombie)
    (h : enqueueReadyOnBestCpu (s.setState t .ready) c t locks = .ok s') :
    Inv s' on ∧ Quiet s s' := by
  obtain ⟨c', h⟩ := enqueueReadyOnBestCpu_cases h
  exact hi.makeReady hl hz h

/-- **`wake`**, **`unfreeze`** and **`wake_blocked_or_waiting`** of a task that is on no CPU. -/
theorem Inv.wakeWhen {wakes : TaskState → Bool} {r : Bool} (hi : Inv s on)
    (hwakes : ∀ state, wakes state = true → state = .waiting ∨ state = .blocked ∨ state = .frozen)
    (ht : t ∈ s.allTasks) (hoff : wakes (s.task t).state = true → ∀ c, on c ≠ some t)
    (h : wakeWhen wakes s c t locks = .ok (r, s')) : Inv s' on ∧ Quiet s s' := by
  unfold Sched.wakeWhen at h
  split_ifs at h with hw
  · obtain ⟨s₁, h1, h⟩ := ok_bind h
    cases h
    have hl : Loose s on t := by
      have hcases := hwakes _ hw
      refine hi.loose_of_blocked ht ?_ ?_ ?_ (hoff hw) <;>
        (intro he; rw [he] at hcases; exact absurd hcases (by decide))
    have hz : (s.task t).state ≠ .zombie := fun he => by
      have hcases := hwakes _ hw
      rw [he] at hcases
      exact absurd hcases (by decide)
    exact hi.wakeOnBestCpu hl hz h1
  · cases h
    exact ⟨hi, .refl _⟩

theorem quiet_sleep (hrun : (s.task (s.currentTask c)).state = .running) :
    Quiet s (sleep s c ticks) := by
  have hq := quiet_setTask (s := s) (t := s.currentTask c) (f := fun k =>
    { k with state := .sleeping, wakeupTime := (s.ticks c + ticks) % 2 ^ 64 }) rfl rfl rfl
    (iff_of_false nofun (by rw [hrun]; nofun))
  exact ⟨⟨rfl, rfl, rfl, rfl, hq.kin, hq.zombie⟩, rfl⟩

theorem Inv.sleep (hi : Inv s on) (hon : on c = some (s.currentTask c))
    (hidle : s.currentTask c ≠ s.idleTask c)
    (hrun : (s.task (s.currentTask c)).state = .running) :
    Inv (sleep s c ticks) on := by
  have hl := hi.loose_current hon hidle hrun
  obtain ⟨hi1, hl1⟩ := (hi.leave c).setLoose hl fun k =>
    { k with state := .sleeping, wakeupTime := (s.ticks c + ticks) % 2 ^ 64 }
  have hperm : (s.currentTask c :: s.sleepList c).Perm (s.currentTask c :: s.sleepList c) := .refl _
  have hstate : ((Sched.sleep s c ticks).task (s.currentTask c)).state = .sleeping := by
    simp [Sched.sleep, State.setTask]
  have hmem : ∀ {w x}, x ∈ (Sched.sleep s c ticks).sleepList w →
      (x = s.currentTask c ∧ w = c) ∨ x ∈ s.sleepList w := (mem_insert_iff hperm).mp
  have hi2 : Inv (Sched.sleep s c ticks) (update on c none) := by
    refine { hi1 with
        sleepers := hi1.sleepers.insert hperm hl1.not_asleep
        asleep := fun {w x} hx => ?_
        asleep_on := fun {w c' x} hx h => ?_ }
    · rcases hmem hx with ⟨rfl, -⟩ | hx
      · exact ⟨hstate, hl.mem⟩
      · exact hi1.asleep hx
    · rcases hmem hx with ⟨rfl, -⟩ | hx
      · exact absurd h (hl.not_on c')
      · exact hi1.asleep_on hx h
  have h := hi2.enter (c := c) hl.mem (by rw [hstate]; nofun) (fun c' hx => ?_)
    (fun c' h => absurd h (hl.not_on c')) fun hc he => absurd he (hl.not_idle hc)
  · rwa [update_idem, ← hon, update_eq_self] at h
  · rcases hmem hx with ⟨-, rfl⟩ | hx
    · rfl
    · exact absurd hx (hl.not_asleep c')

end Ops

end RHKernel.Sched
