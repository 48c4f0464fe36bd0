import RHKernel.Smp.Scheduler.Ops
import RHKernel.Smp.Scheduler.Represents

/-!
# The functions over pointers do what the functions over lists do

One lemma for each function of the scheduler: run over pointers that hold the lists, it returns
what the function over lists returns, with pointers that hold the new lists. The fuel of a loop is
enough if there is more of it than there are tasks waiting on the CPU.
-/

namespace RHKernel.Sched

open DList Function List Queues Refine Step

section Ops

variable {s₀ s s' : State} {P : Cpus} {c t p n v i item m : ℕ} {e : Prop} {acquired : ℕ → Bool}

theorem load_unlinkQueued (ho : Ordered s) (ht : t ∈ s.taskQueues (c, p)) (c' : ℕ) :
    (unlinkQueued s c t p).load c' + (if c' = c then 1 else 0) = s.load c' := by
  have hupdate := queued_update s.taskQueues c (ho.queued ht).1 ((s.taskQueues (c, p)).erase t) c'
  have hlen := length_pos_of_mem ht
  rw [length_erase_of_mem ht] at hupdate
  have hload : (unlinkQueued s c t p).load c' = queued (update s.taskQueues (c, p)
      ((s.taskQueues (c, p)).erase t)) c' + (s.sleepList c').length := rfl
  rw [hload, State.load]
  split_ifs at hupdate ⊢ <;> omega

theorem load_enqueue (h : enqueue s c t = .ok s') (c' : ℕ) :
    s'.load c' = s.load c' + if c' = c then 1 else 0 := by
  have hp : (s.task t).priority < maxQueues := by
    by_contra hp
    simp only [enqueue, if_pos (not_lt.mp hp)] at h
    cases h
  obtain ⟨oldest, rfl⟩ := enqueue_ok h
  have hupdate := queued_update s.taskQueues c hp (s.taskQueues (c, (s.task t).priority) ++ [t]) c'
  rw [length_append, length_singleton] at hupdate
  have hload : ∀ x : State, x.load c' = queued x.taskQueues c' + (x.sleepList c').length :=
    fun _ => rfl
  simp only [hload, State.setTask]
  split_ifs at hupdate ⊢ <;> omega

theorem kept_enqueue (h : enqueue s c t = .ok s') : Kept s s' := by
  obtain ⟨oldest, rfl⟩ := enqueue_ok h
  exact ⟨rfl, rfl, rfl, rfl⟩

/-- What holds between the parts of a critical section on CPU `c`. -/
structure During (s₀ : State) (c n : ℕ) (P : Cpus) (s : State) : Prop where
  rep : Rep P s
  kept : Kept s₀ s
  load : s.load c ≤ n

theorem During.setTask (h : During s₀ c n P s) (hu : Unlisted s t) (f : Task → Task) :
    During s₀ c n (P.setTask t f) (s.setTask t f) :=
  ⟨h.rep.setTask hu f, h.kept.trans ⟨rfl, rfl, rfl, rfl⟩, h.load⟩

theorem During.enqueue (h : During s₀ c n P s) (hu : Unlisted s t)
    (hready : (s.task t).state = .ready) :
    Follows (During s₀ c (n + 1)) e (P.enqueue c t) (Sched.enqueue s c t) := by
  refine ((h.rep.enqueue hu hready).and_ok
    (Q := fun s' => Kept s s' ∧ s'.load c ≤ n + 1) fun hs => ⟨kept_enqueue hs, ?_⟩).mono
    fun hrep => ⟨hrep.1, h.kept.trans hrep.2.1, hrep.2.2⟩
  rw [load_enqueue hs, if_pos rfl]
  exact Nat.add_le_add_right h.load 1

/-! ### Picking the next task -/

/-- The task of a queue is taken out, and the rest of the section runs with one task less. -/
theorem During.unlinkQueued (h : During s₀ c n P s) (ht : t ∈ s.taskQueues (v, p)) :
    ∃ P', P.unlinkQueued v t p = .ok P' ∧ During s₀ c n P' (Sched.unlinkQueued s v t p) ∧
      (v = c → (Sched.unlinkQueued s v t p).load c + 1 ≤ n) := by
  obtain ⟨P', hP', hrep⟩ := h.rep.unlinkQueued ht
  have hload := load_unlinkQueued h.rep.ordered ht c
  have hle := h.load
  refine ⟨P', hP', ⟨hrep, h.kept.trans ⟨rfl, rfl, rfl, rfl⟩, ?_⟩, fun hv => ?_⟩
  · split_ifs at hload <;> omega
  · rw [if_pos hv.symm] at hload
    omega

theorem promoteQueue_nil (hq : s.taskQueues (c, i) = []) (m : ℕ) :
    promoteQueue s c i m = .ok s := by
  cases m with
  | zero => rfl
  | succ m => simp only [promoteQueue, hq]

theorem ne_above (hi : 0 < i) : (c, i) ≠ (c, i - 1) := fun he => by
  have := (Prod.mk.inj he).2
  omega

/-- One round of the loop over queue `i`: its first task goes to the end of the queue before. -/
theorem promote_first {rest : List ℕ} (ho : Ordered s) (hi : 0 < i)
    (hq : s.taskQueues (c, i) = item :: rest) :
    ∃ s' k, enqueue ((unlinkQueued s c item i).setTask item fun k =>
        { k with priority := i - 1, quantum := timeQuantums.getD (i - 1) 0 }) c item = .ok s' ∧
      Ordered s' ∧ s'.ticks = s.ticks ∧ s'.task = update s.task item k ∧
      k.enqueueTick = s.ticks c ∧ s'.taskQueues = update (update s.taskQueues (c, i) rest)
        (c, i - 1) (s.taskQueues (c, i - 1) ++ [item]) := by
  have hmem : item ∈ s.taskQueues (c, i) := hq ▸ mem_cons_self
  obtain ⟨hmax, hready, -⟩ := ho.queued hmem
  obtain ⟨ho1, hu1⟩ := ho.unlinkQueued hmem
  obtain ⟨ho2, hu2⟩ := ho1.setTask hu1 fun k =>
    { k with priority := i - 1, quantum := timeQuantums.getD (i - 1) 0 }
  have henq := enqueue_eq (c := c) (by
    rw [setTask_task_self]
    exact lt_of_le_of_lt (Nat.sub_le i 1) hmax) hu2.linked
  refine ⟨_, _, henq, ho2.enqueue hu2 (by rw [setTask_task_self]; exact hready) henq, rfl,
    update_idem .., rfl, ?_⟩
  simp only [setTask_task_self]
  simp only [State.setTask, unlinkQueued, hq, erase_cons_head, update_of_ne (ne_above hi).symm]

theorem During.promoteQueue (h : During s₀ c n P s) (hi : 0 < i)
    (hm : (s.taskQueues (c, i)).length ≤ m) (fuel : ℕ) :
    Follows (During s₀ c n) ((s.taskQueues (c, i)).length < fuel) (P.promoteQueue c i fuel)
      (promoteQueue s c i m) := by
  induction fuel generalizing P s m with
  | zero => exact .fuel (Nat.not_lt_zero _) _
  | succ fuel ih =>
    have hhead := h.rep.lists.head_eq (c, i)
    rw [Cpus.promoteQueue]
    cases hq : s.taskQueues (c, i) with
    | nil =>
      rw [hq] at hhead
      rw [hhead, promoteQueue_nil hq]
      exact .ok h
    | cons item rest =>
      rw [hq] at hhead hm
      obtain ⟨m, rfl⟩ := Nat.exists_eq_add_of_le' (lt_of_lt_of_le (Nat.succ_pos _) hm)
      have hmem : item ∈ s.taskQueues (c, i) := hq ▸ mem_cons_self
      simp only [hhead, head?_cons, Sched.promoteQueue, hq, h.rep.ticks, h.rep.oldestTick]
      split
      · exact .ok h
      obtain ⟨P1, hP1, h1, hload1⟩ := h.unlinkQueued hmem
      obtain ⟨-, hu1⟩ := h.rep.ordered.unlinkQueued hmem
      rw [hP1, bind_of_ok]
      have h1' : During s₀ c (n - 1) P1 (Sched.unlinkQueued s c item i) :=
        ⟨h1.rep, h1.kept, Nat.le_sub_one_of_lt (hload1 rfl)⟩
      obtain ⟨-, hu2⟩ := h1.rep.ordered.setTask hu1 fun k =>
        { k with priority := i - 1, quantum := timeQuantums.getD (i - 1) 0 }
      have h2 := (h1'.setTask hu1 fun k =>
        { k with priority := i - 1, quantum := timeQuantums.getD (i - 1) 0 }).enqueue
          (e := (item :: rest).length < fuel + 1) hu2 (by
            rw [setTask_task_self]
            exact (h.rep.ordered.queued hmem).2.1)
      obtain ⟨s3, -, hs3, -, -, -, -, hqs⟩ := promote_first h.rep.ordered hi hq
      rw [Nat.sub_add_cancel (lt_of_le_of_lt (Nat.zero_le _) (hload1 rfl))] at h2
      -- the queue has lost its first task and got none
      refine (h2.and_ok (Q := fun x => x.taskQueues (c, i) = rest) fun hs => ?_).bind fun h3 => ?_
      · rw [← Except.ok.inj (hs3.symm.trans hs), hqs, update_of_ne (ne_above hi), update_self]
      · exact (ih h3.1 (h3.2 ▸ Nat.le_of_succ_le_succ hm)).weaken fun henough =>
          h3.2 ▸ Nat.lt_of_succ_lt_succ henough

theorem During.promoteExpiredTasks (h : During s₀ c n P s) (fuel : ℕ) :
    Follows (During s₀ c n) (n < fuel) (P.promoteExpiredTasks c fuel)
      (promoteExpiredTasks s c) := by
  refine Refines.foldlM (fun {P s i} hi h => ?_) h
  have hi' : 0 < i ∧ i < maxQueues := by
    unfold maxQueues
    simp only [mem_cons, not_mem_nil, or_false] at hi
    omega
  refine (h.promoteQueue hi'.1 le_rfl fuel).weaken fun hn => ?_
  have hle := length_le_queued s.taskQueues c hi'.2
  have hload := h.load
  unfold State.load at hload
  omega

/-- A task that has just been taken out of a queue. -/
def Taken (s : State) (t : ℕ) : Prop := Unlisted s t ∧ (s.task t).state = .ready

/-- What stealing leaves: the same task on both sides, and it is in no list any more. -/
structure Stolen (s₀ : State) (c n : ℕ) (a : Option ℕ × Cpus) (b : Option ℕ × State) : Prop where
  task : a.1 = b.1
  during : During s₀ c n a.2 b.2
  taken : ∀ {t}, b.1 = some t → Taken b.2 t

theorem During.stolen_none (h : During s₀ c n P s) : Stolen s₀ c n (none, P) (none, s) :=
  ⟨rfl, h, nofun⟩

theorem Taken.setTask (ht : Taken s t) (ho : Ordered s) (f : Task → Task)
    (hf : (f (s.task t)).state = (s.task t).state) : Taken (s.setTask t f) t :=
  ⟨(ho.setTask ht.1 f).2, by rw [setTask_task_self, hf]; exact ht.2⟩

theorem Rep.tail_ne_none (h : Rep P s) (v : ℕ) :
    (fun p => decide (P.taskQueuesTail (v, p) ≠ none)) =
      fun p => decide (s.taskQueues (v, p) ≠ []) := by
  funext p
  rw [h.tail]
  exact decide_eq_decide.mpr (not_congr getLast?_eq_none_iff)

theorem Rep.head_ne_none (h : Rep P s) (v : ℕ) :
    (fun p => decide (P.taskQueuesHead (v, p) ≠ none)) =
      fun p => decide (s.taskQueues (v, p) ≠ []) := by
  funext p
  exact decide_eq_decide.mpr (not_congr h.lists.head_eq_none_iff)

theorem Rep.runnableCount (h : Rep P s) : P.runnableCount = s.runnableCount := funext h.runnable

theorem During.stealOneFromLockedVictim (h : During s₀ c n P s) (self victim : ℕ) :
    Follows (Stolen s₀ c n) e (P.stealOneFromLockedVictim self victim)
      (.ok (stealOneFromLockedVictim s self victim)) := by
  simp only [Cpus.stealOneFromLockedVictim, Sched.stealOneFromLockedVictim, h.rep.runnableCount,
    h.rep.tail_ne_none]
  split
  · exact .ok h.stolen_none
  rcases [3, 2, 1, 0].find? fun p => decide (s.taskQueues (victim, p) ≠ []) with _ | q
  · exact .ok h.stolen_none
  simp only [h.rep.tail]
  rcases hlast : (s.taskQueues (victim, q)).getLast? with _ | t
  · exact .ok h.stolen_none
  have hmem := mem_of_getLast? hlast
  obtain ⟨P1, hP1, h1, -⟩ := h.unlinkQueued hmem
  obtain ⟨ho1, hu1⟩ := h.rep.ordered.unlinkQueued hmem
  have ht1 : Taken (Sched.unlinkQueued s victim t q) t := ⟨hu1, (h.rep.ordered.queued hmem).2.1⟩
  simp only [hP1, bind_of_ok]
  refine .ok ⟨rfl, h1.setTask hu1 fun k => { k with lastCpuIndex := self }, fun he => ?_⟩
  cases he
  exact ht1.setTask ho1 (fun k => { k with lastCpuIndex := self }) rfl

theorem Rep.stealVictim (h : Rep P s) (self : ℕ) (acquired : ℕ → Bool) :
    P.stealVictim self acquired = (List.range s.cores).foldl (fun (best : Option ℕ × ℕ) n =>
      let victim := (self + 1 + n) % s.cores
      if victim = self ∨ acquired victim = false then best
      else if best.2 < s.runnableCount victim then (some victim, s.runnableCount victim) else best)
      (none, 0) := by
  simp only [Cpus.stealVictim, h.cores, h.runnableCount]

theorem During.stealTask (h : During s₀ c n P s) (acquired : ℕ → Bool) :
    Follows (Stolen s₀ c n) e (P.stealTask c acquired) (.ok (stealTask s c acquired)) := by
  simp only [Cpus.stealTask, Sched.stealTask, ← h.rep.stealVictim c acquired, h.rep.cores]
  split
  · exact .ok h.stolen_none
  rcases (P.stealVictim c acquired).1 with _ | victim
  · exact .ok h.stolen_none
  simp only
  split
  · exact .ok h.stolen_none
  have hone := h.stealOneFromLockedVictim (e := e) c victim
  generalize Sched.stealOneFromLockedVictim s c victim = r at hone
  obtain ⟨r1, s1⟩ := r
  rcases hone.ok_right with ⟨⟨a1, P1⟩, ha, hst⟩ | ⟨ha, hnot⟩
  · obtain rfl : a1 = r1 := hst.task
    simp only [Cpus.stealFrom, ha, bind_of_ok]
    cases a1 with
    | none => exact .ok hst
    | some t =>
      have ht := hst.taken rfl
      simp only [h.rep.ticks]
      refine .ok ⟨rfl, hst.during.setTask ht.1 fun k => { k with enqueueTick := s.ticks c },
        fun he => ?_⟩
      cases he
      exact ht.setTask hst.during.rep.ordered (fun k => { k with enqueueTick := s.ticks c }) rfl
  · rw [Cpus.stealFrom, ha]
    exact .fuel hnot _

/-- What `dequeue` leaves: the next task is in no list any more, or it is the idle task. -/
structure Dequeued (s₀ : State) (c n : ℕ) (a : ℕ × Cpus) (b : ℕ × State) : Prop where
  task : a.1 = b.1
  during : During s₀ c n a.2 b.2
  next : Taken b.2 b.1 ∨ b.1 = b.2.idleTask c

theorem During.dequeue (h : During s₀ c n P s) (fuel : ℕ) :
    Follows (Dequeued s₀ c n) (n < fuel) (P.dequeue c acquired fuel) (dequeue s c acquired) := by
  refine (h.promoteExpiredTasks fuel).bind fun {P s} h => ?_
  simp only [Cpus.takeNext, h.rep.head_ne_none]
  cases (List.range maxQueues).find? fun p => decide (s.taskQueues (c, p) ≠ []) with
  | some q =>
    have hhead := h.rep.lists.head_eq (c, q)
    cases hq : s.taskQueues (c, q) with
    | nil =>
      simp only [hhead, head?_nil, h.rep.idleTask, hq]
      exact .ok ⟨rfl, h, .inr rfl⟩
    | cons t rest =>
      have hmem : t ∈ s.taskQueues (c, q) := hq ▸ mem_cons_self
      obtain ⟨P1, hP1, h1, -⟩ := h.unlinkQueued hmem
      simp only [hhead, head?_cons, hP1, bind_of_ok, hq]
      exact .ok ⟨rfl, h1, .inl ⟨(h.rep.ordered.unlinkQueued hmem).2,
        (h.rep.ordered.queued hmem).2.1⟩⟩
  | none =>
    have hsteal := h.stealTask (e := n < fuel) acquired
    generalize Sched.stealTask s c acquired = r at hsteal
    obtain ⟨r1, s1⟩ := r
    rcases hsteal.ok_right with ⟨⟨a1, P1⟩, ha, hst⟩ | ⟨ha, hnot⟩
    · obtain rfl : a1 = r1 := hst.task
      simp only [ha, bind_of_ok]
      cases a1 with
      | none =>
        exact .ok ⟨congrFun hst.during.rep.idleTask c, hst.during, .inr rfl⟩
      | some t => exact .ok ⟨rfl, hst.during, .inl (hst.taken rfl)⟩
    · simp only [ha]
      exact .fuel hnot _

theorem Rep.switch (h : Rep P s) (hidle : ∀ {c'}, c' < s.cores → t = s.idleTask c' → c = c') :
    Rep { P with currentTask := update P.currentTask c t }
      { s with currentTask := update s.currentTask c t } := by
  obtain ⟨h1, h2, h3, h4, h5, h6, h7, h8, h9, h10, h11, h12, h13, ho⟩ := h
  refine ⟨h1, h2, by simp only [h3], h4, h5, h6, h7, h8, h9, h10, h11, h12, h13,
    { ho with idle_on := fun {c1 c2} hc1 hc2 he => ?_ }⟩
  rcases update_eq_cases he with ⟨rfl, he⟩ | ⟨-, he⟩
  · exact hidle hc1 he
  · exact ho.idle_on hc1 hc2 he

theorem During.pickNext (h : During s₀ c n P s) (hc : c < s₀.cores) (fuel : ℕ) :
    Follows Rep (n < fuel) (P.pickNext c acquired fuel) (pickNext s c acquired) := by
  refine (h.dequeue fuel).bind fun {a b} hd => ?_
  obtain ⟨a1, P1⟩ := a
  obtain ⟨t, s1⟩ := b
  obtain ⟨rfl, h1, hnext⟩ := hd
  have hc1 : c < s1.cores := h1.kept.cores.symm ▸ hc
  have hrep : Rep (P1.setState a1 .running) (s1.setState a1 .running) := by
    rcases hnext with ht | he
    · exact h1.rep.setTask ht.1 _
    have hrun := h1.rep.ordered.idle hc1
    rw [← show a1 = s1.idleTask c from he] at hrun
    rw [setState_eq_self hrun]
    have hP : P1.setState a1 .running = P1 := by
      rw [← h1.rep.task] at hrun
      have : (fun k : Task => { k with state := TaskState.running }) (P1.task a1) =
          P1.task a1 := by rw [← hrun]
      simp only [Cpus.setState, Cpus.setTask, this, update_eq_self]
    rw [hP]
    exact h1.rep
  refine .ok (hrep.switch fun {c'} hc' he => ?_)
  rcases hnext with ht | he'
  · exact absurd he (ht.1.not_idle hc')
  · exact h1.rep.ordered.idle_inj hc1 hc' (he'.symm.trans he)

/-! ### `schedule` -/

/-- An unlisted task is made ready and put into a queue. -/
theorem During.makeReady (h : During s₀ c n P s) (hu : Unlisted s t) :
    Follows (During s₀ c (n + 1)) e ((P.setState t .ready).enqueue c t)
      (Sched.enqueue (s.setState t .ready) c t) :=
  (h.setTask hu _).enqueue (h.rep.ordered.setTask hu _).2 (by rw [setTask_task_self])

theorem load_unsleep {pre rest : List ℕ} (hl : s.sleepList c = pre ++ t :: rest) :
    State.load { s with sleepList := update s.sleepList c (pre ++ rest) } c + 1 = s.load c := by
  simp only [State.load, update_self, hl, length_append, length_cons]
  omega

/-- The loop over the sleep list: `pre` has been visited and sleeps on, `rest` is to come. -/
theorem During.wakeSleepers (h : During s₀ c n P s) (pre rest : List ℕ)
    (hl : s.sleepList c = pre ++ rest) (fuel : ℕ) :
    Follows (During s₀ c n) (rest.length < fuel)
      (P.wakeSleepers c pre.getLast? rest.head? fuel) (rest.foldlM (wakeSleeper c) s) := by
  induction fuel generalizing P s pre rest with
  | zero => exact .fuel (Nat.not_lt_zero _) _
  | succ fuel ih =>
    cases rest with
    | nil => exact .ok h
    | cons t rest =>
      have hchain := h.rep.chain c
      rw [hl] at hchain
      have hnext : P.links.next t = rest.head? := hchain.next_eq
      have hlt : (t :: rest).length < fuel + 1 → rest.length < fuel := Nat.lt_of_succ_lt_succ
      simp only [head?_cons, Cpus.wakeSleepers, foldlM_cons, wakeSleeper, h.rep.task,
        h.rep.ticks, hnext]
      split
      · have ht : t ∈ s.sleepList c := by simp [hl]
        have hload := load_unsleep hl
        have hu := (h.rep.ordered.unsleep ht).2
        rw [h.rep.erase_sleeper hl] at hu ⊢
        have h1 : During s₀ c (n - 1) (P.unsleep c pre.getLast? t)
            { s with sleepList := update s.sleepList c (pre ++ rest) } :=
          ⟨h.rep.unsleep hl, ⟨h.kept.cores, h.kept.currentTask, h.kept.idleTask, h.kept.allTasks⟩,
            Nat.le_sub_one_of_lt (Nat.lt_of_succ_le (hload.le.trans h.load))⟩
        have hn : n - 1 + 1 = n := by
          have := h.load
          omega
        have h2 := h1.makeReady (e := (t :: rest).length < fuel + 1) hu
        rw [hn] at h2
        refine (h2.and_ok (Q := fun s' => s'.sleepList c = pre ++ rest) fun hs => ?_).bind
          fun h3 => (ih h3.1 _ _ h3.2).weaken hlt
        obtain ⟨oldest, rfl⟩ := enqueue_ok hs
        exact update_self _ _ _
      · have hpre : s.sleepList c = pre ++ [t] ++ rest := by rw [hl, append_assoc]; rfl
        have hlast : (pre ++ [t]).getLast? = some t := by simp
        have hih := ih h _ _ hpre
        rw [hlast] at hih
        exact hih.weaken hlt

theorem During.requeue (h : During s₀ c n P s) (hc : c < s₀.cores) (hu : Unlisted s t)
    (hready : (s.task t).state = .ready) (fuel : ℕ) :
    Follows Rep (n + 1 < fuel) (do
        let P ← P.enqueue c t
        P.pickNext c acquired fuel)
      (do
        let s ← Sched.enqueue s c t
        Sched.pickNext s c acquired) :=
  (h.enqueue hu hready).bind fun h1 => h1.pickNext hc fuel

theorem During.preempt {timer : Bool} (h : During s₀ c n P s) (hc : c < s₀.cores) (fuel : ℕ) :
    Follows Rep (n + 1 < fuel) (P.preempt c timer acquired fuel) (preempt s c timer acquired) := by
  have hpick : ∀ {P s}, During s₀ c n P s →
      Follows Rep (n + 1 < fuel) (P.pickNext c acquired fuel) (Sched.pickNext s c acquired) :=
    fun h => (h.pickNext hc fuel).weaken Nat.lt_of_succ_lt
  simp only [Cpus.preempt, Sched.preempt, h.rep.currentTask, h.rep.idleTask, h.rep.task]
  split
  case isFalse => exact hpick h
  case isTrue hrun =>
    have hc' : c < s.cores := h.kept.cores.symm ▸ hc
    have hu : Unlisted s (s.currentTask c) := by
      refine h.rep.ordered.unlisted (by rw [hrun.2]; nofun) (by rw [hrun.2]; nofun) ?_
      intro c' hlt he
      obtain rfl := h.rep.ordered.idle_on hlt hc' he
      exact hrun.1 he
    cases timer with
    | false =>
      have hu' := (h.rep.ordered.setTask hu fun k => { k with state := .ready }).2
      exact (h.setTask hu _).requeue hc hu' (by rw [setTask_task_self]) fuel
    | true =>
      have h1 := h.setTask hu chargeQuantum
      have hu1 := (h.rep.ordered.setTask hu chargeQuantum).2
      have htask : ((P.setTask (s.currentTask c) chargeQuantum).task) =
          (s.setTask (s.currentTask c) chargeQuantum).task := h1.rep.task
      have hheads := h1.rep.head_ne_none c
      simp only [if_true, htask, hheads]
      split
      case isTrue hready => exact h1.requeue hc hu1 hready fuel
      case isFalse =>
        split
        case isTrue =>
          have hu2 := (h1.rep.ordered.setTask hu1 fun k => { k with state := .ready }).2
          exact (h1.setTask hu1 _).requeue hc hu2 (by rw [setTask_task_self]) fuel
        case isFalse => exact .ok h1.rep

/-- **`schedule`** over pointers does what `schedule` over lists does. -/
theorem Rep.schedule {timer : Bool} (h : Rep P s) (hc : c < s.cores) (fuel : ℕ) :
    Follows Rep (s.load c + 1 < fuel) (P.schedule c timer acquired fuel)
      (schedule s c timer acquired) := by
  have hd : During s c (s.load c) P s := ⟨h, .refl s, le_rfl⟩
  cases timer with
  | false => exact hd.preempt hc fuel
  | true =>
    have hwake := hd.wakeSleepers [] (s.sleepList c) rfl fuel
    rw [← (h.chain c).head_eq] at hwake
    refine (hwake.weaken fun hf => ?_).bind fun h1 => h1.preempt hc fuel
    unfold State.load at hf
    omega

/-! ### Blocking, waking and sleeping -/

theorem Rep.selectEnqueueCpu (h : Rep P s) (preferred : ℕ) (acquired : ℕ → Bool) :
    P.selectEnqueueCpu preferred acquired = selectEnqueueCpu s preferred acquired := by
  simp only [Cpus.selectEnqueueCpu, Sched.selectEnqueueCpu, h.cores, h.runnableCount]

theorem Rep.enqueueReadyOnBestCpu {locks : TryLocks} (h : Rep P s) (hu : Unlisted s t)
    (hready : (s.task t).state = .ready) :
    Follows Rep e (P.enqueueReadyOnBestCpu c t locks)
      (Sched.enqueueReadyOnBestCpu s c t locks) := by
  simp only [Cpus.enqueueReadyOnBestCpu, Sched.enqueueReadyOnBestCpu, h.selectEnqueueCpu]
  split
  · exact h.enqueue hu hready
  split
  · exact h.enqueue hu hready
  · exact h.enqueue hu hready

theorem Rep.sleep (h : Rep P s) (ticks : ℕ) (hu : Unlisted s (s.currentTask c)) :
    Rep (P.sleep c ticks) (sleep s c ticks) := by
  have hcur : P.currentTask c = s.currentTask c := congrFun h.currentTask c
  have hset := h.setTask hu fun k =>
    { k with state := .sleeping, wakeupTime := (s.ticks c + ticks) % 2 ^ 64 }
  have hperm : (s.currentTask c :: s.sleepList c).Perm (s.currentTask c :: s.sleepList c) := .refl _
  have hmem : ∀ {w x}, x ∈ (Sched.sleep s c ticks).sleepList w ↔
      (x = s.currentTask c ∧ w = c) ∨ x ∈ s.sleepList w := mem_insert_iff hperm
  have hstate : ((Sched.sleep s c ticks).task (s.currentTask c)).state = .sleeping := by
    simp [Sched.sleep, State.setTask]
  have hother : ∀ {x}, x ≠ s.currentTask c →
      (P.sleep c ticks).links.next x = P.links.next x ∧
        (P.sleep c ticks).links.prev x = P.links.prev x := by
    intro x hx
    simp only [Cpus.sleep, hcur, update_of_ne hx, and_self]
  have hqueued : ∀ {w x}, x ∈ s.taskQueues w → x ≠ s.currentTask c := fun {w x} hx he =>
    hu.not_queued w (he ▸ hx)
  have ho := hset.ordered
  refine { h with
      task := ?_
      lists := h.lists.congr (fun hx => (hother (hqueued hx)).1) fun hx => (hother (hqueued hx)).2
      chain := fun c' => ?_
      asleep_prev := fun {c' x} hx => ?_
      free := fun {x} hq hs => ?_
      ordered := ⟨ho.queues, ho.queued, ho.oldest, ho.sorted,
        h.ordered.sleepers.insert hperm hu.not_asleep,
        fun {c' x} hx => ?_, ho.idle, ho.idle_inj, ho.idle_on⟩ }
  · simp only [Cpus.sleep, Sched.sleep, Cpus.setTask, State.setTask, h.task, h.ticks, hcur]
  · by_cases hc : c' = c
    · subst hc
      simp only [Cpus.sleep, Sched.sleep, update_self, hcur]
      refine ⟨rfl, ?_⟩
      rw [update_self]
      refine (h.chain c').congr fun x hx => update_of_ne ?_ _ _
      rintro rfl
      exact hu.not_asleep c' hx
    · have hx : ∀ x ∈ s.sleepList c', x ≠ s.currentTask c := fun x hx he =>
        hu.not_asleep c' (he ▸ hx)
      simp only [Cpus.sleep, Sched.sleep, update_of_ne hc]
      exact (h.chain c').congr fun x hm => (hother (hx x hm)).1
  · rcases hmem.mp hx with ⟨rfl, -⟩ | hx
    · simp only [Cpus.sleep, hcur, update_self]
    · have hne : x ≠ s.currentTask c := fun he => hu.not_asleep c' (he ▸ hx)
      exact (hother hne).2.trans (h.asleep_prev hx)
  · have hne : x ≠ s.currentTask c := fun he => hs c (hmem.mpr (.inl ⟨he, rfl⟩))
    obtain ⟨h1, h2⟩ := h.free hq fun c' hx => hs c' (hmem.mpr (.inr hx))
    exact ⟨(hother hne).1.trans h1, (hother hne).2.trans h2⟩
  · rcases hmem.mp hx with ⟨rfl, -⟩ | hx
    · exact hstate
    · exact ho.asleep hx

end Ops

end RHKernel.Sched
