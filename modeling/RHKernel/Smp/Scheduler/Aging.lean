import RHKernel.Smp.Scheduler.QueueRuns

/-!
# Aging

`promote_expired_tasks` goes through the queues from the second to the last one and moves the tasks
that have waited too long to the end of the queue before. A queue is sorted by the ticks at which
its tasks came, so those are its first tasks, and the tick of the oldest one tells when to stop. A
task that is moved begins to wait anew, and it comes to a queue that has been dealt with.
-/

namespace RHKernel.Sched

open Function List Step

/-- The task has waited for more than `AGING_THRESHOLD`. -/
def State.expired (s : State) (c t : ℕ) : Bool :=
  agingThreshold < s.ticks c - (s.task t).enqueueTick

/-- What the loop over queue `i` does. -/
structure Promoted (c i : ℕ) (s s' : State) : Prop where
  ordered : Ordered s'
  ticks : s'.ticks = s.ticks
  stays : s'.taskQueues (c, i) = (s.taskQueues (c, i)).filter (!s.expired c ·)
  goes : s'.taskQueues (c, i - 1) =
    s.taskQueues (c, i - 1) ++ (s.taskQueues (c, i)).filter (s.expired c)
  other : ∀ {w}, w ≠ (c, i) → w ≠ (c, i - 1) → s'.taskQueues w = s.taskQueues w
  moved : ∀ {t}, t ∈ s.taskQueues (c, i) → s.expired c t = true →
    (s'.task t).enqueueTick = s.ticks c
  kept : ∀ {t}, (t ∈ s.taskQueues (c, i) → s.expired c t = false) → s'.task t = s.task t

section Loop

variable {s s' : State} {c i m p t : ℕ}

theorem expired_congr (hticks : s'.ticks = s.ticks) (htask : s'.task t = s.task t) :
    s'.expired c t = s.expired c t := by
  rw [State.expired, State.expired, hticks, htask]

theorem Ordered.promoted_self (ho : Ordered s)
    (h : ∀ t ∈ s.taskQueues (c, i), s.expired c t = false) : Promoted c i s s where
  ordered := ho
  ticks := rfl
  stays := (filter_eq_self.mpr fun t ht => by rw [h t ht]; rfl).symm
  goes := by rw [filter_eq_nil_iff.mpr fun t ht => by simp [h t ht], append_nil]
  other _ _ := rfl
  moved ht he := absurd ((h _ ht).symm.trans he) Bool.false_ne_true
  kept _ := rfl

/-- **The loop over one queue.** -/
theorem promoteQueue_spec (ho : Ordered s) (hi : 0 < i) (ht : s.ticks c < 2 ^ 64)
    (hm : (s.taskQueues (c, i)).length ≤ m) :
    ∃ s', promoteQueue s c i m = .ok s' ∧ Promoted c i s s' := by
  induction hq : s.taskQueues (c, i) generalizing s m with
  | nil =>
    exact ⟨s, promoteQueue_nil hq m, ho.promoted_self fun t h => absurd (hq ▸ h) not_mem_nil⟩
  | cons item rest ih =>
    have hmem : item ∈ s.taskQueues (c, i) := hq ▸ mem_cons_self
    have hwait : (s.ticks c + 2 ^ 64 - s.oldestTick (c, i)) % 2 ^ 64 =
        s.ticks c - (s.task item).enqueueTick := by
      have hle := (ho.queued hmem).2.2.2
      rw [ho.oldest (t := item) (by rw [hq]; rfl)]
      omega
    rw [hq] at hm
    obtain ⟨m, rfl⟩ := Nat.exists_eq_add_of_le' (Nat.lt_of_lt_of_le (Nat.succ_pos _) hm)
    by_cases hexp : s.expired c item = true
    · obtain ⟨s1, k, h1, ho1, hticks, htask, hk, hqs⟩ := promote_first ho hi hq
      have hq1 : s1.taskQueues (c, i) = rest := by rw [hqs, update_of_ne (ne_above hi), update_self]
      obtain ⟨s', hs', hp⟩ := ih ho1 (hticks ▸ ht) (hq1 ▸ Nat.le_of_succ_le_succ hm) hq1
      have hnd := nodup_cons.mp (hq ▸ ho.queues.nodup (c, i))
      have hold : ∀ {t}, t ≠ item → s1.task t = s.task t := fun h => by
        rw [htask, update_of_ne h]
      have hsame : ∀ t ∈ rest, s1.expired c t = s.expired c t := fun t h =>
        expired_congr hticks (hold fun he => hnd.1 (he ▸ h))
      refine ⟨s', ?_, hp.ordered, hp.ticks.trans hticks, ?_, ?_, fun h h' => ?_, fun {t} h he => ?_,
        fun {t} h => ?_⟩
      · simp only [promoteQueue, hq, hwait, if_neg (Nat.not_le.mpr (of_decide_eq_true hexp)), h1,
          bind_of_ok]
        exact hs'
      · rw [hp.stays, hq1, hq, filter_cons_of_neg (by simp [hexp])]
        exact filter_congr fun t h => by rw [hsame t h]
      · rw [hp.goes, hq1, hq, filter_cons_of_pos hexp, hqs, update_self, append_assoc,
          filter_congr hsame]
        rfl
      · rw [hp.other h h', hqs, update_of_ne h', update_of_ne h]
      · rcases mem_cons.mp (hq ▸ h) with rfl | h
        · rw [hp.kept fun h => absurd (hq1 ▸ h) hnd.1, htask, update_self, hk]
        · rw [hp.moved (hq1.symm ▸ h) ((hsame t h).trans he), hticks]
      have hne : t ≠ item := by
        rintro rfl
        exact absurd (hexp.symm.trans (h hmem)) Bool.false_ne_true.symm
      rw [hp.kept fun ht => ?_, hold hne]
      have hrest : t ∈ rest := hq1 ▸ ht
      exact (hsame t hrest).trans (h (hq ▸ mem_cons_of_mem _ hrest))
    · -- the queue is sorted, so the other tasks have not waited longer
      refine ⟨s, ?_, ho.promoted_self fun t h => ?_⟩
      · simp only [promoteQueue, hq, hwait]
        exact if_pos (Nat.not_lt.mp fun h => hexp (decide_eq_true h))
      have hsorted := ho.sorted (c, i)
      rw [hq] at h hsorted
      refine decide_eq_false fun hlt => hexp (decide_eq_true (hlt.trans_le ?_))
      rcases mem_cons.mp h with rfl | h
      · exact le_rfl
      · exact Nat.sub_le_sub_left ((pairwise_cons.mp hsorted).1 t h) _

/-! ### From queue to queue -/

variable (hp : Promoted c i s s')

include hp

theorem Promoted.fresh : ∀ t ∈ s'.taskQueues (c, i), s'.expired c t = false := fun t ht => by
  have hno := (mem_filter.mp (hp.stays ▸ ht)).2
  rw [Bool.not_eq_true'] at hno
  exact (expired_congr hp.ticks (hp.kept fun _ => hno)).trans hno

/-- The loop does not touch the tasks of the other queues. -/
theorem Promoted.expired_eq (ho : Ordered s) (hpi : p ≠ i)
    (ht : t ∈ s.taskQueues (c, p)) : s'.expired c t = s.expired c t :=
  expired_congr hp.ticks (hp.kept fun h =>
    absurd (Prod.mk.inj (ho.queues.disjoint ht h)).2 hpi)

theorem Promoted.above (ho : Ordered s) (hpi : i < p) :
    (s'.taskQueues (c, p)).filter (s'.expired c) = (s.taskQueues (c, p)).filter (s.expired c) ∧
      (s'.taskQueues (c, p)).filter (!s'.expired c ·) =
        (s.taskQueues (c, p)).filter (!s.expired c ·) := by
  have hq : s'.taskQueues (c, p) = s.taskQueues (c, p) := by
    refine hp.other (fun he => ?_) fun he => ?_ <;> have := (Prod.mk.inj he).2 <;> omega
  rw [hq]
  exact ⟨filter_congr fun t => hp.expired_eq ho hpi.ne', filter_congr fun t ht =>
    congrArg not (hp.expired_eq ho hpi.ne' ht)⟩

/-- A task that comes to a queue has just begun to wait. -/
theorem Promoted.fresh_below (ho : Ordered s) (hpi : p < i)
    (h : ∀ t ∈ s.taskQueues (c, p), s.expired c t = false) :
    ∀ t ∈ s'.taskQueues (c, p), s'.expired c t = false := by
  have hold : ∀ t ∈ s.taskQueues (c, p), s'.expired c t = false := fun t ht =>
    (hp.expired_eq ho hpi.ne ht).trans (h t ht)
  intro t ht
  by_cases hpe : p = i - 1
  · subst hpe
    rw [hp.goes] at ht
    rcases mem_append.mp ht with ht | ht
    · exact hold t ht
    · obtain ⟨hmem, hexp⟩ := mem_filter.mp ht
      rw [State.expired, hp.ticks, hp.moved hmem hexp, Nat.sub_self]
      rfl
  · rw [hp.other (fun he => hpi.ne (Prod.mk.inj he).2) fun he => hpe (Prod.mk.inj he).2] at ht
    exact hold t ht

end Loop

/-- **Aging is complete and keeps the order.** The tasks that have waited too long go to the end of
the queue before, in their order, and the others stay in theirs; afterwards no task outside the
first queue has waited too long. -/
theorem promoteExpiredTasks_exact {P : Cpus} {s : State} {c fuel : ℕ} (h : Rep P s)
    (ht : P.ticks c < 2 ^ 64) (hfuel : s.load c < fuel) :
    ∃ P' s', P.promoteExpiredTasks c fuel = .ok P' ∧ Rep P' s' ∧
      (∀ p ∈ [1, 2, 3], ∀ t ∈ s'.taskQueues (c, p), s'.expired c t = false) ∧
      (∀ p < maxQueues, s'.taskQueues (c, p) =
        (s.taskQueues (c, p)).filter (fun t => p = 0 ∨ s.expired c t = false) ++
          (s.taskQueues (c, p + 1)).filter (s.expired c)) ∧
      (∀ v ≠ c, ∀ p, s'.taskQueues (v, p) = s.taskQueues (v, p)) ∧
      ((List.range maxQueues).flatMap fun p => s'.taskQueues (c, p)).Perm
        ((List.range maxQueues).flatMap fun p => s.taskQueues (c, p)) := by
  have ho := h.ordered
  rw [h.ticks] at ht
  obtain ⟨s₁, h1, p1⟩ := promoteQueue_spec ho one_pos ht le_rfl
  obtain ⟨s₂, h2, p2⟩ := promoteQueue_spec (i := 2) p1.ordered Nat.two_pos (p1.ticks ▸ ht) le_rfl
  obtain ⟨s₃, h3, p3⟩ :=
    promoteQueue_spec (i := 3) p2.ordered (by decide) ((p2.ticks.trans p1.ticks) ▸ ht) le_rfl
  have hs : promoteExpiredTasks s c = .ok s₃ := by
    simp only [promoteExpiredTasks, foldlM_cons, foldlM_nil, h1, h2, h3, bind_of_ok]
    rfl
  have hf : Follows (During s c (s.load c)) _ _ _ :=
    During.promoteExpiredTasks ⟨h, .refl s, le_rfl⟩ fuel
  rw [hs] at hf
  obtain ⟨P', hP', hd⟩ := hf.ok_right.resolve_right fun hno => hno.2 hfuel
  have q0 : s₃.taskQueues (c, 0) = s.taskQueues (c, 0) ++ _ := (p3.other (by simp) (by simp)).trans
    ((p2.other (by simp) (by simp)).trans p1.goes)
  have q1 : s₃.taskQueues (c, 1) = s₁.taskQueues (c, 1) ++ _ :=
    (p3.other (by simp) (by simp)).trans p2.goes
  have q2 : s₃.taskQueues (c, 2) = s₂.taskQueues (c, 2) ++ _ := p3.goes
  have q3 := p3.stays
  have hlast : s.taskQueues (c, 4) = [] :=
    eq_nil_iff_forall_not_mem.mpr fun t ht => absurd (ho.queued ht).1 (by decide)
  rw [p1.stays, (p1.above ho (by decide)).1] at q1
  rw [p2.stays, (p1.above ho (by decide)).2, (p2.above p1.ordered (by decide)).1,
    (p1.above ho (by decide)).1] at q2
  rw [(p2.above p1.ordered (by decide)).2, (p1.above ho (by decide)).2] at q3
  refine ⟨P', s₃, hP', hd.rep, fun p hp => ?_, fun p hp => ?_, fun v hv p => ?_, ?_⟩
  · simp only [mem_cons, not_mem_nil, or_false] at hp
    rcases hp with rfl | rfl | rfl
    · exact p3.fresh_below p2.ordered (by decide) (p2.fresh_below p1.ordered (by decide) p1.fresh)
    · exact p3.fresh_below p2.ordered (by decide) p2.fresh
    · exact p3.fresh
  · unfold maxQueues at hp
    obtain rfl | rfl | rfl | rfl : p = 0 ∨ p = 1 ∨ p = 2 ∨ p = 3 := by omega
    · simp [q0]
    · simp [q1]
    · simp [q2]
    · simp [q3, hlast]
  · have hne : ∀ {i}, (v, p) ≠ (c, i) := fun he => hv (Prod.mk.inj he).1
    rw [p3.other hne hne, p2.other hne hne, p1.other hne hne]
  · have hsplit := fun p t =>
      (filter_append_perm (s.expired c) (s.taskQueues (c, p))).count_eq t
    simp only [count_append] at hsplit
    refine perm_iff_count.mpr fun t => ?_
    have h1 := hsplit 1 t
    have h2 := hsplit 2 t
    have h3 := hsplit 3 t
    simp only [maxQueues, show List.range 4 = [0, 1, 2, 3] from rfl, flatMap_cons,
      flatMap_nil, count_append, q0, q1, q2, q3]
    omega

/-- Task `5` comes to the second queue and waits. -/
theorem promoteExpiredTasks_exact_waited : ∃ P s P', Rep P s ∧ P.taskQueuesHead (0, 1) = some 5 ∧
    s.expired 0 5 = true ∧ P.promoteExpiredTasks 0 (s.load 0 + 1) = .ok P' ∧
    P'.taskQueuesHead (0, 0) = some 5 := by
  obtain ⟨s, h⟩ := booted_twoQueues.rep
  have hu : Unlisted s 5 := h.unlisted_of_ready rfl fun hq => by
    obtain ⟨w, hw⟩ := h.queued_iff.mp hq
    rw [eq_nil_of_length_eq_zero (h.count w).symm] at hw
    cases hw
  have hqueued := (h.setTask hu fun k => { k with priority := 1 }).enqueue (c := 0) (e := True)
    (h.ordered.setTask hu _).2 (by rw [setTask_task_self, ← h.task]; rfl)
  obtain ⟨s₁, -, h1⟩ := hqueued.of_ok
  have h2 := h1.later (f := fun _ => 101) fun c => h1.ticks ▸ Nat.zero_le 101
  have htick : (s₁.task 5).enqueueTick = 0 := h1.task ▸ rfl
  have hexp : State.expired { s₁ with ticks := fun _ => 101 } 0 5 = true :=
    decide_eq_true (show 100 < 101 - (s₁.task 5).enqueueTick by rw [htick]; decide)
  obtain ⟨P', s', hP', hrep, -, hq, -⟩ :=
    promoteExpiredTasks_exact h2 (c := 0) (by decide) (Nat.lt_succ_self _)
  refine ⟨_, _, P', h2, rfl, hexp, hP', (hrep.lists.head_eq (0, 0)).trans ?_⟩
  obtain ⟨rest, hone⟩ := head?_eq_some_iff.mp (h2.lists.head_eq (0, 1)).symm
  rw [hq 0 (by decide), head?_eq_none_iff.mp (h2.lists.head_eq (0, 0)).symm, hone,
    filter_cons_of_pos hexp]
  rfl

end RHKernel.Sched
