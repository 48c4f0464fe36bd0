import RHKernel.Smp.Scheduler.UserMode
import RHKernel.Lib.Update

/-!
# Faults from delivery to answer

A task that has set up a handler gets its faults delivered: the kernel keeps the interrupted
registers, starts the handler, and puts the registers back when the handler has answered. Two things
follow from what a step can do to the fault state of a task.

The registers come back as they were unless the task returns with `sysret`, which takes `rip` and
the flags from `rcx` and `r11` and so destroys these two. The address at which a task goes on is a
user address, except that nobody checks the one in an answer and the one in `rdx` at `sysenter`.
-/

namespace RHKernel.Sched

open Function List Relation Step Proc Gate

/-- What a task does: it raises an exception, makes a system call or exits. The rest of the kernel
starts tasks and does what touches no fault state. -/
inductive Act where
  | exception (cpu : ℕ) (u : Regs) (type detail : ℕ)
  | call (cpu : ℕ) (compat : Bool) (g : Gate) (u : Regs) (call : Call)
  | exit (cpu : ℕ) (code : ℤ)
  | spawn (child : ℕ)
  | rest

def Act.task (act : Act) (y : Proc) : Option ℕ :=
  match act with
  | .exception cpu _ _ _ => some (y.sched.currentTask cpu)
  | .call cpu _ _ _ _ => some (y.sched.currentTask cpu)
  | .exit cpu _ => some (y.sched.currentTask cpu)
  | .spawn _ => none
  | .rest => none

/-- The registers of the child of `clone`. -/
def Call.childFrames (call : Call) (r : Regs) : List Regs :=
  match call with
  | .clone _ stack => [{ r with rax := 0, rsp := if stack ≠ 0 then stack else r.rsp }]
  | _ => []

/-- A step, with the registers that go to user mode at its end. What the hardware saves when a task
enters the kernel lies below `user_top`. -/
inductive UserStep (cfg : Vmm.Config) : Act → List Regs → Proc → Proc → Prop
  | resolved {y : Proc} {cpu : ℕ} {u : Regs} {type detail : ℕ} (hrip : u.rip < cfg.userTop) :
      UserStep cfg (.exception cpu u type detail) [u] y y
  | handled {y y' : Proc} {cpu : ℕ} {u r : Regs} {type detail : ℕ} {locks : TryLocks}
      (hrip : u.rip < cfg.userTop) (hrsp : u.rsp < cfg.userTop)
      (h : y.handleUserException cpu u type detail locks = .ok (.goesOn true r y')) :
      UserStep cfg (.exception cpu u type detail) [r] y y'
  | fatal {y y' : Proc} {cpu : ℕ} {u : Regs} {type detail : ℕ} {locks : TryLocks}
      (h : y.handleUserException cpu u type detail locks = .ok (.ended y')) :
      UserStep cfg (.exception cpu u type detail) [] y y'
  | returned {y y' : Proc} {cpu : ℕ} {compat : Bool} {g : Gate} {u r : Regs} {call : Call}
      {result : ℕ} {locks : TryLocks} {b : Bool} {vm : Vmm.State} {task : Option Vma.Task}
      {root : ℕ} (huser : y.user (y.sched.currentTask cpu) = true) (hrip : u.rip < cfg.userTop)
      (hrsp : u.rsp < cfg.userTop) (himage : ∀ image, call = .exec image → image.Accepted cfg)
      (h : y.systemCall (fun virt size isWrite => Vmm.userRangeMapped cfg vm task virt size isWrite
        root) cpu compat g u call result locks = .ok (.goesOn b r y')) :
      UserStep cfg (.call cpu compat g u call) (g.leave r :: call.childFrames (g.enter u)) y y'
  | killed {y y' : Proc} {cpu : ℕ} {compat : Bool} {g : Gate} {u : Regs} {call : Call}
      {result : ℕ} {locks : TryLocks} {vm : Vmm.State} {task : Option Vma.Task} {root : ℕ}
      (huser : y.user (y.sched.currentTask cpu) = true)
      (himage : ∀ image, call = .exec image → image.Accepted cfg)
      (h : y.systemCall (fun virt size isWrite => Vmm.userRangeMapped cfg vm task virt size isWrite
        root) cpu compat g u call result locks = .ok (.ended y')) :
      UserStep cfg (.call cpu compat g u call) [] y y'
  | exit {y y' : Proc} {cpu : ℕ} {code : ℤ} {locks : TryLocks}
      (h : y.exit cpu code locks = .ok y') : UserStep cfg (.exit cpu code) [] y y'
  | spawn {y : Proc} {child : ℕ} :
      UserStep cfg (.spawn child) [] y (y.withFault child fun _ => .zero)
  | rest {y y' : Proc} (h : y'.fault = y.fault) : UserStep cfg .rest [] y y'

/-- The task that acts is the target of a forced kill in the call. -/
def Call.killsSelf (call : Call) (t : ℕ) : Prop :=
  match call with
  | .sendEvent target events => target = t ∧ ∃ ev ∈ events, ev.type = taskEventForceKill
  | _ => False

/-- A task ends while its handler runs, without an answer. -/
def Act.EndsHandler (act : Act) (y : Proc) : Prop :=
  match act with
  | .exception cpu _ _ _ => (y.fault (y.sched.currentTask cpu)).active = true
  | .exit cpu _ => (y.fault (y.sched.currentTask cpu)).active = true
  | .call cpu _ _ _ k => (y.fault (y.sched.currentTask cpu)).active = true ∧
      ((y.kill (y.sched.currentTask cpu)).pending = true ∨ k.killsSelf (y.sched.currentTask cpu))
  | _ => False

/-- The step makes a new fault state for `x`. -/
def Act.Makes (act : Act) (y : Proc) (x : ℕ) : Prop :=
  match act with
  | .call cpu _ _ _ (.exec _) => y.sched.currentTask cpu = x
  | .call _ _ _ _ (.clone child _) => child = x
  | .spawn child => child = x
  | _ => False

/-! ### What a step does to a fault state -/

/-- The fault state of a task between two steps. -/
structure FaultOk (cfg : Vmm.Config) (f : FaultState) : Prop where
  handler : f.ctl.flags.testBit 0 = true → f.ctl.handlerIp < cfg.userTop
  saved : f.active = true → f.savedRegs.rip < cfg.userTop
  idle : f.returnPending = false

/-- What the step `act` can do to the fault state `f` of the task `x`. -/
inductive Moves (cfg : Vmm.Config) (y : Proc) (act : Act) (x : ℕ) (f : FaultState) :
    FaultState → Prop
  | keep : Moves cfg y act x f f
  | deliver {cpu : ℕ} {u : Regs} {type detail : ℕ} {ctl : FaultCtl} {frame : FaultFrame}
      (hact : act = .exception cpu u type detail) (hx : y.sched.currentTask cpu = x)
      (hactive : f.active = false) (hrip : u.rip < cfg.userTop)
      (hctl : ctl.flags.testBit 0 = true → f.ctl.flags.testBit 0 = true)
      (hip : ctl.handlerIp = f.ctl.handlerIp) :
      Moves cfg y act x f { f with
        ctl := ctl
        frame := frame
        savedRegs := u
        active := true
        returnPending := false
        depth := f.depth + 1 }
  | setCtl {ctl : FaultCtl} (hactive : f.active = false)
      (hip : ctl.flags.testBit 0 = true → ctl.handlerIp < cfg.userTop) :
      Moves cfg y act x f { f with ctl := ctl }
  | settle {cpu : ℕ} {compat : Bool} {g : Gate} {u : Regs} {result : FaultReturn}
      (hact : act = .call cpu compat g u (.writeFaultReturn result))
      (hx : y.sched.currentTask cpu = x) (hactive : f.active = true) :
      Moves cfg y act x f { f with
        result := result
        active := false
        returnPending := false
        depth := f.depth - 1 }
  | stop (hact : act.task y = some x) (hends : f.active = true → act.EndsHandler y) :
      Moves cfg y act x f { f with active := false, returnPending := false }
  | fresh {ctl : FaultCtl} (hact : act.Makes y x)
      (hip : ctl.flags.testBit 0 = true → ctl.handlerIp < cfg.userTop) :
      Moves cfg y act x f { FaultState.zero with ctl := ctl }

section Moves

variable {cfg : Vmm.Config} {y y' y₁ y₀ z : Proc} {act : Act} {rets : List Regs}
  {x t c n cpu type detail sender target root depth result : ℕ}
  {f f' : FaultState} {u r v : Regs} {call : Call} {compat b : Bool} {g : Gate} {locks : TryLocks}

theorem moves_update (hfault : y'.fault = update y.fault t f)
    (h : Moves cfg y act t (y.fault t) f) : Moves cfg y act x (y.fault x) (y'.fault x) := by
  rw [hfault]
  exact update_elim h (fun _ _ => .keep) x

theorem testBit_zero_of_cleared (h : (n &&& (2 ^ 32 - 2)).testBit 0 = true) :
    n.testBit 0 = true := by
  rw [Nat.testBit_and, Bool.and_eq_true] at h
  exact h.1

theorem startHandler_moves (hrip : u.rip < cfg.userTop)
    (hd : y.delivers (y.sched.currentTask cpu) type = true) :
    Moves cfg y (.exception cpu u type detail) x (y.fault x)
      ((y.startHandler (y.sched.currentTask cpu) u type detail).2.fault x) := by
  refine moves_update rfl (.deliver rfl rfl ?_ hrip ?_ ?_)
  · simp only [delivers, Bool.and_eq_true, Bool.not_eq_true'] at hd
    exact hd.1.2
  · split
    · exact testBit_zero_of_cleared
    · exact id
  · split <;> rfl

/-- Only an event for itself can doom a task in the middle of a call. -/
theorem sendOne_doomed {ev : TaskEvent}
    (h : y.sendOne sender target ev = some y₁) (hd : y.doomed t = false)
    (hd1 : y₁.doomed t = true) : target = t ∧ ev.type = taskEventForceKill := by
  unfold sendOne at h
  simp only at h
  split at h
  · cases h
  split at h
  · rename_i htype
    split at h
    · cases h
    cases h
    refine ⟨?_, htype⟩
    by_contra hne
    simp only [doomed, withKill, update_of_ne (Ne.symm hne)] at hd hd1
    exact absurd (hd.symm.trans hd1) Bool.false_ne_true
  split at h
  · rename_i y2 he
    cases h
    have hsame : y₁.doomed t = y.doomed t := by
      have hkill : ∀ ev, ((y.enqueueEventLocked target ev).2.doomed t) = y.doomed t := by
        intro ev
        unfold enqueueEventLocked
        split <;> rfl
      have := hkill { ev with
        source := (y.sched.task sender).id
        target := (y.sched.task target).id
        flags := ev.flags &&& taskEventFTruncated }
      rw [he] at this
      exact this
    rw [hsame, hd] at hd1
    cases hd1
  · cases h

theorem sendLoop_doomed {events : List TaskEvent} (hd : y.doomed t = false)
    (hd1 : (sendLoop sender target events y).2.doomed t = true) :
    target = t ∧ ∃ ev ∈ events, ev.type = taskEventForceKill := by
  induction events generalizing y with
  | nil => exact absurd (hd.symm.trans hd1) Bool.false_ne_true
  | cons ev rest ih =>
    unfold sendLoop at hd1
    split at hd1
    · exact absurd (hd.symm.trans hd1) Bool.false_ne_true
    rename_i y₁ h1
    by_cases hy1 : y₁.doomed t = true
    · obtain ⟨ht, htype⟩ := sendOne_doomed h1 hd hy1
      exact ⟨ht, ev, mem_cons_self, htype⟩
    · obtain ⟨ht, ev', hmem, htype⟩ := ih (Bool.not_eq_true _ ▸ hy1) hd1
      exact ⟨ht, ev', mem_cons_of_mem _ hmem, htype⟩

theorem run_doomed {mapped : ℕ → ℕ → Bool → Bool} (hd : y.doomed t = false)
    (hd1 : (y.run mapped t r call).2.doomed t = true) :
    call.killsSelf t ∧ (y.run mapped t r call).2.fault = y.fault := by
  have hnot : ∀ {z : Proc}, z.doomed t = y.doomed t → z.doomed t = true → False := by
    intro z hz hz1
    rw [hz, hd] at hz1
    cases hz1
  cases call with
  | writeFaultctl ctl =>
    rcases writeFaultctl_cases mapped y t ctl with he | ⟨-, -, mask, he⟩
    · exact (hnot (by rw [run, he]) hd1).elim
    · exact (hnot (by rw [run, he]; rfl) hd1).elim
  | writeFaultReturn result =>
    rcases writeFaultReturn_cases y t result with he | ⟨-, -, -, he⟩
    · exact (hnot (by rw [run, he]) hd1).elim
    · exact (hnot (by rw [run, he]; rfl) hd1).elim
  | sendEvent target events =>
    refine ⟨?_, (sendEvent_frames t target events).2⟩
    simp only [run, sendEvent] at hd1
    split at hd1
    · exact (hnot rfl hd1).elim
    · exact sendLoop_doomed hd hd1
  | exec image => simp [run, doomed, withKill] at hd1
  | clone child stack =>
    by_cases hc : t = child
    · subst hc
      simp [run, doomed, withKill] at hd1
    · refine (hnot ?_ hd1).elim
      simp [run, doomed, withKill, withFault, withEvents, update_of_ne hc]
  | other => exact (hnot rfl hd1).elim

/-- What a call does to fault states when it is not an answer. -/
theorem run_moves {vm : Vmm.State} {task : Option Vma.Task} (hok : ∀ t, FaultOk cfg (y.fault t))
    (hanswered : (y.run (fun virt size isWrite => Vmm.userRangeMapped cfg vm task virt size isWrite
      root) (y.sched.currentTask cpu) r call).2.answered (y.sched.currentTask cpu) = false)
    (huser : y.user (y.sched.currentTask cpu) = true) :
    Moves cfg y (.call cpu compat g u call) x (y.fault x)
      ((y.run (fun virt size isWrite => Vmm.userRangeMapped cfg vm task virt size isWrite root)
        (y.sched.currentTask cpu) r call).2.fault x) := by
  cases call with
  | writeFaultctl ctl =>
    rcases writeFaultctl_cases (fun virt size isWrite => Vmm.userRangeMapped cfg vm task virt
      size isWrite root) y (y.sched.currentTask cpu) ctl with he | ⟨hactive, hmapped, mask, he⟩
    · rw [run, he]
      exact .keep
    · rw [run, he]
      refine moves_update rfl (.setCtl hactive fun hen => ?_)
      exact (Vmm.userRangeMapped_spec (hmapped hen) le_rfl (Nat.lt_succ_self _)).1
  | writeFaultReturn result =>
    rcases writeFaultReturn_cases y (y.sched.currentTask cpu) result with
      he | ⟨hactive, -, -, he⟩
    · rw [run, he]
      exact .keep
    · rw [run, he] at hanswered
      simp [answered, withFault, hactive, huser] at hanswered
  | sendEvent target events =>
    rw [run, (sendEvent_frames _ target events).2]
    exact .keep
  | exec image => exact moves_update rfl (.fresh rfl fun h => absurd h Bool.false_ne_true)
  | clone child stack => exact moves_update rfl (.fresh rfl (hok (y.sched.currentTask cpu)).handler)
  | other => exact .keep

theorem settled_written (result : FaultReturn) :
    ((y.withFault t fun f => { f with result := result, returnPending := true }).settled t).fault =
      update y.fault t { y.fault t with
        result := result
        active := false
        returnPending := false
        depth := (y.fault t).depth - 1 } := by
  rw [settled, withFault_fault, withFault_fault, update_idem, update_self]

theorem endsWith_written {result : FaultReturn} (h : EndsWith
    (y.withFault t fun f => { f with result := result, returnPending := true }) y' t depth) :
    y'.fault = update y.fault t { y.fault t with
      result := result
      active := false
      returnPending := false
      depth := depth } := by
  rw [EndsWith, withFault_fault, update_idem, update_self] at h
  exact h

/-- **Step lemma** for fault states. -/
theorem UserStep.moves (h : UserStep cfg act rets y y') (hok : ∀ t, FaultOk cfg (y.fault t))
    (x : ℕ) : Moves cfg y act x (y.fault x) (y'.fault x) := by
  have hend : ∀ {t : ℕ} {z : Proc}, act.task y = some t →
      ((y.fault t).active = true → act.EndsHandler y) →
      EndsWith y z t (y.fault t).depth → Moves cfg y act x (y.fault x) (z.fault x) :=
    fun ht hh he => moves_update he (.stop ht hh)
  cases h with
  | resolved hrip => exact .keep
  | handled hrip hrsp h =>
    rcases handleUserException_cases h with he | ⟨hd, he⟩ | ⟨z, he, -⟩
    · cases he
    · cases he
      exact startHandler_moves hrip hd
    · cases he
  | fatal h =>
    rcases handleUserException_cases h with he | ⟨-, he⟩ | ⟨z, he, hz⟩
    · cases he
    · cases he
    · cases he
      exact hend rfl id (endCurrent_fault hz)
  | returned huser hrip hrsp himage h =>
    cases systemCall_comes (hok _).idle h with
    | refused hdoomed hgate hrip => exact .keep
    | resumed hdoomed hgate hcall hactive hwritten hresumed =>
      subst hcall
      rw [hwritten]
      exact moves_update (settled_written _) (.settle rfl rfl hactive)
    | returned hdoomed hgate hanswered => exact run_moves hok hanswered huser
  | killed huser himage h =>
    cases systemCall_comes (hok _).idle h with
    | killed hdoomed hends =>
      refine hend rfl (fun hactive => ⟨hactive, .inl ?_⟩) hends
      rw [doomed, Bool.and_eq_true] at hdoomed
      exact hdoomed.2
    | gaveUp hdoomed hgate hcall hactive hwritten hends =>
      subst hcall
      rw [hwritten] at hends
      exact moves_update (endsWith_written hends) (.settle rfl rfl hactive)
    | died hdoomed hgate hanswered hdoomed1 hends =>
      -- the call sent a forced kill to the task itself
      obtain ⟨hself, hfault⟩ := run_doomed hdoomed hdoomed1
      refine hend rfl (fun hactive => ⟨hactive, .inr hself⟩) ?_
      rw [EndsWith, hfault] at hends
      exact hends
  | exit h => exact hend rfl id (exit_fault h)
  | spawn => exact moves_update rfl (.fresh rfl fun h => absurd h Bool.false_ne_true)
  | rest h =>
    rw [h]
    exact .keep

/-! ### Depth and delivery along runs -/

theorem FaultOk.move (h : FaultOk cfg f) (hm : Moves cfg y act x f f') : FaultOk cfg f' := by
  cases hm with
  | keep => exact h
  | deliver _ _ _ hrip hctl hip =>
    exact ⟨fun hen => by rw [hip]; exact h.handler (hctl hen), fun _ => hrip, rfl⟩
  | setCtl hactive hip => exact ⟨hip, h.saved, h.idle⟩
  | settle | stop => exact ⟨h.handler, nofun, rfl⟩
  | fresh _ hip => exact ⟨hip, nofun, rfl⟩

theorem UserStep.faultOk (h : UserStep cfg act rets y y') (hok : ∀ t, FaultOk cfg (y.fault t))
    (t : ℕ) : FaultOk cfg (y'.fault t) := (hok t).move (h.moves hok t)

theorem faultOk_zero : FaultOk cfg .zero := ⟨nofun, nofun, rfl⟩

/-- What holds of fault states in every run. -/
theorem faultOk_of_run (h0 : ∀ t, y₀.fault t = .zero)
    (hrun : ReflTransGen (fun a b => ∃ act rets, UserStep cfg act rets a b) y₀ y) (t : ℕ) :
    FaultOk cfg (y.fault t) :=
  run_invariant (I := fun a : Proc => ∀ t, FaultOk cfg (a.fault t)) hrun
    (fun t => h0 t ▸ faultOk_zero) (fun hok ⟨_, _, hstep⟩ => hstep.faultOk hok) t

/-- A delivery is on exactly when the depth is one. -/
def DepthOk (f : FaultState) : Prop := f.depth = if f.active then 1 else 0

theorem DepthOk.move (h : DepthOk f) (hm : Moves cfg y act x f f') (hends : ¬act.EndsHandler y) :
    DepthOk f' := by
  cases hm with
  | keep | setCtl => exact h
  | deliver _ _ hactive | settle _ _ hactive =>
    rw [DepthOk, hactive] at h
    simp [DepthOk, h]
  | stop _ hh =>
    have hactive : f.active = false := Bool.not_eq_true _ ▸ fun ha => hends (hh ha)
    rw [DepthOk, hactive] at h
    simpa [DepthOk] using h
  | fresh => rfl

/-- The step ends the delivery to `t`: with an answer, with the end of `t` or by making `t` anew. -/
def Act.Settles (act : Act) (y : Proc) (t : ℕ) : Prop :=
  act.Makes y t ∨ act.task y = some t ∧ (act.EndsHandler y ∨
    ∃ cpu compat g u result, act = .call cpu compat g u (.writeFaultReturn result))

/-- The fault with the registers `u` is being handled. -/
structure Handling (f : FaultState) (u : Regs) : Prop where
  active : f.active = true
  saved : f.savedRegs = u

theorem Handling.move (h : Handling f u) (hm : Moves cfg y act x f f')
    (hsettles : ¬act.Settles y x) : Handling f' u := by
  cases hm with
  | keep => exact h
  | deliver _ _ hactive | setCtl hactive => exact absurd (h.active.symm.trans hactive) nofun
  | settle hact hx hactive =>
    exact absurd (.inr ⟨by rw [hact]; exact congrArg some hx, .inr ⟨_, _, _, _, _, hact⟩⟩) hsettles
  | stop hact hh => exact absurd (.inr ⟨hact, .inl (hh h.active)⟩) hsettles
  | fresh hact => exact absurd (.inl hact) hsettles

/-! ### The answer -/

theorem shownFlags_idem (n : ℕ) : shownFlags (shownFlags n) = shownFlags n := by
  unfold shownFlags
  refine Nat.eq_of_testBit_eq fun i => ?_
  simp only [Nat.testBit_or, Nat.testBit_and]
  cases n.testBit i <;> cases Nat.testBit 0x3C7FD7 i <;> cases Nat.testBit 2 i <;> rfl

/-- `sysret` is the only way back on which registers are lost. -/
theorem visible_leave_iff (hint : u.intNo ≤ 31) :
    (g.leave u).visible = u.visible ↔
      (g = .syscall ∧ u.cs = ucode64Sel ∧ u.ss = udata64Sel →
        u.rcx = u.rip ∧ u.r11 = u.rflags) := by
  cases g with
  | syscall =>
    by_cases hsel : u.cs = ucode64Sel ∧ u.ss = udata64Sel
    · rw [leave, if_pos hsel]
      simp only [Regs.visible, Regs.toFaultRegs, sysret, shownFlags_idem, FaultRegs.mk.injEq,
        true_and, and_true, hsel, forall_const]
      exact ⟨fun ⟨h1, h2⟩ => ⟨h2.symm, h1.symm⟩, fun ⟨h1, h2⟩ => ⟨h2.symm, h1.symm⟩⟩
    · rw [leave, if_neg hsel]
      simp only [true_and, hsel, false_imp_iff]
  | int80 => simp [leave]
  | sysenter =>
    have hne : u.intNo ≠ intSysenter := fun he => by
      rw [he] at hint
      exact absurd hint (by decide)
    simp [leave, hne]

theorem applyPendingKill_idle (h : y.doomed (y.sched.currentTask c) = false) :
    y.applyPendingKill c r locks = .ok (.goesOn false r y) := by
  unfold applyPendingKill
  simp only [h, Bool.not_false, if_true]

theorem completeFaultReturnIfPending_idle (h : y.answered (y.sched.currentTask c) = false) :
    y.completeFaultReturnIfPending c r locks = .ok (.goesOn false r y) := by
  unfold completeFaultReturnIfPending
  simp only [h, Bool.not_false, if_true]

theorem action_le_of_resumed (h : resumed f = some r) : f.result.action ≤ 3 := by
  unfold resumed at h
  split at h
  · omega
  split at h
  · omega
  · cases h

/-- A call that is carried out ends with `finish_user_syscall`. -/
theorem syscallHandler_eq (mapped : ℕ → ℕ → Bool → Bool) (v : Regs) (call : Call) (result : ℕ)
    (locks : TryLocks) (hgate : dispatches g compat = true)
    (hdoomed : y.doomed (y.sched.currentTask c) = false) :
    y.syscallHandler mapped c compat (g.enter v) call result locks =
      (y.run mapped (y.sched.currentTask c) (g.enter v) call).2.finishUserSyscall c
        (y.run mapped (y.sched.currentTask c) (g.enter v) call).1 result locks := by
  rw [syscallHandler, applyPendingKill_idle hdoomed]
  cases g <;> cases compat <;> simp [dispatches] at hgate <;> rfl

/-- With nothing left to do, the frame that the handler leaves is taken down. -/
theorem systemCall_of_handler {mapped : ℕ → ℕ → Bool → Bool}  {z : Proc}
    (h : y.syscallHandler mapped c compat (g.enter v) call result locks = .ok (.goesOn b r z))
    (hanswered : z.answered (z.sched.currentTask c) = false)
    (hdoomed : z.doomed (z.sched.currentTask c) = false) :
    ∃ b, y.systemCall mapped c compat g v call result locks = .ok (.goesOn b r z) := by
  have hlook : z.lookAgain c r locks = .ok (.goesOn false r z) := by
    rw [lookAgain, completeFaultReturnIfPending_idle hanswered]
    exact applyPendingKill_idle hdoomed
  rw [systemCall, h]
  by_cases hg : g = .int80
  · exact ⟨false, (if_pos hg).trans hlook⟩
  · exact ⟨b, if_neg hg⟩

/-- A handler that answers gets the task going with what its answer says. -/
theorem systemCall_answer (mapped : ℕ → ℕ → Bool → Bool) (v : Regs) (answer : FaultReturn)
    (result : ℕ) (locks : TryLocks) (huser : y.user (y.sched.currentTask c) = true)
    (hgate : dispatches g compat = true) (hdoomed : y.doomed (y.sched.currentTask c) = false)
    (hactive : (y.fault (y.sched.currentTask c)).active = true)
    (hpend : (y.fault (y.sched.currentTask c)).returnPending = false)
    (hresumed : resumed { y.fault (y.sched.currentTask c) with result := answer } = some r) :
    ∃ b y', y.systemCall mapped c compat g v (.writeFaultReturn answer) result locks =
      .ok (.goesOn b r y') := by
  have haction : answer.action ≤ 3 := action_le_of_resumed hresumed
  have hhandler := syscallHandler_eq mapped v (.writeFaultReturn answer) result locks hgate hdoomed
  generalize ht : y.sched.currentTask c = t at *
  -- the answer is written
  have hrun : y.run mapped t (g.enter v) (.writeFaultReturn answer) =
      (g.enter v, y.withFault t fun f => { f with result := answer, returnPending := true }) := by
    simp [run, writeFaultReturn, hactive, hpend, not_lt.mpr haction]
  rw [hrun] at hhandler
  generalize hy1 : (y.withFault t fun f =>
    { f with result := answer, returnPending := true }) = y₁ at hhandler
  have hcur1 : y₁.sched.currentTask c = t := by rw [← hy1, ← ht]; rfl
  have hfault1 : y₁.fault t = { y.fault t with result := answer, returnPending := true } := by
    rw [← hy1, withFault_fault, update_self]
  have hanswered : y₁.answered t = true := by
    rw [answered, hfault1, ← hy1]
    simp [withFault, huser, hactive]
  have hresumed1 : resumed (y₁.fault t) = some r := by
    rw [hfault1]
    exact hresumed
  -- and acted on
  have hfinish : y₁.finishUserSyscall c (g.enter v) result locks =
      .ok (.goesOn true r (y₁.settled t)) := by
    rw [finishUserSyscall, completeFaultReturnIfPending]
    simp only [hcur1, hanswered, Bool.not_true, Bool.false_eq_true, if_false, hresumed1]
    rfl
  obtain ⟨b, hb⟩ := systemCall_of_handler (hhandler.trans hfinish)
    (answered_of_not_pending (by simp [settled, withFault, hcur1]))
    (by
      rw [show (y₁.settled t).sched.currentTask c = t from hcur1, ← hy1]
      exact hdoomed)
  exact ⟨b, _, hb⟩

end Moves

/-! ### A fault and its answer -/

/-- One CPU with the user task `7` on it. -/
def oneTask : Proc where
  sched := {
    cores := 1
    ticks := fun _ => 0
    currentTask := fun _ => 7
    idleTask := fun _ => 100
    taskQueues := fun _ => []
    oldestTick := fun _ => 0
    sleepList := fun _ => []
    task := fun t => ⟨t, .running, 0, 2, 0, 0, 0, 0, none, []⟩
    allTasks := [7, 100]
    initTask := none
    nextTid := 8 }
  user := fun t => t = 7
  events := fun _ => ⟨[], 0⟩
  fault := fun _ => .zero
  kill := fun _ => ⟨false, 0, 0⟩
  fd := Fd.State.init 0
  lease := ⟨0, 0, fun _ => none⟩

/-- A handler for page faults. -/
def pageFaultCtl : FaultCtl := ⟨1, 1, 64, 0x7008, 0, 0⟩

/-- The registers of a program at a page fault. -/
def interrupted (rcx r11 : ℕ) : Regs where
  r15 := 0
  r14 := 0
  r13 := 0
  r12 := 0
  r11 := r11
  r10 := 0
  r9 := 0
  r8 := 0
  rbp := 0
  rdi := 0
  rsi := 0
  rdx := 0
  rcx := rcx
  rbx := 0
  rax := 0
  intNo := 14
  errCode := 4
  rip := 0x5000
  cs := ucode64Sel
  rflags := 0x202
  rsp := 0x8F00
  ss := udata64Sel

/-- Task `7` has set up its handler. -/
def withHandler : Proc := oneTask.withFault 7 fun f => { f with ctl := pageFaultCtl }

/-- The handler runs. -/
def inHandler (u : Regs) : Proc := (withHandler.startHandler 7 u taskEventPageFault 0).2

/-- A root whose tables are empty; the pages come from the stack of the task. -/
def bareMemory : Vmm.State := ⟨Pmm.State.empty 4 64 false, fun _ _ => 0, 0, []⟩

theorem step_withHandler : UserStep Vmm.fourLevels
    (.call 0 false .syscall (interrupted 0 0) (.writeFaultctl pageFaultCtl))
    [syscall.leave { syscall.enter (interrupted 0 0) with rax := 40 }] oneTask
    withHandler := by
  have hmapped : Vmm.userRangeMapped Vmm.fourLevels bareMemory
      (some (Vmm.committedStackTask 0x30000)) 0x7008 1 false 0x30000 = true := by decide
  have hrun : oneTask.run (fun virt size isWrite => Vmm.userRangeMapped Vmm.fourLevels bareMemory
      (some (Vmm.committedStackTask 0x30000)) virt size isWrite 0x30000) 7
      (syscall.enter (interrupted 0 0)) (.writeFaultctl pageFaultCtl) =
        (syscall.enter (interrupted 0 0), withHandler) := by
    simp [run, writeFaultctl, pageFaultCtl, hmapped, withHandler, oneTask, FaultState.zero]
  have hhandler : oneTask.syscallHandler (fun virt size isWrite => Vmm.userRangeMapped
      Vmm.fourLevels bareMemory (some (Vmm.committedStackTask 0x30000)) virt size isWrite 0x30000) 0
      false (syscall.enter (interrupted 0 0)) (.writeFaultctl pageFaultCtl) 40
      ⟨fun _ => true, true⟩ = .ok (.goesOn false { syscall.enter (interrupted 0 0) with rax := 40 }
          withHandler) := by
    have hcall := congrArg (fun x : Regs × Proc => x.2.finishUserSyscall 0 x.1 40
      ⟨fun _ => true, true⟩) hrun
    exact hcall
  obtain ⟨b, hb⟩ := systemCall_of_handler hhandler rfl rfl
  exact .returned rfl (by decide) (by decide) (fun _ he => by cases he) hb

theorem delivered (u : Regs) : withHandler.handleUserException 0 u taskEventPageFault 0
    ⟨fun _ => true, true⟩ =
      .ok (.goesOn true (withHandler.startHandler 7 u taskEventPageFault 0).1 (inHandler u)) := rfl

section Resume

variable {cfg : Vmm.Config}

end Resume

section Return

variable {cfg : Vmm.Config} {y y' : Proc} {act : Act} {rets : List Regs} {r u f : Regs}

/-- The address at which the task goes on is not one that the kernel has checked: it comes from an
answer, or from `rdx` at `sysenter`. -/
def Act.Unsafe (cfg : Vmm.Config) (act : Act) (y : Proc) : Prop :=
  match act with
  | .call cpu compat g u (.writeFaultReturn result) =>
    if dispatches g compat = true ∧ (y.fault (y.sched.currentTask cpu)).active = true ∧
        result.action ≤ 3 then result.action = 2 ∧ cfg.userTop ≤ result.resumeIp
    else g = .sysenter ∧ cfg.userTop ≤ u.rdx
  | .call _ compat g u (.exec _) =>
    dispatches g compat = false ∧ g = .sysenter ∧ cfg.userTop ≤ u.rdx
  | .call _ _ g u _ => g = .sysenter ∧ cfg.userTop ≤ u.rdx
  | _ => False

theorem leave_rip (g : Gate) (f : Regs) : (g.leave f).rip = f.rip := by
  cases g with
  | int80 => rfl
  | syscall | sysenter =>
    rw [leave]
    split <;> rfl

theorem enter_rip_lt_iff {g : Gate} (hrip : u.rip < cfg.userTop) :
    (g.enter u).rip < cfg.userTop ↔ ¬(g = .sysenter ∧ cfg.userTop ≤ u.rdx) := by
  cases g with
  | syscall | int80 => simpa [enter] using hrip
  | sysenter => simp [enter]

theorem childFrames_rip {call : Call} (hr : r ∈ call.childFrames f) : r.rip = f.rip := by
  cases call with
  | clone child stack =>
    rw [Call.childFrames, mem_singleton] at hr
    rw [hr]
  | writeFaultctl | writeFaultReturn | sendEvent | exec | other => exact absurd hr not_mem_nil

theorem entry_lt {image : Image} (h : image.Accepted cfg) : image.entry < cfg.userTop := by
  obtain ⟨hend, -, hentry⟩ := h
  have hlt := Elf.lt_of_vaInLoadedRange one_pos hentry
  have htop : Elf.user32Top ≤ cfg.userTop := by
    rw [Vmm.Config.userTop, Elf.user32Top]
    rcases cfg.levels_eq with hl | hl <;> rw [hl] <;> decide
  split at hend <;> omega

/-- The answer `RESUME` leads back to where the fault was, `RESUME_AT` to any address but zero. -/
theorem resumed_rip {f : FaultState} (h : resumed f = some r)
    (hsaved : f.savedRegs.rip < cfg.userTop) :
    r.rip < cfg.userTop ↔ ¬(f.result.action = 2 ∧ cfg.userTop ≤ f.result.resumeIp) := by
  unfold resumed at h
  split at h
  · rename_i h1
    cases h
    simp [h1, hsaved]
  split at h
  · rename_i h2
    cases h
    by_cases hip : f.result.resumeIp = 0
    · have htop : cfg.userTop ≠ 0 := ne_zero_of_lt hsaved
      simp [hip, hsaved, htop]
    · simp [h2, hip]
  · cases h

/-- The addresses to which a system call returns. -/
theorem returned_rip_iff {cpu : ℕ} {compat : Bool} {g : Gate} {call : Call} {result : ℕ}
    {locks : TryLocks} {b : Bool} {mapped : ℕ → ℕ → Bool → Bool}
    (hok : ∀ t, FaultOk cfg (y.fault t)) (huser : y.user (y.sched.currentTask cpu) = true)
    (hrip : u.rip < cfg.userTop) (himage : ∀ image, call = .exec image → image.Accepted cfg)
    (h : y.systemCall mapped cpu compat g u call result locks = .ok (.goesOn b r y')) :
    (∀ f ∈ g.leave r :: call.childFrames (g.enter u), f.rip < cfg.userTop) ↔
      ¬(Act.call cpu compat g u call).Unsafe cfg y := by
  -- a call that is no clone returns once
  have hone : ∀ {p : Prop}, call.childFrames (g.enter u) = [] → (r.rip < cfg.userTop ↔ p) →
      ((∀ f ∈ g.leave r :: call.childFrames (g.enter u), f.rip < cfg.userTop) ↔ p) := by
    intro p hnil hp
    rw [hnil, ← hp]
    simp [leave_rip]
  -- the frame is the one of the gate
  have hgate : r.rip = (g.enter u).rip →
      ((∀ f ∈ g.leave r :: call.childFrames (g.enter u), f.rip < cfg.userTop) ↔
        ¬(g = .sysenter ∧ cfg.userTop ≤ u.rdx)) := by
    intro hr
    rw [← enter_rip_lt_iff hrip]
    constructor
    · intro hall
      rw [← hr, ← leave_rip g r]
      exact hall _ mem_cons_self
    intro hlt f hf
    rcases mem_cons.mp hf with rfl | hf
    · rw [leave_rip, hr]
      exact hlt
    · rw [childFrames_rip hf]
      exact hlt
  cases systemCall_comes (hok _).idle h with
  | refused hdoomed hd hr =>
    rw [hgate hr]
    cases call <;> simp [Act.Unsafe, hd]
  | resumed hdoomed hd hcall hactive hwritten hresumed =>
    subst hcall
    refine hone rfl ?_
    have hiff := resumed_rip hresumed ((hok _).saved hactive)
    have haction := action_le_of_resumed hresumed
    rw [Act.Unsafe, if_pos ⟨hd, hactive, haction⟩]
    exact hiff
  | returned hdoomed hd hanswered =>
    cases call with
    | exec image =>
      refine hone rfl ?_
      simp [Act.Unsafe, hd, run, Image.frame, entry_lt (himage image rfl)]
    | writeFaultReturn result =>
      rw [hgate rfl, Act.Unsafe, if_neg]
      rintro ⟨-, hactive, haction⟩
      -- an answer that is accepted is acted on
      have hidle := (hok (y.sched.currentTask cpu)).idle
      simp [run, writeFaultReturn, not_lt.mpr haction, hactive, hidle, answered,
        withFault, huser] at hanswered
    | writeFaultctl | sendEvent | clone | other => exact hgate rfl

/-- **Return addresses.** Whatever has happened before, a task that returns to user mode from a
system call or an exception goes on at a canonical user address, exactly when it has not answered a
fault with an address that is none, and has not given such an address to `sysenter`. -/
theorem return_address_iff {y₀ : Proc} (h0 : ∀ t, y₀.fault t = .zero)
    (hrun : ReflTransGen (fun a b => ∃ act rets, UserStep cfg act rets a b) y₀ y)
    (hstep : UserStep cfg act rets y y') (hret : rets ≠ []) :
    (∀ r ∈ rets, r.rip < cfg.userTop ∧ Vmm.Canonical cfg r.rip) ↔ ¬act.Unsafe cfg y := by
  have hok := faultOk_of_run h0 hrun
  have hcanonical : (∀ r ∈ rets, r.rip < cfg.userTop ∧ Vmm.Canonical cfg r.rip) ↔
      ∀ r ∈ rets, r.rip < cfg.userTop :=
    ⟨fun h r hr => (h r hr).1, fun h r hr => ⟨h r hr, .inl (h r hr)⟩⟩
  rw [hcanonical]
  cases hstep with
  | resolved hrip => simpa [Act.Unsafe] using hrip
  | handled hrip hrsp h =>
    rcases handleUserException_cases h with he | ⟨hd, he⟩ | ⟨z, he, -⟩
    · cases he
    · cases he
      simp only [delivers, Bool.and_eq_true] at hd
      have hlt := (hok _).handler hd.1.1.1
      simpa [Act.Unsafe, startHandler] using hlt
    · cases he
  | returned huser hrip hrsp himage h => exact returned_rip_iff hok huser hrip himage h
  | fatal | killed | exit | spawn | rest => exact absurd rfl hret

end Return

/-- Setting up a handler returns to the next instruction. -/
theorem return_address_iff_faultctl : ∃ rets, UserStep Vmm.fourLevels
    (.call 0 false .syscall (interrupted 0 0) (.writeFaultctl pageFaultCtl)) rets oneTask
      withHandler ∧ ∀ r ∈ rets, r.rip < Vmm.fourLevels.userTop ∧
        Vmm.Canonical Vmm.fourLevels r.rip := by
  have hzero : ∀ t, oneTask.fault t = .zero := fun _ => rfl
  refine ⟨_, step_withHandler, (return_address_iff hzero .refl step_withHandler ?_).mpr ?_⟩
  · exact cons_ne_nil _ _
  · exact fun hunsafe => nomatch hunsafe.1

/-- An answer with an address in the middle of nowhere, which `sysret` loads. -/
theorem return_address_noncanonical :
    ¬∀ (cfg : Vmm.Config) (y₀ y y' : Proc) (act : Act) (rets : List Regs),
      (∀ t, y₀.fault t = .zero) →
      ReflTransGen (fun a b => ∃ act rets, UserStep cfg act rets a b) y₀ y →
      UserStep cfg act rets y y' →
      ∀ r ∈ rets, r.rip < cfg.userTop ∧ Vmm.Canonical cfg r.rip := by
  intro hall
  have hzero : ∀ t, oneTask.fault t = .zero := fun _ => rfl
  obtain ⟨b, z, h⟩ := systemCall_answer (y := inHandler (interrupted 0 0)) (c := 0) (g := .syscall)
    (fun virt size isWrite => Vmm.userRangeMapped Vmm.fourLevels bareMemory none virt size isWrite
      0) (interrupted 0 0) ⟨2, 0, 2 ^ 62, 0⟩ 0 ⟨fun _ => true, true⟩
    (r := { interrupted 0 0 with rip := 2 ^ 62 }) rfl
    (show dispatches .syscall false = true from rfl) rfl rfl rfl rfl
  have hlt := hall Vmm.fourLevels oneTask (inHandler (interrupted 0 0)) z _ _ hzero
    (.tail (.single ⟨_, _, step_withHandler⟩)
      ⟨_, _, .handled (by decide) (by decide) (delivered (interrupted 0 0))⟩)
    (.returned rfl (by decide) (by decide) (fun _ he => by cases he) h) _ mem_cons_self
  exact absurd hlt.1 (by decide)

end RHKernel.Sched
