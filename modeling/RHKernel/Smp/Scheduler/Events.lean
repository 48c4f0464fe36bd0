import RHKernel.File.Fd
import RHKernel.Smp.Scheduler.Model

/-!
# Events, faults and the end of a task

What `scheduler.cpp` adds to a task besides its place in the run queues: a queue of events, the
handling of faults in user mode, a pending kill; and what goes with the task when it ends, its
descriptors and the lease of the framebuffer (`device.cpp`).

A task ends in four ways: `exit`, a fault that nobody handles, a fault handler that gives up, and a
pending kill. Each of them is a function of its own in the source, and here too. Ring buffers are
lists. Files and tasks have the numbers of `Fd` and of the scheduler.
-/

namespace RHKernel.Sched

open Function

def taskEventForceKill : ℕ := 2

def taskEventExit : ℕ := 3

def taskEventKilled : ℕ := 4

def taskEventFaulted : ℕ := 5

def taskEventPageFault : ℕ := 6

def taskEventQueueSize : ℕ := 64

def taskEventDataSize : ℕ := 32

def taskEventFDropped : ℕ := 1

def taskEventFTruncated : ℕ := 2

/-- `valid_user_event_type`: quit, force kill and user. -/
def validUserEventType (type : ℕ) : Bool := type = 1 || type = taskEventForceKill || type = 16

/-- `fault_event_type`: the types from page fault to alignment fault, and user fault. -/
def faultEventType (type : ℕ) : Bool :=
  decide (taskEventPageFault ≤ type) && decide (type ≤ 15) || type = 17

def fatalCodeFor (type : ℕ) : ℤ := (0x10000 ||| type : ℕ)

/-- The conversion of a 64-bit code to `int`. -/
def toCode (code : ℤ) : ℤ := Int.bmod code (2 ^ 32)

structure TaskEvent where
  type : ℕ
  flags : ℕ
  source : ℕ
  target : ℕ
  code : ℤ
  detail : ℕ
  dataLen : ℕ
  data : List UInt8
  deriving DecidableEq

structure EventQueue where
  entries : List TaskEvent
  dropped : ℕ
  deriving DecidableEq

/-- `enqueue_event_locked` on the queue of a task that lives. -/
def EventQueue.push (q : EventQueue) (ev : TaskEvent) : Bool × EventQueue :=
  if taskEventQueueSize ≤ q.entries.length then
    (false, { q with dropped := if q.dropped = 2 ^ 32 - 1 then q.dropped else q.dropped + 1 })
  else if q.dropped ≠ 0 then
    (true, ⟨q.entries ++ [{ ev with flags := ev.flags ||| taskEventFDropped }], 0⟩)
  else (true, ⟨q.entries ++ [ev], 0⟩)

/-! ### Faults and kills -/

/-- `regs`: what is on the kernel stack of a task that has come from user mode. -/
structure Regs where
  r15 : ℕ
  r14 : ℕ
  r13 : ℕ
  r12 : ℕ
  r11 : ℕ
  r10 : ℕ
  r9 : ℕ
  r8 : ℕ
  rbp : ℕ
  rdi : ℕ
  rsi : ℕ
  rdx : ℕ
  rcx : ℕ
  rbx : ℕ
  rax : ℕ
  intNo : ℕ
  errCode : ℕ
  rip : ℕ
  cs : ℕ
  rflags : ℕ
  rsp : ℕ
  ss : ℕ
  deriving DecidableEq

structure FaultRegs where
  r15 : ℕ
  r14 : ℕ
  r13 : ℕ
  r12 : ℕ
  r11 : ℕ
  r10 : ℕ
  r9 : ℕ
  r8 : ℕ
  rbp : ℕ
  rdi : ℕ
  rsi : ℕ
  rdx : ℕ
  rcx : ℕ
  rbx : ℕ
  rax : ℕ
  rip : ℕ
  rflags : ℕ
  rsp : ℕ
  deriving DecidableEq

def Regs.toFaultRegs (r : Regs) : FaultRegs where
  r15 := r.r15
  r14 := r.r14
  r13 := r.r13
  r12 := r.r12
  r11 := r.r11
  r10 := r.r10
  r9 := r.r9
  r8 := r.r8
  rbp := r.rbp
  rdi := r.rdi
  rsi := r.rsi
  rdx := r.rdx
  rcx := r.rcx
  rbx := r.rbx
  rax := r.rax
  rip := r.rip
  rflags := r.rflags
  rsp := r.rsp

structure FaultCtl where
  version : ℕ
  flags : ℕ
  eventMask : ℕ
  handlerIp : ℕ
  handlerSp : ℕ
  maxDepth : ℕ

structure FaultFrame where
  event : TaskEvent
  regs : FaultRegs
  faultAddress : ℕ
  cpuError : ℕ
  archVector : ℕ
  depth : ℕ

/-- The fields of `task_fault_return` that the kernel reads; its registers are not among them. -/
structure FaultReturn where
  action : ℕ
  code : ℤ
  resumeIp : ℕ
  resumeSp : ℕ

structure FaultState where
  ctl : FaultCtl
  frame : FaultFrame
  result : FaultReturn
  savedRegs : Regs
  active : Bool
  returnPending : Bool
  depth : ℕ

/-- `kill_pending`, `kill_code` and `kill_source`. -/
structure KillState where
  pending : Bool
  code : ℤ
  source : ℕ

/-! ### The lease of the framebuffer -/

structure FbFileState where
  taskId : ℕ
  ownsLease : Bool
  deriving DecidableEq

/-- `fb_lease_owner`, `fb_lease_refs` and the device contexts of open files. -/
structure Lease where
  owner : ℕ
  refs : ℕ
  ctx : ℕ → Option FbFileState

/-- `fb_drop_lease`. -/
def Lease.drop (l : Lease) (state : FbFileState) : Lease :=
  if state.ownsLease && l.owner == state.taskId && decide (0 < l.refs) then
    { l with
      owner := if l.refs - 1 = 0 then 0 else l.owner
      refs := l.refs - 1 }
  else l

/-- `devfs_close_file` on a file of the framebuffer, with `fb_close`. -/
def Lease.closeFile (l : Lease) (f : ℕ) : Lease :=
  match l.ctx f with
  | none => l
  | some state => { l.drop state with ctx := update l.ctx f none }

def Lease.releaseTaskResources (l : Lease) (id : ℕ) : Lease :=
  if id ≠ 0 ∧ l.owner = id then { l with owner := 0, refs := 0 } else l

/-! ### Tasks and what they own -/

/-- The scheduler, and of every task whether it is a user task, its events, faults, kill and
descriptors; the lease. -/
structure Proc where
  sched : State
  user : ℕ → Bool
  events : ℕ → EventQueue
  fault : ℕ → FaultState
  kill : ℕ → KillState
  fd : Fd.State
  lease : Lease

namespace Proc

open Step

def withSched (y : Proc) (sched : State) : Proc := { y with sched := sched }

def withEvents (y : Proc) (t : ℕ) (q : EventQueue) : Proc :=
  { y with events := update y.events t q }

def withFault (y : Proc) (t : ℕ) (f : FaultState → FaultState) : Proc :=
  { y with fault := update y.fault t (f (y.fault t)) }

def withKill (y : Proc) (t : ℕ) (k : KillState) : Proc :=
  { y with kill := update y.kill t k }

def enqueueEventLocked (y : Proc) (t : ℕ) (ev : TaskEvent) : Bool × Proc :=
  if (y.sched.task t).state = .zombie then (false, y)
  else
    let (ok, q) := (y.events t).push ev
    (ok, y.withEvents t q)

/-- The event with which `notify_parent_exit_locked` tells the parent. -/
def exitEvent (s : State) (child parent type : ℕ) (code : ℤ) (detail : ℕ) : TaskEvent where
  type := type
  flags := 0
  source := (s.task child).id
  target := (s.task parent).id
  code := code
  detail := detail
  dataLen := 0
  data := []

def notifyParentExitLocked (y : Proc) (child type : ℕ) (code : ℤ) (detail : ℕ) : Proc :=
  match (y.sched.task child).parent with
  | none => y
  | some p => (y.enqueueEventLocked p (exitEvent y.sched child p type code detail)).2

/-- `terminate_current_locked` on CPU `c`. -/
def terminateCurrentLocked (y : Proc) (c current : ℕ) (code : ℤ) (parentType detail : ℕ) :
    Except String Proc := do
  let s := y.sched.setTask current fun k => { k with exitCode := code, state := .zombie }
  let y := y.withFault current fun f => { f with active := false, returnPending := false }
  let s ← reparentChildren s c current
  .ok ((y.withSched s).notifyParentExitLocked current parentType code detail)

/-- `close_fd` with the device that a file may belong to. -/
def closeFd (y : Proc) (t : ℕ) (fd : ℤ) : Proc :=
  match Fd.getFile fd (y.fd.tasks t) with
  | none => y
  | some f =>
    let (_, node, fds) := Fd.closeFd y.fd t fd
    { y with
      fd := fds
      lease := if node.isSome then y.lease.closeFile f else y.lease }

/-- The loop over the descriptors of a task that ends. -/
def closeFds (y : Proc) (t : ℕ) : Proc :=
  (List.range (y.fd.tasks t).fdCapacity).foldl (fun y i => y.closeFd t (Fd.toInt i)) y

/-- `wake_blocked_or_waiting`; nothing happens without a task, or if its last CPU does not exist. -/
def wakeBlockedOrWaiting (y : Proc) (t : Option ℕ) (locks : TryLocks) : Except String Proc :=
  match t with
  | none => .ok y
  | some t =>
    if y.sched.cores ≤ (y.sched.task t).lastCpuIndex then .ok y
    else do
      let (_, s) ← Sched.wakeBlockedOrWaiting y.sched (y.sched.task t).lastCpuIndex t locks
      .ok (y.withSched s)

/-- `exit` wakes the parent without asking for its last CPU. -/
def wakeParent (s : State) (c : ℕ) (parent : Option ℕ) (locks : TryLocks) : Except String State :=
  match parent with
  | none => .ok s
  | some p =>
    if (s.task p).state = .blocked ∨ (s.task p).state = .waiting then
      enqueueReadyOnBestCpu (s.setState p .ready) c p locks
    else .ok s

/-- `exit` on CPU `c`. -/
def exit (y : Proc) (c : ℕ) (code : ℤ) (locks : TryLocks) : Except String Proc :=
  let current := y.sched.currentTask c
  if (y.sched.task current).id = 1 then .error "init process exited"
  else do
    let y ← y.terminateCurrentLocked c current code taskEventExit 0
    let s ← wakeParent y.sched c (y.sched.task current).parent locks
    let y := y.withSched s
    let y := { y with lease := y.lease.releaseTaskResources (y.sched.task current).id }
    .ok (y.closeFds current)

/-- The end that a fatal fault, a fault handler and a kill have in common. -/
def endCurrent (y : Proc) (c current : ℕ) (code : ℤ) (type detail : ℕ) (locks : TryLocks) :
    Except String Proc := do
  let parent := (y.sched.task current).parent
  let y ← y.terminateCurrentLocked c current code type detail
  (y.closeFds current).wakeBlockedOrWaiting parent locks

/-- What becomes of a task that may end: it goes on, with the registers and the state, or it has
ended. -/
inductive Outcome where
  | goesOn (handled : Bool) (r : Regs) (y : Proc)
  | ended (y : Proc)

def Outcome.isEnded : Outcome → Bool
  | .goesOn _ _ _ => false
  | .ended _ => true

/-- The part of `handle_user_exception` that starts a handler. -/
def startHandler (y : Proc) (current : ℕ) (r : Regs) (type detail : ℕ) : Regs × Proc :=
  let fault := y.fault current
  let ctl := fault.ctl
  let frame : FaultFrame :=
    { event :=
        { type := type
          flags := 12
          source := (y.sched.task current).id
          target := (y.sched.task current).id
          code := fatalCodeFor type
          detail := detail
          dataLen := 0
          data := [] }
      regs := r.toFaultRegs
      faultAddress := if type = taskEventPageFault then detail else 0
      cpuError := r.errCode
      archVector := r.intNo
      depth := fault.depth + 1 }
  ({ r with
      rip := ctl.handlerIp
      rsp := if ctl.handlerSp ≠ 0 then ctl.handlerSp else r.rsp
      rdi := type
      rsi := detail
      rdx := r.errCode },
    y.withFault current fun f =>
      { f with
        ctl := if ctl.flags.testBit 1 then { ctl with flags := ctl.flags &&& (2 ^ 32 - 2) } else ctl
        frame := frame
        savedRegs := r
        active := true
        returnPending := false
        depth := f.depth + 1 })

/-- `handle_user_exception` finds that the handler of `t` is to be started. -/
def delivers (y : Proc) (t type : ℕ) : Bool :=
  let fault := y.fault t
  let maxDepth := if fault.ctl.maxDepth ≠ 0 then fault.ctl.maxDepth else 1
  fault.ctl.flags.testBit 0 && fault.ctl.eventMask.testBit type && !fault.active &&
    decide (fault.depth < maxDepth)

/-- `handle_user_exception` on CPU `c`. -/
def handleUserException (y : Proc) (c : ℕ) (r : Regs) (type detail : ℕ) (locks : TryLocks) :
    Except String Outcome :=
  let current := y.sched.currentTask c
  if !faultEventType type || !y.user current then .ok (.goesOn false r y)
  else if y.delivers current type then
    let (r, y) := y.startHandler current r type detail
    .ok (.goesOn true r y)
  else do
    let y ← y.endCurrent c current (fatalCodeFor type) taskEventFaulted detail locks
    .ok (.ended y)

/-- `complete_fault_return_if_pending` finds an answer of `t`. -/
def answered (y : Proc) (t : ℕ) : Bool :=
  y.user t && (y.fault t).active && (y.fault t).returnPending

/-- The registers with which a task goes on after its answer, if it goes on. -/
def resumed (fault : FaultState) : Option Regs :=
  let saved := fault.savedRegs
  if fault.result.action = 1 then some saved
  else if fault.result.action = 2 then
    some { saved with
      rip := if fault.result.resumeIp ≠ 0 then fault.result.resumeIp else saved.rip
      rsp := if fault.result.resumeSp ≠ 0 then fault.result.resumeSp else saved.rsp }
  else none

def settled (y : Proc) (t : ℕ) : Proc :=
  y.withFault t fun f => { f with active := false, returnPending := false, depth := f.depth - 1 }

/-- `complete_fault_return_if_pending` on CPU `c`. -/
def completeFaultReturnIfPending (y : Proc) (c : ℕ) (r : Regs) (locks : TryLocks) :
    Except String Outcome :=
  let current := y.sched.currentTask c
  let fault := y.fault current
  if !y.answered current then .ok (.goesOn false r y)
  else
    let y := y.settled current
    match resumed fault with
    | some r => .ok (.goesOn true r y)
    | none => do
      let code := if fault.result.action = 3 ∧ fault.result.code ≠ 0 then toCode fault.result.code
        else fatalCodeFor fault.frame.event.type
      let y ← y.endCurrent c current code taskEventFaulted fault.frame.event.detail locks
      .ok (.ended y)

/-- `apply_pending_kill` finds that `t` is to be killed. -/
def doomed (y : Proc) (t : ℕ) : Bool := y.user t && (y.kill t).pending

/-- `apply_pending_kill` on CPU `c`. -/
def applyPendingKill (y : Proc) (c : ℕ) (r : Regs) (locks : TryLocks) : Except String Outcome :=
  let current := y.sched.currentTask c
  let kill := y.kill current
  if !y.doomed current then .ok (.goesOn false r y)
  else do
    let code := if kill.code ≠ 0 then kill.code else fatalCodeFor taskEventForceKill
    let y := y.withKill current ⟨false, kill.code, 0⟩
    let y ← y.endCurrent c current code taskEventKilled kill.source locks
    .ok (.ended y)

/-! ### What a task reads and writes about itself -/

/-- `write_faultctl` of the task `t` itself; `mapped` is `user_range_mapped` in its address
space. -/
def writeFaultctl (mapped : ℕ → ℕ → Bool → Bool) (y : Proc) (t : ℕ) (ctl : FaultCtl) :
    Bool × Proc :=
  let enabled := ctl.flags.testBit 0
  if ctl.version ≠ 1 then (false, y)
  else if 4 ≤ ctl.flags then (false, y)
  else if enabled && ctl.handlerIp == 0 then (false, y)
  else if 8 < ctl.maxDepth then (false, y)
  else if enabled && !mapped ctl.handlerIp 1 false then (false, y)
  else if decide (ctl.handlerSp ≠ 0) &&
      (decide (ctl.handlerSp < 16) || !mapped (ctl.handlerSp - 16) 16 true) then (false, y)
  else if (y.fault t).active then (false, y)
  else
    -- bits 6 to 15 and 17 stand for the types of faults
    (true, y.withFault t fun f =>
      { f with ctl := { ctl with eventMask := ctl.eventMask &&& 0x2FFC0 } })

/-- `read_fault` of the task `t` itself. -/
def readFault (y : Proc) (t : ℕ) : Option FaultFrame :=
  if (y.fault t).active then some (y.fault t).frame else none

/-- `write_fault_return` of the task `t` itself. -/
def writeFaultReturn (y : Proc) (t : ℕ) (result : FaultReturn) : Bool × Proc :=
  if 3 < result.action then (false, y)
  else if (y.fault t).active && !(y.fault t).returnPending then
    (true, y.withFault t fun f => { f with result := result, returnPending := true })
  else (false, y)

/-! ### Sending and reading events -/

/-- One event of `send_event`; `none` stops the loop. -/
def sendOne (y : Proc) (sender target : ℕ) (ev : TaskEvent) : Option Proc :=
  if !validUserEventType ev.type || decide (taskEventDataSize < ev.dataLen) then none
  else
    let ev := { ev with
      source := (y.sched.task sender).id
      target := (y.sched.task target).id
      flags := ev.flags &&& taskEventFTruncated }
    if ev.type = taskEventForceKill then
      if sender ≠ target ∧ (y.sched.task target).parent ≠ some sender then none
      else
        some (y.withKill target ⟨true, if ev.code ≠ 0 then toCode ev.code
          else fatalCodeFor taskEventForceKill, (y.sched.task sender).id⟩)
    else
      match y.enqueueEventLocked target ev with
      | (true, y) => some y
      | (false, _) => none

/-- The loop of `send_event`: the number of events accepted, and the state. -/
def sendLoop (sender target : ℕ) : List TaskEvent → Proc → ℕ × Proc
  | [], y => (0, y)
  | ev :: rest, y =>
    match y.sendOne sender target ev with
    | none => (0, y)
    | some y => ((sendLoop sender target rest y).1 + 1, (sendLoop sender target rest y).2)

/-- The critical section of `send_event`; `target` is then woken if the number is not zero. -/
def sendEvent (y : Proc) (sender target : ℕ) (events : List TaskEvent) : ℕ × Proc :=
  if !y.user target then (0, y) else sendLoop sender target events y

/-- How a round of `read_event` ends. -/
inductive ReadResult where
  | done (events : List TaskEvent)
  | blocked

/-- One round of `read_event` on CPU `c`, for at most `count` events. -/
def readEvent (y : Proc) (c count : ℕ) (block : Bool) : ReadResult × Proc :=
  let current := y.sched.currentTask c
  let q := y.events current
  if q.entries ≠ [] then
    (.done (q.entries.take count), y.withEvents current { q with entries := q.entries.drop count })
  else if !block then (.done [], y)
  else (.blocked, y.withSched (blockCurrent y.sched c .waiting).2)

section Frame

variable {y y' : Proc} {c t type detail : ℕ} {locks : TryLocks}

@[simp]
theorem withFault_fault (f : FaultState → FaultState) :
    (y.withFault t f).fault = update y.fault t (f (y.fault t)) := rfl

@[simp]
theorem enqueueEventLocked_fault (ev : TaskEvent) :
    (y.enqueueEventLocked t ev).2.fault = y.fault := by
  unfold enqueueEventLocked
  split <;> rfl

theorem notifyParentExitLocked_fault (type : ℕ) (code : ℤ) (detail : ℕ) :
    (y.notifyParentExitLocked t type code detail).fault = y.fault := by
  unfold notifyParentExitLocked
  split
  · rfl
  · rw [enqueueEventLocked_fault]

theorem closeFd_fault (fd : ℤ) : (y.closeFd t fd).fault = y.fault := by
  unfold closeFd
  split <;> rfl

theorem closeFds_fault : (y.closeFds t).fault = y.fault := by
  unfold closeFds
  induction List.range (y.fd.tasks t).fdCapacity generalizing y with
  | nil => rfl
  | cons i l ih => rw [List.foldl_cons, ih, closeFd_fault]

theorem wakeBlockedOrWaiting_fault {o : Option ℕ} (h : y.wakeBlockedOrWaiting o locks = .ok y') :
    y'.fault = y.fault := by
  unfold wakeBlockedOrWaiting at h
  split at h
  · cases h
    rfl
  split at h
  · cases h
    rfl
  · obtain ⟨x, -, h⟩ := ok_bind h
    cases h
    rfl

theorem terminateCurrentLocked_fault {code : ℤ}
    (h : y.terminateCurrentLocked c t code type detail = .ok y') :
    y'.fault = update y.fault t { y.fault t with active := false, returnPending := false } := by
  obtain ⟨s, -, h⟩ := ok_bind h
  cases h
  rw [notifyParentExitLocked_fault]
  rfl

theorem endCurrent_fault {code : ℤ}
    (h : y.endCurrent c t code type detail locks = .ok y') :
    y'.fault = update y.fault t { y.fault t with active := false, returnPending := false } := by
  obtain ⟨y1, h1, h⟩ := ok_bind h
  rw [wakeBlockedOrWaiting_fault h, closeFds_fault, terminateCurrentLocked_fault h1]

theorem exit_fault {code : ℤ} (h : y.exit c code locks = .ok y') :
    y'.fault = update y.fault (y.sched.currentTask c)
      { y.fault (y.sched.currentTask c) with active := false, returnPending := false } := by
  unfold exit at h
  simp only at h
  split at h
  · cases h
  obtain ⟨y1, h1, h⟩ := ok_bind h
  obtain ⟨s, -, h⟩ := ok_bind h
  cases h
  have hfault := terminateCurrentLocked_fault h1
  rw [closeFds_fault]
  exact hfault

end Frame

end Proc

end RHKernel.Sched
