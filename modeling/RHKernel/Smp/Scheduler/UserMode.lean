import RHKernel.File.Elf.Model
import RHKernel.Memory.Vmm.UserRange
import RHKernel.Smp.Scheduler.Events

/-!
# Into the kernel and back

A task enters the kernel with `syscall`, with interrupt `0x80`, with `sysenter`, or by an exception,
and returns to user mode by `sysret`, `sysexit` or `iretq`. What `syscall.asm` and `idt.asm` do to
the registers on both ways is modelled here, together with `syscall_handler` around the calls that
touch the fault handling of a task.

A step is one way of a task into the kernel and back. Only the task itself reads or writes its fault
state, so what other tasks do while it is in the kernel can as well be done before.
-/

namespace RHKernel.Sched

open Step Function

def ucode32Sel : ℕ := 0x1B

def udata32Sel : ℕ := 0x23

def udata64Sel : ℕ := 0x2B

def ucode64Sel : ℕ := 0x33

def intSysenter : ℕ := 0x81

/-- The ways to make a system call. -/
inductive Gate where
  | syscall
  | int80
  | sysenter
  deriving DecidableEq, Repr

/-- The frame on the kernel stack when a task with the registers `u` makes a system call; `rip` is
the address of the next instruction. `sysenter` saves neither it nor `rsp`. -/
def Gate.enter (g : Gate) (u : Regs) : Regs :=
  match g with
  | .syscall => { u with
      rcx := u.rip
      r11 := u.rflags
      intNo := 0
      errCode := 0
      cs := ucode64Sel
      ss := udata64Sel }
  | .int80 => { u with intNo := 128, errCode := 0 }
  | .sysenter => { u with
      intNo := intSysenter
      errCode := 0
      rip := u.rdx
      cs := ucode32Sel
      rflags := (u.rflags ||| 0x200) &&& (2 ^ 64 - 1 - 0x400)
      rsp := u.rcx
      ss := udata32Sel }

/-- The flags that user mode can see: all but `RF`, `VM` and the reserved ones. -/
def shownFlags (rflags : ℕ) : ℕ := (rflags &&& 0x3C7FD7) ||| 2

/-- `sysret`: `rip` comes from `rcx` and the flags from `r11`. -/
def sysret (f : Regs) : Regs :=
  { f with rcx := f.rip, r11 := f.rflags, rflags := shownFlags f.rflags }

/-- `sysexit`: `rip` comes from `rdx` and `rsp` from `rcx`; `popfq` and `sti` have set the flags. -/
def sysexit (f : Regs) : Regs :=
  { f with
    rdx := f.rip
    rcx := f.rsp
    r11 := (f.rflags &&& 0x8D5) ||| 2
    rflags := (f.rflags &&& 0x8D5) ||| 2 ||| 0x200 }

/-- The registers in user mode after the frame has been taken down. -/
def Gate.leave (g : Gate) (f : Regs) : Regs :=
  match g with
  | .syscall => if f.cs = ucode64Sel ∧ f.ss = udata64Sel then sysret f else f
  | .int80 => f
  | .sysenter =>
    if f.intNo = intSysenter ∧ f.cs = ucode32Sel ∧ f.ss = udata32Sel ∧ f.rip ≤ 0xFFFFFFFF ∧
        f.rsp ≤ 0xFFFFFFFF ∧ f.rflags &&& 0x34100 = 0 then sysexit f else f

/-- What a program can see of its registers. -/
def Regs.visible (r : Regs) : FaultRegs := { r.toFaultRegs with rflags := shownFlags r.rflags }

/-! ### System calls -/

/-- What `exec` takes from the image it has loaded, and the stack it has prepared. -/
structure Image where
  is32bit : Bool
  imageStart : ℕ
  imageEnd : ℕ
  entry : ℕ
  stackPtr : ℕ
  argc : ℕ
  argvPtr : ℕ
  auxvPtr : ℕ

/-- What `elf::load` has checked of an image that it returns. -/
def Image.Accepted (cfg : Vmm.Config) (image : Image) : Prop :=
  image.imageEnd < (if image.is32bit then Elf.user32Top else cfg.userTop) ∧
    (image.is32bit → image.entry ≤ 0xFFFFFFFF) ∧
      Elf.vaInLoadedRange image.entry 1 image.imageStart image.imageEnd = true

/-- The calls that touch the fault state of a task, and all others. -/
inductive Call where
  | writeFaultctl (ctl : FaultCtl)
  | writeFaultReturn (result : FaultReturn)
  | sendEvent (target : ℕ) (events : List TaskEvent)
  | exec (image : Image)
  | clone (child : ℕ) (stack : ℕ)
  | other

/-- The fault state of a new task. -/
def FaultState.zero : FaultState where
  ctl := ⟨0, 0, 0, 0, 0, 0⟩
  frame := ⟨⟨0, 0, 0, 0, 0, 0, 0, []⟩, ⟨0, 0, 0, 0, 0, 0, 0, 0, 0, 0, 0, 0, 0, 0, 0, 0, 0, 0⟩,
    0, 0, 0, 0⟩
  result := ⟨0, 0, 0, 0⟩
  savedRegs := ⟨0, 0, 0, 0, 0, 0, 0, 0, 0, 0, 0, 0, 0, 0, 0, 0, 0, 0, 0, 0, 0, 0⟩
  active := false
  returnPending := false
  depth := 0

/-- The frame that `exec` leaves. -/
def Image.frame (image : Image) : Regs where
  r15 := 0
  r14 := 0
  r13 := 0
  r12 := 0
  r11 := 0
  r10 := 0
  r9 := 0
  r8 := 0
  rbp := 0
  rdi := if image.is32bit then 0 else image.argc
  rsi := if image.is32bit then 0 else image.argvPtr
  rdx := if image.is32bit then 0 else image.auxvPtr
  rcx := 0
  rbx := 0
  rax := 0
  intNo := 0
  errCode := 0
  rip := image.entry
  cs := if image.is32bit then ucode32Sel else ucode64Sel
  rflags := 0x202
  rsp := image.stackPtr
  ss := if image.is32bit then udata32Sel else udata64Sel

namespace Proc

/-- The frame and the state after a call, for `finish_user_syscall`. -/
def run (mapped : ℕ → ℕ → Bool → Bool) (y : Proc) (t : ℕ) (r : Regs) : Call → Regs × Proc
  | .writeFaultctl ctl => (r, (y.writeFaultctl mapped t ctl).2)
  | .writeFaultReturn result => (r, (y.writeFaultReturn t result).2)
  | .sendEvent target events => (r, (y.sendEvent t target events).2)
  | .exec image =>
    (image.frame, ((y.withEvents t ⟨[], 0⟩).withFault t fun _ => .zero).withKill t ⟨false, 0, 0⟩)
  | .clone child _ =>
    (r, ((y.withEvents child ⟨[], 0⟩).withFault child fun _ =>
      { FaultState.zero with ctl := (y.fault t).ctl }).withKill child ⟨false, 0, 0⟩)
  | .other => (r, y)

def finishUserSyscall (y : Proc) (c : ℕ) (r : Regs) (result : ℕ) (locks : TryLocks) :
    Except String Outcome := do
  match ← y.completeFaultReturnIfPending c { r with rax := result } locks with
  | .ended y => .ok (.ended y)
  | .goesOn true r y => .ok (.goesOn true r y)
  | .goesOn false r y => y.applyPendingKill c r locks

/-- `syscall_handler` on CPU `c`, with the result that its call gives; `compat` tells whether the
task is a 32-bit one. -/
def syscallHandler (mapped : ℕ → ℕ → Bool → Bool) (y : Proc) (c : ℕ) (compat : Bool) (r : Regs)
    (call : Call) (result : ℕ) (locks : TryLocks) : Except String Outcome := do
  match ← y.applyPendingKill c r locks with
  | .ended y => .ok (.ended y)
  | .goesOn _ r y =>
    if r.intNo = 128 ∧ !compat then y.finishUserSyscall c r (2 ^ 64 - 1) locks
    else if r.intNo = intSysenter ∧ !compat then
      y.finishUserSyscall c { r with cs := ucode64Sel, ss := udata64Sel } (2 ^ 64 - 1) locks
    else if r.intNo = 0 ∧ compat then
      y.finishUserSyscall c { r with cs := ucode32Sel, ss := udata32Sel } (2 ^ 64 - 1) locks
    else
      let (r, y) := y.run mapped (y.sched.currentTask c) r call
      y.finishUserSyscall c r result locks

/-- `idt_handler` looks for an answer and a kill once more. -/
def lookAgain (y : Proc) (c : ℕ) (r : Regs) (locks : TryLocks) : Except String Outcome := do
  match ← y.completeFaultReturnIfPending c r locks with
  | .ended y => .ok (.ended y)
  | .goesOn _ r y => y.applyPendingKill c r locks

/-- A system call from the gate until the frame is taken down. -/
def systemCall (mapped : ℕ → ℕ → Bool → Bool) (y : Proc) (c : ℕ) (compat : Bool) (g : Gate)
    (u : Regs) (call : Call) (result : ℕ) (locks : TryLocks) : Except String Outcome := do
  match ← y.syscallHandler mapped c compat (g.enter u) call result locks with
  | .ended y => .ok (.ended y)
  | .goesOn b r y => if g = .int80 then y.lookAgain c r locks else .ok (.goesOn b r y)

section Cases

variable {y y' : Proc} {c type detail t result sender target : ℕ} {r u : Regs} {locks : TryLocks}
  {o : Outcome}
  {mapped : ℕ → ℕ → Bool → Bool} {call : Call} {g : Gate} {compat b : Bool}

theorem handleUserException_cases (h : y.handleUserException c r type detail locks = .ok o) :
    o = .goesOn false r y ∨
      y.delivers (y.sched.currentTask c) type = true ∧
        o = .goesOn true (y.startHandler (y.sched.currentTask c) r type detail).1
          (y.startHandler (y.sched.currentTask c) r type detail).2 ∨
      ∃ y', o = .ended y' ∧ y.endCurrent c (y.sched.currentTask c) (fatalCodeFor type)
        taskEventFaulted detail locks = .ok y' := by
  unfold handleUserException at h
  simp only at h
  split at h
  · cases h
    exact .inl rfl
  split_ifs at h with hd
  · cases h
    exact .inr (.inl ⟨hd, rfl⟩)
  · obtain ⟨y', h1, h⟩ := ok_bind h
    cases h
    exact .inr (.inr ⟨y', rfl, h1⟩)

theorem completeFaultReturnIfPending_cases (h : y.completeFaultReturnIfPending c r locks = .ok o) :
    y.answered (y.sched.currentTask c) = false ∧ o = .goesOn false r y ∨
      y.answered (y.sched.currentTask c) = true ∧
        ((∃ r', resumed (y.fault (y.sched.currentTask c)) = some r' ∧
          o = .goesOn true r' (y.settled (y.sched.currentTask c))) ∨
        ∃ y' code type detail, o = .ended y' ∧
          (y.settled (y.sched.currentTask c)).endCurrent c (y.sched.currentTask c) code type detail
            locks = .ok y') := by
  unfold completeFaultReturnIfPending at h
  simp only [Bool.not_eq_true'] at h
  split at h
  · rename_i hn
    cases h
    exact .inl ⟨hn, rfl⟩
  rename_i hn
  refine .inr ⟨Bool.not_eq_false _ ▸ hn, ?_⟩
  split at h
  · rename_i r' hr
    cases h
    exact .inl ⟨r', hr, rfl⟩
  · obtain ⟨y', h1, h⟩ := ok_bind h
    cases h
    exact .inr ⟨y', _, _, _, rfl, h1⟩

theorem applyPendingKill_cases (h : y.applyPendingKill c r locks = .ok o) :
    y.doomed (y.sched.currentTask c) = false ∧ o = .goesOn false r y ∨
      y.doomed (y.sched.currentTask c) = true ∧ ∃ y' k code detail, o = .ended y' ∧
        (y.withKill (y.sched.currentTask c) k).endCurrent c (y.sched.currentTask c) code
          taskEventKilled detail locks = .ok y' := by
  unfold applyPendingKill at h
  simp only [Bool.not_eq_true'] at h
  split at h
  · rename_i hn
    cases h
    exact .inl ⟨hn, rfl⟩
  · rename_i hn
    obtain ⟨y', h1, h⟩ := ok_bind h
    cases h
    exact .inr ⟨Bool.not_eq_false _ ▸ hn, y', _, _, _, rfl, h1⟩

/-- `t` has ended and its faults stand at `depth`. -/
def EndsWith (y y' : Proc) (t depth : ℕ) : Prop :=
  y'.fault = update y.fault t
    { y.fault t with active := false, returnPending := false, depth := depth }

theorem settled_endsWith {code : ℤ}
    (h : (y.settled t).endCurrent c t code type detail locks = .ok y') :
    EndsWith y y' t ((y.fault t).depth - 1) := by
  rw [EndsWith, endCurrent_fault h, settled, withFault_fault, update_idem, update_self]

theorem killed_endsWith {k : KillState} {code : ℤ}
    (h : (y.withKill t k).endCurrent c t code type detail locks = .ok y') :
    EndsWith y y' t (y.fault t).depth := by
  have hfault := endCurrent_fault h
  exact hfault

theorem finishUserSyscall_cases (h : y.finishUserSyscall c r result locks = .ok o) :
    y.answered (y.sched.currentTask c) = true ∧
        ((∃ r', resumed (y.fault (y.sched.currentTask c)) = some r' ∧
          o = .goesOn true r' (y.settled (y.sched.currentTask c))) ∨
        ∃ y', o = .ended y' ∧ EndsWith y y' (y.sched.currentTask c)
          ((y.fault (y.sched.currentTask c)).depth - 1)) ∨
      y.answered (y.sched.currentTask c) = false ∧
        (y.doomed (y.sched.currentTask c) = false ∧ o = .goesOn false { r with rax := result } y ∨
        y.doomed (y.sched.currentTask c) = true ∧ ∃ y', o = .ended y' ∧
          EndsWith y y' (y.sched.currentTask c) (y.fault (y.sched.currentTask c)).depth) := by
  obtain ⟨o1, h1, h⟩ := ok_bind h
  rcases completeFaultReturnIfPending_cases h1 with ⟨ha, rfl⟩ | ⟨ha, ⟨r', hr, rfl⟩ | he⟩
  · refine .inr ⟨ha, ?_⟩
    rcases applyPendingKill_cases h with ⟨hd, rfl⟩ | ⟨hd, y', k, code, detail, rfl, h2⟩
    · exact .inl ⟨hd, rfl⟩
    · exact .inr ⟨hd, y', rfl, killed_endsWith h2⟩
  · cases h
    exact .inl ⟨ha, .inl ⟨r', hr, rfl⟩⟩
  · obtain ⟨y', code, type, detail, rfl, h2⟩ := he
    cases h
    exact .inl ⟨ha, .inr ⟨y', rfl, settled_endsWith h2⟩⟩

/-! ### Whole calls -/

/-- The call is the one the gate is for. -/
def dispatches (g : Gate) (compat : Bool) : Bool :=
  match g with
  | .syscall => !compat
  | .int80 => compat
  | .sysenter => compat

/-- What a call cannot change. -/
structure Frames (y y' : Proc) : Prop where
  sched : y'.sched = y.sched
  user : y'.user = y.user

theorem enqueueEventLocked_frames (t : ℕ) (ev : TaskEvent) :
    Frames y (y.enqueueEventLocked t ev).2 := by
  unfold enqueueEventLocked
  split
  · exact ⟨rfl, rfl⟩
  · exact ⟨rfl, rfl⟩

theorem sendOne_frames {ev : TaskEvent}
    (h : y.sendOne sender target ev = some y') : Frames y y' ∧ y'.fault = y.fault := by
  unfold sendOne at h
  simp only at h
  split at h
  · cases h
  split at h
  · split at h
    · cases h
    · cases h
      exact ⟨⟨rfl, rfl⟩, rfl⟩
  split at h
  · rename_i y1 he
    cases h
    have hframe := enqueueEventLocked_frames (y := y) target
      { ev with
        source := (y.sched.task sender).id
        target := (y.sched.task target).id
        flags := ev.flags &&& taskEventFTruncated }
    have hfault := enqueueEventLocked_fault (y := y) (t := target)
      { ev with
        source := (y.sched.task sender).id
        target := (y.sched.task target).id
        flags := ev.flags &&& taskEventFTruncated }
    rw [he] at hframe hfault
    exact ⟨hframe, hfault⟩
  · cases h

theorem sendLoop_frames (sender target : ℕ) (events : List TaskEvent) (y : Proc) :
    Frames y (sendLoop sender target events y).2 ∧
      (sendLoop sender target events y).2.fault = y.fault := by
  induction events generalizing y with
  | nil => exact ⟨⟨rfl, rfl⟩, rfl⟩
  | cons ev rest ih =>
    unfold sendLoop
    split
    · exact ⟨⟨rfl, rfl⟩, rfl⟩
    · rename_i y1 h1
      obtain ⟨hf, hfault⟩ := sendOne_frames h1
      obtain ⟨hf', hfault'⟩ := ih y1
      exact ⟨⟨hf'.sched.trans hf.sched, hf'.user.trans hf.user⟩, hfault'.trans hfault⟩

theorem sendEvent_frames (sender target : ℕ) (events : List TaskEvent) :
    Frames y (y.sendEvent sender target events).2 ∧
      (y.sendEvent sender target events).2.fault = y.fault := by
  unfold sendEvent
  split
  · exact ⟨⟨rfl, rfl⟩, rfl⟩
  · exact sendLoop_frames sender target events y

theorem writeFaultctl_frames (mapped : ℕ → ℕ → Bool → Bool) (t : ℕ) (ctl : FaultCtl) :
    Frames y (y.writeFaultctl mapped t ctl).2 := by
  unfold writeFaultctl
  simp only
  repeat' split
  all_goals exact ⟨rfl, rfl⟩

theorem writeFaultReturn_frames (t : ℕ) (result : FaultReturn) :
    Frames y (y.writeFaultReturn t result).2 := by
  unfold writeFaultReturn
  repeat' split
  all_goals exact ⟨rfl, rfl⟩

theorem run_frames (mapped : ℕ → ℕ → Bool → Bool) (t : ℕ) (call : Call) :
    Frames y (y.run mapped t r call).2 := by
  cases call with
  | writeFaultctl ctl => exact writeFaultctl_frames mapped t ctl
  | writeFaultReturn result => exact writeFaultReturn_frames t result
  | sendEvent target events => exact (sendEvent_frames t target events).1
  | exec | clone | other => exact ⟨rfl, rfl⟩

theorem writeFaultctl_cases (mapped : ℕ → ℕ → Bool → Bool) (y : Proc) (t : ℕ) (ctl : FaultCtl) :
    (y.writeFaultctl mapped t ctl).2 = y ∨
      (y.fault t).active = false ∧
        (ctl.flags.testBit 0 = true → mapped ctl.handlerIp 1 false = true) ∧
        ∃ mask, (y.writeFaultctl mapped t ctl).2 =
          y.withFault t fun f => { f with ctl := { ctl with eventMask := mask } } := by
  unfold writeFaultctl
  simp only
  split
  · exact .inl rfl
  split
  · exact .inl rfl
  split
  · exact .inl rfl
  split
  · exact .inl rfl
  split
  · exact .inl rfl
  rename_i hmapped
  split
  · exact .inl rfl
  split
  · exact .inl rfl
  rename_i hactive
  refine .inr ⟨Bool.not_eq_true _ ▸ hactive, fun he => ?_, _, rfl⟩
  rw [he, Bool.true_and, Bool.not_eq_true', Bool.not_eq_false] at hmapped
  exact hmapped

theorem writeFaultReturn_cases (y : Proc) (t : ℕ) (result : FaultReturn) :
    (y.writeFaultReturn t result).2 = y ∨
      (y.fault t).active = true ∧ (y.fault t).returnPending = false ∧ result.action ≤ 3 ∧
        (y.writeFaultReturn t result).2 =
          y.withFault t fun f => { f with result := result, returnPending := true } := by
  unfold writeFaultReturn
  split
  · exact .inl rfl
  rename_i haction
  split_ifs with hactive
  · rw [Bool.and_eq_true, Bool.not_eq_true'] at hactive
    exact .inr ⟨hactive.1, hactive.2, by omega, rfl⟩
  · exact .inl rfl

/-- An answer is there only because the call wrote it. -/
theorem run_answered (hpend : (y.fault t).returnPending = false)
    (h : (y.run mapped t r call).2.answered t = true) :
    ∃ result, call = .writeFaultReturn result ∧ (y.fault t).active = true ∧ result.action ≤ 3 ∧
      (y.run mapped t r call).2 =
        y.withFault t fun f => { f with result := result, returnPending := true } := by
  have hnot : ∀ {z : Proc}, z.fault t = y.fault t → z.answered t ≠ true := by
    intro z hz ha
    rw [answered, hz, hpend, Bool.and_false] at ha
    cases ha
  cases call with
  | writeFaultctl ctl =>
    rcases writeFaultctl_cases mapped y t ctl with he | ⟨-, -, mask, he⟩
    · exact absurd h (hnot (by rw [run, he]))
    · rw [run, he, answered] at h
      simp [withFault, hpend] at h
  | writeFaultReturn result =>
    rcases writeFaultReturn_cases y t result with he | ⟨hactive, -, haction, he⟩
    · exact absurd h (hnot (by rw [run, he]))
    · exact ⟨result, rfl, hactive, haction, he⟩
  | sendEvent target events =>
    exact absurd h (hnot (by rw [run, (sendEvent_frames t target events).2]))
  | exec image =>
    rw [run, answered] at h
    simp [withFault, withEvents, withKill, FaultState.zero] at h
  | clone child stack =>
    rw [run, answered] at h
    by_cases hc : t = child
    · subst hc
      simp [withFault, withEvents, withKill, FaultState.zero] at h
    · simp [withFault, withEvents, withKill, update_of_ne hc, hpend] at h
  | other => exact absurd h (hnot rfl)

/-- What a system call of the task `t` can come to; `r₁` and `y₁` are what the call itself gives. -/
inductive Comes (y : Proc) (t : ℕ) (compat : Bool) (g : Gate) (u : Regs) (call : Call) (r₁ : Regs)
    (y₁ : Proc) : Outcome → Prop
  | killed {y' : Proc} (hdoomed : y.doomed t = true) (hends : EndsWith y y' t (y.fault t).depth) :
      Comes y t compat g u call r₁ y₁ (.ended y')
  | refused {b : Bool} {r : Regs} (hdoomed : y.doomed t = false)
      (hgate : dispatches g compat = false) (hrip : r.rip = (g.enter u).rip) :
      Comes y t compat g u call r₁ y₁ (.goesOn b r y)
  | resumed {b : Bool} {r : Regs} {result : FaultReturn} (hdoomed : y.doomed t = false)
      (hgate : dispatches g compat = true) (hcall : call = .writeFaultReturn result)
      (hactive : (y.fault t).active = true)
      (hwritten : y₁ = y.withFault t fun f => { f with result := result, returnPending := true })
      (hresumed : Proc.resumed { y.fault t with result := result } = some r) :
      Comes y t compat g u call r₁ y₁ (.goesOn b r (y₁.settled t))
  | gaveUp {y' : Proc} {result : FaultReturn} (hdoomed : y.doomed t = false)
      (hgate : dispatches g compat = true) (hcall : call = .writeFaultReturn result)
      (hactive : (y.fault t).active = true)
      (hwritten : y₁ = y.withFault t fun f => { f with result := result, returnPending := true })
      (hends : EndsWith y₁ y' t ((y.fault t).depth - 1)) :
      Comes y t compat g u call r₁ y₁ (.ended y')
  | returned {b : Bool} (hdoomed : y.doomed t = false) (hgate : dispatches g compat = true)
      (hanswered : y₁.answered t = false) : Comes y t compat g u call r₁ y₁ (.goesOn b r₁ y₁)
  | died {y' : Proc} (hdoomed : y.doomed t = false) (hgate : dispatches g compat = true)
      (hanswered : y₁.answered t = false) (hdoomed1 : y₁.doomed t = true)
      (hends : EndsWith y₁ y' t (y₁.fault t).depth) : Comes y t compat g u call r₁ y₁ (.ended y')

theorem answered_of_not_pending (h : (y.fault t).returnPending = false) : y.answered t = false := by
  rw [answered, h, Bool.and_false]

/-- What `finish_user_syscall` does for a task that is not to be killed and has nothing pending. -/
theorem finishUserSyscall_idle (hpend : (y.fault (y.sched.currentTask c)).returnPending = false)
    (hdoomed : y.doomed (y.sched.currentTask c) = false)
    (h : y.finishUserSyscall c r result locks = .ok o) :
    o = .goesOn false { r with rax := result } y := by
  rcases finishUserSyscall_cases h with ⟨ha, -⟩ | ⟨-, ⟨-, rfl⟩ | ⟨hd, -⟩⟩
  · rw [answered_of_not_pending hpend] at ha
    cases ha
  · rfl
  · rw [hdoomed] at hd
    cases hd

/-- The second look of `idt_handler` finds nothing. -/
theorem lookAgain_idle (hanswered : y.answered (y.sched.currentTask c) = false)
    (hdoomed : y.doomed (y.sched.currentTask c) = false)
    (h : (if g = .int80 then y.lookAgain c r locks else .ok (.goesOn b r y)) = .ok o) :
    ∃ b, o = .goesOn b r y := by
  split at h
  · obtain ⟨o1, h1, h⟩ := ok_bind h
    rcases completeFaultReturnIfPending_cases h1 with ⟨-, rfl⟩ | ⟨ha, -⟩
    · rcases applyPendingKill_cases h with ⟨-, rfl⟩ | ⟨hd, -⟩
      · exact ⟨_, rfl⟩
      · rw [hdoomed] at hd
        cases hd
    · rw [hanswered] at ha
      cases ha
  · cases h
    exact ⟨_, rfl⟩

/-- A call that the gate is not for does nothing. -/
theorem syscallHandler_refused (hpend : (y.fault (y.sched.currentTask c)).returnPending = false)
    (hdoomed : y.doomed (y.sched.currentTask c) = false) (hgate : dispatches g compat = false)
    (h : y.syscallHandler mapped c compat (g.enter u) call result locks = .ok o) :
    ∃ r, o = .goesOn false r y ∧ r.rip = (g.enter u).rip := by
  obtain ⟨o1, h1, h⟩ := ok_bind h
  rcases applyPendingKill_cases h1 with ⟨-, rfl⟩ | ⟨hd, -⟩
  · have hidle : ∀ {f : Regs}, f.rip = (g.enter u).rip →
        y.finishUserSyscall c f (2 ^ 64 - 1) locks = .ok o →
          ∃ r, o = .goesOn false r y ∧ r.rip = (g.enter u).rip := fun hr h =>
      ⟨_, finishUserSyscall_idle hpend hdoomed h, hr⟩
    cases g <;> cases compat <;> simp [dispatches] at hgate
    · exact hidle (f := { Gate.syscall.enter u with cs := ucode32Sel, ss := udata32Sel }) rfl h
    · exact hidle (f := Gate.int80.enter u) rfl h
    · exact hidle (f := { Gate.sysenter.enter u with cs := ucode64Sel, ss := udata64Sel }) rfl h
  · rw [hdoomed] at hd
    cases hd

/-- A call that the gate is for is carried out and finished. -/
theorem syscallHandler_dispatched (hdoomed : y.doomed (y.sched.currentTask c) = false)
    (hgate : dispatches g compat = true)
    (h : y.syscallHandler mapped c compat (g.enter u) call result locks = .ok o) :
    (y.run mapped (y.sched.currentTask c) (g.enter u) call).2.finishUserSyscall c
      (y.run mapped (y.sched.currentTask c) (g.enter u) call).1 result locks = .ok o := by
  obtain ⟨o1, h1, h⟩ := ok_bind h
  rcases applyPendingKill_cases h1 with ⟨-, rfl⟩ | ⟨hd, -⟩
  · cases g <;> cases compat <;> simp [dispatches] at hgate <;> exact h
  · rw [hdoomed] at hd
    cases hd

/-- **System calls** of a task with nothing pending. -/
theorem systemCall_comes (hpend : (y.fault (y.sched.currentTask c)).returnPending = false)
    (h : y.systemCall mapped c compat g u call result locks = .ok o) :
    Comes y (y.sched.currentTask c) compat g u call
      { (y.run mapped (y.sched.currentTask c) (g.enter u) call).1 with rax := result }
      (y.run mapped (y.sched.currentTask c) (g.enter u) call).2 o := by
  obtain ⟨o1, h1, h⟩ := ok_bind h
  set t := y.sched.currentTask c
  by_cases hdoomed : y.doomed t = true
  · obtain ⟨o2, h2, h1⟩ := ok_bind h1
    rcases applyPendingKill_cases h2 with ⟨hd, -⟩ | ⟨-, y', k, code, detail, rfl, hend⟩
    · rw [hdoomed] at hd
      cases hd
    · cases h1
      cases h
      exact .killed hdoomed (killed_endsWith hend)
  rw [Bool.not_eq_true] at hdoomed
  by_cases hgate : dispatches g compat = true
  · have h1 := syscallHandler_dispatched hdoomed hgate h1
    have hframes := run_frames (y := y) (r := g.enter u) mapped t call
    generalize hrun : y.run mapped t (g.enter u) call = x at h1 hframes
    have hcur : x.2.sched.currentTask c = t := by rw [hframes.sched]
    have hfin := finishUserSyscall_cases h1
    rw [hcur] at hfin
    rcases hfin with ⟨ha, hfin⟩ | ⟨ha, hfin⟩
    · -- the call was an answer
      obtain ⟨answer, rfl, hactive, -, hx⟩ := run_answered hpend (hrun.symm ▸ ha)
      rw [hrun] at hx
      have hfault : x.2.fault t = { y.fault t with result := answer, returnPending := true } := by
        rw [hx, withFault_fault, update_self]
      rcases hfin with ⟨r', hr, rfl⟩ | ⟨y', rfl, hends⟩
      · have hidle : ∃ b, o = .goesOn b r' (x.2.settled t) := by
          refine lookAgain_idle ?_ ?_ h
          · refine answered_of_not_pending ?_
            simp [settled, withFault, hcur]
          · rw [doomed] at hdoomed ⊢
            rw [show (x.2.settled t).sched.currentTask c = t from hcur, hx]
            exact hdoomed
        obtain ⟨b, rfl⟩ := hidle
        refine .resumed hdoomed hgate rfl hactive hx ?_
        rw [hfault] at hr
        exact hr
      · cases h
        rw [hfault] at hends
        exact .gaveUp hdoomed hgate rfl hactive hx hends
    · rcases hfin with ⟨hd, rfl⟩ | ⟨hd, y', rfl, hends⟩
      · have hidle : ∃ b, o = .goesOn b { x.1 with rax := result } x.2 :=
          lookAgain_idle (by rw [hcur]; exact ha) (by rw [hcur]; exact hd) h
        obtain ⟨b, rfl⟩ := hidle
        exact .returned hdoomed hgate ha
      · cases h
        exact .died hdoomed hgate ha hd hends
  · rw [Bool.not_eq_true] at hgate
    obtain ⟨r, rfl, hr⟩ := syscallHandler_refused hpend hdoomed hgate h1
    obtain ⟨b, rfl⟩ := lookAgain_idle (answered_of_not_pending hpend) hdoomed h
    exact .refused hdoomed hgate hr

end Cases

end Proc

end RHKernel.Sched
