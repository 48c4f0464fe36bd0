import RHKernel.File.Fd
import RHKernel.File.Vfs.Model

/-!
# System calls on files

The system calls that take a path or a descriptor, on the tree of nodes, the descriptor tables and
the working directories together. A node that the descriptors let go of is put. The arguments have
been copied from user space; whether a truncation succeeds is an argument.
-/

namespace RHKernel.Vfs

/-- The tree, the descriptors, and the working directory of each task. -/
structure Sys where
  vfs : State
  fd : Fd.State
  cwd : ℕ → Option ℕ

namespace Sys

def withVfs (y : Sys) (vfs : State) : Sys := { y with vfs := vfs }

/-- The node a call returned, if any, is put. -/
def put (s : State) (node : Option ℕ) : State := node.elim s (putNode s)

/-- The lookup of `sys_open`: with `OPEN_CREAT` a missing file is created. -/
def openTarget (env : Env) (creat : Bool) (y : Sys) (task : ℕ) (path : Name) :
    Option ℕ × State :=
  match openAt env y.vfs (some ((y.cwd task).getD y.vfs.root)) path with
  | (some n, s) => (some n, s)
  | (none, s) =>
    if creat then createAt env s (some ((y.cwd task).getD y.vfs.root)) path .file else (none, s)

/-- `sys_open`; `trunc` tells whether the truncation it may ask for succeeds. -/
def sysOpen (env : Env) (creat trunc : Bool) (out : Fd.OpenOutcome) (y : Sys) (task : ℕ)
    (path : Name) : Sys :=
  match openTarget env creat y task path with
  | (none, s) => y.withVfs s
  | (some n, s) =>
    if !trunc then y.withVfs s
    else
      match getNode s n with
      | (false, s) => y.withVfs s
      | (true, s) =>
        let (_, node, fd) := Fd.sysOpen out y.fd task n
        { y with vfs := put s node, fd := fd }

def sysClose (y : Sys) (task : ℕ) (fd : ℤ) : Sys :=
  let (_, node, fds) := Fd.sysClose y.fd task fd
  { y with vfs := put y.vfs node, fd := fds }

def sysDup2 (alloc : Bool) (y : Sys) (task : ℕ) (oldfd newfd : ℤ) : Sys :=
  let (_, node, fds) := Fd.sysDup2 alloc y.fd task oldfd newfd
  { y with vfs := put y.vfs node, fd := fds }

/-- `sys_chdir`, once the new path has been made canonical. -/
def sysChdir (env : Env) (y : Sys) (task : ℕ) (path : Name) : Sys :=
  match openAt env y.vfs (some ((y.cwd task).getD y.vfs.root)) path with
  | (none, s) => y.withVfs s
  | (some n, s) =>
    if (s.nodes n).map Node.type ≠ some .directory then y.withVfs s
    else
      match getNode s n with
      | (false, s) => y.withVfs s
      | (true, s) =>
        { y with vfs := put s (y.cwd task), cwd := Function.update y.cwd task (some n) }

/-- Some tasks without open files whose working directory is the root. -/
def init (tasks : ℕ) : Sys where
  vfs := ⟨fun n => if n = 0 then some (.fresh [47] .directory (tasks + 1) .none) else none, 1, 0⟩
  fd := ⟨fun _ => Fd.Table.empty, tasks, fun _ => none, 0⟩
  cwd := fun _ => some 0

end Sys

/-- The calls of tasks, and the setting of callbacks by a driver. -/
inductive SysOp where
  | lookup (task : ℕ) (path : Name)
  | open (creat trunc : Bool) (out : Fd.OpenOutcome) (task : ℕ) (path : Name)
  | close (task : ℕ) (fd : ℤ)
  | dup2 (alloc : Bool) (task : ℕ) (oldfd newfd : ℤ)
  | chdir (task : ℕ) (path : Name)
  | unlinkAt (task : ℕ) (path : Name)
  | renameAt (task : ℕ) (oldPath newPath : Name)
  | setCallbacks (n : ℕ) (callbacks : Callbacks)

def SysOp.apply (env : Env) (y : Sys) : SysOp → Sys
  | .lookup task path => y.withVfs (openAt env y.vfs (y.cwd task) path).2
  | .open creat trunc out task path => y.sysOpen env creat trunc out task path
  | .close task fd => y.sysClose task fd
  | .dup2 alloc task oldfd newfd => y.sysDup2 alloc task oldfd newfd
  | .chdir task path => y.sysChdir env task path
  | .unlinkAt task path => y.withVfs (Vfs.unlinkAt env y.vfs (y.cwd task) path).2
  | .renameAt task oldPath newPath =>
    y.withVfs (Vfs.renameAt env y.vfs (y.cwd task) oldPath newPath).2
  | .setCallbacks n callbacks =>
    y.withVfs (y.vfs.modify n fun x => { x with callbacks := callbacks })

end RHKernel.Vfs
