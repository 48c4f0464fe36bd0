import RHKernel.Memory.Vmm.Pte

/-!
# Areas of a user address space

Every task has a list of the ranges of its address space that are in use (`vm_area`), sorted by
start, with its program break and a hint where the next mapping may go. The nodes of the list come
from `kmalloc`; their addresses are what `heap_vma` and `stack_vma` hold.
-/

namespace RHKernel.Vma

open Pmm

inductive TaskAbi where
  | kernel
  | user64
  | user32
  deriving DecidableEq, Repr

inductive VmaType where
  | image
  | heap
  | stack
  | anon
  | device
  deriving DecidableEq, Repr

def vmaRead : BitVec 32 := 1

def vmaWrite : BitVec 32 := 2

def vmaGrowsdown : BitVec 32 := 8

/-- `vm_area`, with the address of its node. The protection key is left out: nothing here reads
it. -/
structure VmArea where
  node : ℕ
  start : ℕ
  «end» : ℕ
  committedStart : ℕ
  flags : BitVec 32
  type : VmaType
  deriving DecidableEq, Repr

/-- The test `vma->flags & flag`. -/
def VmArea.has (a : VmArea) (flag : BitVec 32) : Bool := a.flags &&& flag != 0#32

/-- The fields of a `task` that describe its address space. -/
structure Task where
  cr3 : ℕ
  abi : TaskAbi
  vmaList : List VmArea
  heapVma : Option ℕ
  stackVma : Option ℕ
  programBreak : ℕ
  mmapHint : ℕ
  deriving DecidableEq, Repr

/-- The area a pointer to a node of the list points at. -/
def Task.area (t : Task) (node : Option ℕ) : Option VmArea :=
  t.vmaList.find? fun a => some a.node = node

def findVma (t : Task) (addr : ℕ) : Option VmArea :=
  t.vmaList.find? fun a => a.start ≤ addr && addr < a.end

end RHKernel.Vma
