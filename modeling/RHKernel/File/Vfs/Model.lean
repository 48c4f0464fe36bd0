import Mathlib.Algebra.Group.Nat.Defs
import Mathlib.Data.List.Basic

/-!
# The virtual file system

The tree of nodes in `vfs.cpp`: nodes are linked to their parent and listed by it, a large
directory has a hash table of its children, and a directory of a file-system driver remembers
names the driver did not find. The functions are those of the source, on nodes that are numbered
in the order of their creation; a destroyed node is `none`.

The two lists a node can be on (`next` and `hash_next`) are lists of node numbers here. What the
heap and the drivers answer is an `Env`, an argument of every call. A driver makes its nodes with
`vfs_create_fs_node`.
-/

namespace RHKernel.Vfs

open Function

/-- A string of the source without its terminating zero. -/
abbrev Name := List UInt8

inductive VfsType where
  | file
  | directory
  | charDevice
  | blockDevice
  deriving DecidableEq

/-- Which callbacks of a node are set; `io` stands for a `read`, `write` or `truncate` that is not
the one of memory files. -/
structure Callbacks where
  finddir : Bool
  readdir : Bool
  io : Bool
  create : Bool
  unlink : Bool
  rename : Bool

def Callbacks.none : Callbacks := ⟨false, false, false, false, false, false⟩

/-- `vfs_negative_entry`. -/
structure NegEntry where
  hash : UInt64
  seq : ℕ
  name : Name

structure Node where
  name : Name
  nameHash : UInt64
  type : VfsType
  refCount : ℕ
  unlinked : Bool
  parent : Option ℕ
  children : List ℕ
  childHash : Option (ℕ → List ℕ)
  childCount : ℕ
  childSeq : ℕ
  negCache : Option (ℕ → NegEntry)
  negCount : ℕ
  negNext : ℕ
  callbacks : Callbacks

/-- What a driver passes to `vfs_create_fs_node`, with the callbacks it sets afterwards. -/
structure FsNode where
  name : Name
  type : VfsType
  callbacks : Callbacks

/-- All nodes by number, the number of the next one, and `root_node`. -/
structure State where
  nodes : ℕ → Option Node
  next : ℕ
  root : ℕ

/-- What the heap and the drivers answer during one call. A driver's `create` succeeds with a node
or without. -/
structure Env where
  hashAlloc : ℕ → ℕ → Bool
  negAlloc : ℕ → Bool
  nodeAlloc : Bool
  nameAlloc : Name → Bool
  copyAlloc : Bool
  finddir : ℕ → Name → Option FsNode
  create : ℕ → Name → VfsType → Option (Option FsNode)
  unlink : ℕ → Name → Bool
  rename : ℕ → Name → ℕ → Name → Bool

/-- The heap has room and there are no drivers. -/
def Env.plain : Env where
  hashAlloc := fun _ _ => true
  negAlloc := fun _ => true
  nodeAlloc := true
  nameAlloc := fun _ => true
  copyAlloc := true
  finddir := fun _ _ => none
  create := fun _ _ _ => none
  unlink := fun _ _ => false
  rename := fun _ _ _ _ => false

/-! ### Names -/

def vfsMaxComponent : ℕ := 255

def vfsStackComponent : ℕ := 256

def vfsChildHashMin : ℕ := 16

def vfsNegCacheEntries : ℕ := 16

def vfsNegCacheName : ℕ := 32

/-- `hash_name_len`, the 64-bit FNV-1a hash with 0 replaced by 1. -/
def hashName (name : Name) : UInt64 :=
  let h := name.foldl (fun h b => (h ^^^ b.toUInt64) * 1099511628211) 1469598103934665603
  if h = 0 then 1 else h

/-- `child_hash_bucket` with `VFS_CHILD_HASH_BUCKETS` = 64 buckets. -/
def childHashBucket (hash : UInt64) : ℕ := (hash &&& 63).toNat

/-! ### Nodes -/

namespace Node

def withHash (n : Node) (hash : UInt64) : Node := { n with nameHash := hash }

def withParent (n : Node) (parent : Option ℕ) : Node := { n with parent := parent }

def withUnlinked (n : Node) : Node := { n with unlinked := true }

def withRefCount (n : Node) (refCount : ℕ) : Node := { n with refCount := refCount }

def withChildHash (n : Node) (hash : Option (ℕ → List ℕ)) : Node := { n with childHash := hash }

/-- `child->next = parent->child; parent->child = child;` with the count and the sequence
number. -/
def pushChild (n : Node) (child : ℕ) : Node :=
  { n with
    children := child :: n.children
    childCount := n.childCount + 1
    childSeq := (n.childSeq + 1) % 2 ^ 64 }

/-- The child is taken off the list, with the count and the sequence number. -/
def eraseChild (n : Node) (child : ℕ) : Node :=
  { n with
    children := n.children.erase child
    childCount := n.childCount - 1
    childSeq := (n.childSeq + 1) % 2 ^ 64 }

/-- The first child is taken off the list by `destroy_node`. -/
def popChild (n : Node) : Node :=
  { n with
    children := n.children.tail
    childCount := n.childCount - 1 }

def withName (n : Node) (name : Name) : Node :=
  { n with
    name := name
    nameHash := hashName name }

def isMemoryNode (n : Node) : Bool :=
  !n.callbacks.finddir && !n.callbacks.readdir && !n.callbacks.io && !n.callbacks.create &&
    !n.callbacks.unlink && !n.callbacks.rename

/-- What `kzalloc` and `create_node` make. -/
def fresh (name : Name) (type : VfsType) (refCount : ℕ) (callbacks : Callbacks) : Node where
  name := name
  nameHash := hashName name
  type := type
  refCount := refCount
  unlinked := false
  parent := .none
  children := []
  childHash := .none
  childCount := 0
  childSeq := 0
  negCache := .none
  negCount := 0
  negNext := 0
  callbacks := callbacks

end Node

namespace State

def modify (s : State) (n : ℕ) (f : Node → Node) : State :=
  { s with nodes := update s.nodes n ((s.nodes n).map f) }

def free (s : State) (n : ℕ) : State := { s with nodes := update s.nodes n none }

def add (s : State) (node : Node) : ℕ × State :=
  (s.next, { s with nodes := update s.nodes s.next (some node), next := s.next + 1 })

def validNode (s : State) (n : ℕ) : Bool := (s.nodes n).isSome

def parentOf (s : State) (n : ℕ) : Option ℕ := (s.nodes n).bind Node.parent

def childrenOf (s : State) (n : ℕ) : List ℕ := ((s.nodes n).map Node.children).getD []

def nameOf (s : State) (n : ℕ) : Name := ((s.nodes n).map Node.name).getD []

def hashOf (s : State) (n : ℕ) : UInt64 := ((s.nodes n).map Node.nameHash).getD 0

def countOf (s : State) (n : ℕ) : ℕ := ((s.nodes n).map Node.childCount).getD 0

def childHashOf (s : State) (n : ℕ) : Option (ℕ → List ℕ) := (s.nodes n).bind Node.childHash

end State

/-- `vfs_create_fs_node`: the node is not counted. -/
def createFsNode (s : State) (info : FsNode) : ℕ × State :=
  s.add (Node.fresh info.name info.type 0 info.callbacks)

/-! ### The child hash -/

def nameMatches (s : State) (n : ℕ) (name : Name) (hash : UInt64) : Bool :=
  s.validNode n && s.nameOf n == name && s.hashOf n == hash

/-- `child_hash_find_locked`. -/
def childHashFind (s : State) (parent : ℕ) (name : Name) (hash : UInt64) : Option ℕ :=
  (s.childHashOf parent).bind fun table =>
    (table (childHashBucket hash)).find? fun n => nameMatches s n name hash

/-- The child becomes the head of its bucket. -/
def insertBucket (s : State) (table : ℕ → List ℕ) (child : ℕ) : ℕ → List ℕ :=
  update table (childHashBucket (s.hashOf child))
    (child :: table (childHashBucket (s.hashOf child)))

/-- `child_hash_insert_locked`. -/
def childHashInsert (s : State) (parent child : ℕ) : State :=
  match s.childHashOf parent with
  | none => s
  | some table => s.modify parent (·.withChildHash (some (insertBucket s table child)))

/-- `child_hash_remove_locked`. -/
def childHashRemove (s : State) (parent child : ℕ) : State :=
  match s.childHashOf parent with
  | none => s
  | some table =>
    let bucket := childHashBucket (s.hashOf child)
    s.modify parent (·.withChildHash
      (some (update table bucket ((table bucket).erase child))))

/-- `child_hash_build_locked` on an allocated table. -/
def childHashBuild (s : State) (parent : ℕ) : State :=
  s.modify parent (·.withChildHash
    (some ((s.childrenOf parent).foldl (insertBucket s) fun _ => [])))

/-! ### Linking and unlinking -/

/-- The search of `attach_child_if_needed` for the child or one of its name. -/
def sameChild (s : State) (parent child : ℕ) : Option ℕ :=
  (childHashFind s parent (s.nameOf child) (s.hashOf child)).or
    ((s.childrenOf parent).find? fun n =>
      n == child || nameMatches s n (s.nameOf child) (s.hashOf child))

/-- The child is linked below the parent. -/
def linkChild (s : State) (parent child : ℕ) : State :=
  let s := s.modify child (·.withParent (some parent))
  let s := s.modify parent (·.pushChild child)
  childHashInsert s parent child

/-- `attach_child_if_needed`; `true` is the return value 0. -/
def attachChildIfNeeded (env : Env) (s : State) (parent child : ℕ) : Bool × State :=
  if !s.validNode parent || !s.validNode child then (false, s)
  else if s.parentOf child = some parent then (true, s)
  else if (s.parentOf child).isSome then (false, s)
  else
    let s := if s.hashOf child = 0
      then s.modify child (·.withHash (hashName (s.nameOf child))) else s
    let s := if (s.childHashOf parent).isNone &&
        decide (vfsChildHashMin ≤ s.countOf parent + 1) && env.hashAlloc parent child
      then childHashBuild s parent else s
    match sameChild s parent child with
    | some same => (same == child, s)
    | none => (true, linkChild s parent child)

def addChild (env : Env) (s : State) (parent child : ℕ) : Bool × State :=
  attachChildIfNeeded env s parent child

/-- A listed child is unlinked from the parent. -/
def unlinkChild (s : State) (parent child : ℕ) : State :=
  let s := childHashRemove s parent child
  let s := s.modify child (·.withParent none)
  s.modify parent (·.eraseChild child)

/-- `detach_cached_child_len`. -/
def detachCachedChild (s : State) (parent : ℕ) (name : Name) : Option ℕ × State :=
  let hash := hashName name
  let target := childHashFind s parent name hash
  match (s.childrenOf parent).find? fun n =>
    target == some n || (target.isNone && nameMatches s n name hash) with
  | none => (none, s)
  | some n => (some n, unlinkChild s parent n)

def detachNode (s : State) (n : ℕ) : State :=
  match s.parentOf n with
  | none => s
  | some parent =>
    if n ∈ s.childrenOf parent then (unlinkChild s parent n).modify n Node.withUnlinked else s

/-! ### References -/

/-- `get_node`; it refuses when the count is `UINT32_MAX`. -/
def getNode (s : State) (n : ℕ) : Bool × State :=
  match s.nodes n with
  | none => (false, s)
  | some node =>
    if node.refCount = 2 ^ 32 - 1 then (false, s)
    else (true, s.modify n (·.withRefCount (node.refCount + 1)))

/-- `put_node` and, for the last reference, `destroy_node`, which puts the children. The first
argument bounds the depth; a node is destroyed at most once, so that the number of nodes is
enough. -/
def putNodeFuel : ℕ → State → ℕ → State
  | 0, s, _ => s
  | fuel + 1, s, n =>
    match s.nodes n with
    | none => s
    | some node =>
      if node.refCount = 0 then s
      else
        let s := s.modify n (·.withRefCount (node.refCount - 1))
        if node.refCount - 1 ≠ 0 then s
        else
          let s := node.children.foldl (fun s child =>
            let s := s.modify n Node.popChild
            let s := s.modify child fun c => (c.withParent none).withUnlinked
            putNodeFuel fuel s child) s
          s.free n

def putNode (s : State) (n : ℕ) : State := putNodeFuel (s.next + 1) s n

def createNode (env : Env) (s : State) (name : Name) (type : VfsType) (parent : Option ℕ) :
    Option ℕ × State :=
  if !env.nodeAlloc || decide (vfsMaxComponent < name.length) then (none, s)
  else
    let (n, s) := s.add (Node.fresh name type 1 .none)
    match parent with
    | none => (some n, s)
    | some parent =>
      let (ok, s) := attachChildIfNeeded env s parent n
      if ok then (some n, s) else (none, s.free n)

/-! ### Lookup -/

/-- `neg_cache_hit_locked`. -/
def negCacheHit (s : State) (parent : ℕ) (name : Name) (hash : UInt64) : Bool :=
  match s.nodes parent with
  | none => false
  | some p =>
    match p.negCache with
    | none => false
    | some entries =>
      decide (name.length ≤ vfsNegCacheName) &&
        (List.range p.negCount).any fun i =>
          (entries i).seq == p.childSeq && (entries i).hash == hash && (entries i).name == name

/-- The new entry is stored in its slot. -/
def Node.storeNegative (p : Node) (entry : NegEntry) : Node :=
  let slot := if vfsNegCacheEntries ≤ p.negNext then 0 else p.negNext
  let entries := p.negCache.getD fun _ => ⟨0, 0, []⟩
  { p with
    negCache := some (update entries slot entry)
    negNext := (slot + 1) % vfsNegCacheEntries
    negCount := if p.negCount < vfsNegCacheEntries then p.negCount + 1 else p.negCount }

def negCacheStore (env : Env) (s : State) (parent : ℕ) (name : Name) (hash : UInt64) : State :=
  if name.length = 0 ∨ vfsNegCacheName < name.length then s
  else
    match s.nodes parent with
    | none => s
    | some p =>
      if p.negCache.isNone && !env.negAlloc parent then s
      else s.modify parent (·.storeNegative ⟨hash, p.childSeq, name⟩)

/-- `find_cached_child_len` without the negative entries. -/
def findCachedChild (s : State) (parent : ℕ) (name : Name) : Option ℕ :=
  (childHashFind s parent name (hashName name)).or
    ((s.childrenOf parent).find? fun n => nameMatches s n name (hashName name))

def hasDriverLookup (s : State) (n : ℕ) : Bool :=
  ((s.nodes n).map fun node => node.callbacks.finddir).getD false

/-- `finddir_len`. -/
def finddir (env : Env) (s : State) (parent : ℕ) (name : Name) : Option ℕ × State :=
  if !s.validNode parent || name.isEmpty then (none, s)
  else
    match findCachedChild s parent name with
    | some cached => (some cached, s)
    | none =>
      if negCacheHit s parent name (hashName name) || !hasDriverLookup s parent then (none, s)
      else if vfsStackComponent ≤ name.length then (none, s)
      else
        match env.finddir parent name with
        | none => (none, negCacheStore env s parent name (hashName name))
        | some info =>
          let (found, s) := createFsNode s info
          let (_, s) := attachChildIfNeeded env s parent found
          (some found, s)

/-- The loop of `traverse_relative` over the components of the path. -/
def traverseComponents (env : Env) (s : State) (curr : ℕ) : List Name → Option ℕ × State
  | [] => (some curr, s)
  | component :: rest =>
    if vfsMaxComponent < component.length then (none, s)
    else if component = [46] then traverseComponents env s curr rest
    else if component = [46, 46] then
      traverseComponents env s ((s.parentOf curr).getD curr) rest
    else
      match finddir env s curr component with
      | (none, s) => (none, s)
      | (some n, s) => traverseComponents env s n rest

def traverseRelative (env : Env) (s : State) (start : ℕ) (path : Name) : Option ℕ × State :=
  if !s.validNode start then (none, s)
  else traverseComponents env s start ((path.splitOn 47).filter (!·.isEmpty))

/-- `open_at`; without a working directory the root is used. -/
def openAt (env : Env) (s : State) (cwd : Option ℕ) (path : Name) : Option ℕ × State :=
  if path = [] ∨ s.validNode s.root = false then (none, s)
  else if path.head? = some 47 then
    if path = [47] then (some s.root, s) else traverseRelative env s s.root path.tail
  else traverseRelative env s (cwd.getD s.root) path

/-- `trim_trailing_slashes`: one character is kept. -/
def trimTrailingSlashes (path : Name) : Name :=
  let trimmed := (path.reverse.dropWhile (· == 47)).reverse
  if trimmed = [] then path.take 1 else trimmed

/-- The part of the path after the last slash. -/
def lastComponent (path : Name) : Name := (path.reverse.takeWhile (· != 47)).reverse

/-- The part of the path up to the last slash. -/
def parentPart (path : Name) : Name := path.take (path.length - (lastComponent path).length)

/-- The directory `split_parent_at` looks up. -/
def openParent (env : Env) (s : State) (cwd : ℕ) (dir : Name) : Option ℕ × State :=
  if dir = [] then (some cwd, s)
  else if dir = [47] then (some s.root, s)
  else if vfsStackComponent ≤ (trimTrailingSlashes dir).length then (none, s)
  else openAt env s (some cwd) (trimTrailingSlashes dir)

/-- `split_parent_at`: the directory and the name in it. -/
def splitParentAt (env : Env) (s : State) (cwd : ℕ) (path : Name) : Option (ℕ × Name) × State :=
  let trimmed := trimTrailingSlashes path
  if path = [] ∨ trimmed = [47] then (none, s)
  else
    let name := lastComponent trimmed
    if name = [] ∨ vfsMaxComponent < name.length ∨ name = [46] ∨ name = [46, 46] then (none, s)
    else
      match openParent env s cwd (parentPart trimmed) with
      | (none, s) => (none, s)
      | (some parent, s) =>
        if (s.nodes parent).map Node.type = some .directory && env.nameAlloc name
          then (some (parent, name), s) else (none, s)

/-! ### Operations on paths -/

def createAt (env : Env) (s : State) (cwd : Option ℕ) (path : Name) (type : VfsType) :
    Option ℕ × State :=
  match splitParentAt env s (cwd.getD s.root) path with
  | (none, s) => (none, s)
  | (some (parent, name), s) =>
    match finddir env s parent name with
    | (some existing, s) => (some existing, s)
    | (none, s) =>
      match (s.nodes parent).map fun node => node.callbacks.create with
      | some true =>
        match env.create parent name type with
        | some (some info) =>
          let (n, s) := createFsNode s info
          let (ok, s) := attachChildIfNeeded env s parent n
          if ok then (some n, s) else (none, s)
        | _ => (none, s)
      | _ => createNode env s name type (some parent)

/-- The end of `unlink_at` and `rename_at` for a detached node. -/
def dropDetached (s : State) (detached : Option ℕ) : State :=
  match detached with
  | none => s
  | some n =>
    let s := s.modify n Node.withUnlinked
    if ((s.nodes n).map Node.isMemoryNode).getD false then putNode s n else s

/-- `unlink_at`; `true` is the return value 0. -/
def unlinkAt (env : Env) (s : State) (cwd : Option ℕ) (path : Name) : Bool × State :=
  match splitParentAt env s (cwd.getD s.root) path with
  | (none, s) => (false, s)
  | (some (parent, name), s) =>
    match (s.nodes parent).map fun node => node.callbacks.unlink with
    | some true =>
      if env.unlink parent name then
        let (detached, s) := detachCachedChild s parent name
        (true, dropDetached s detached)
      else (false, s)
    | _ =>
      match finddir env s parent name with
      | (none, s) => (false, s)
      | (some n, s) =>
        if s.parentOf n = some parent && ((s.nodes n).map Node.isMemoryNode).getD false then
          let (detached, s) := detachCachedChild s parent name
          (detached.isSome, dropDetached s detached)
        else (false, s)

/-- The driver's branch of `rename_at`. -/
def renameDriver (s : State) (oldParent : ℕ) (oldName : Name) (newParent : ℕ) (newName : Name) :
    State :=
  let (oldDetached, s) := detachCachedChild s oldParent oldName
  let (newDetached, s) := detachCachedChild s newParent newName
  let s := oldDetached.elim s fun n => s.modify n Node.withUnlinked
  let s := newDetached.elim s fun n => s.modify n Node.withUnlinked
  dropDetached (dropDetached s oldDetached) newDetached

/-- The memory branch of `rename_at` once the node may be moved. -/
def renameMemory (env : Env) (s : State) (oldParent : ℕ) (oldName : Name) (newParent : ℕ)
    (newName : Name) : Bool × State :=
  match detachCachedChild s oldParent oldName with
  | (none, s) => (false, s)
  | (some n, s) =>
    if env.copyAlloc then
      match attachChildIfNeeded env (s.modify n (·.withName newName)) newParent n with
      | (true, s) => (true, s)
      | (false, s) => (false, (attachChildIfNeeded env s oldParent n).2)
    else (false, (attachChildIfNeeded env s oldParent n).2)

/-- `rename_at`; `true` is the return value 0. -/
def renameAt (env : Env) (s : State) (cwd : Option ℕ) (oldPath newPath : Name) : Bool × State :=
  match splitParentAt env s (cwd.getD s.root) oldPath with
  | (none, s) => (false, s)
  | (some (oldParent, oldName), s) =>
    match splitParentAt env s (cwd.getD s.root) newPath with
    | (none, s) => (false, s)
    | (some (newParent, newName), s) =>
      match (s.nodes oldParent).map fun node => node.callbacks.rename with
      | some true =>
        if env.rename oldParent oldName newParent newName
          then (true, renameDriver s oldParent oldName newParent newName) else (false, s)
      | _ =>
        match finddir env s oldParent oldName with
        | (none, s) => (false, s)
        | (some n, s) =>
          if s.parentOf n = some oldParent && ((s.nodes n).map Node.isMemoryNode).getD false then
            match finddir env s newParent newName with
            | (some _, s) => (false, s)
            | (none, s) => renameMemory env s oldParent oldName newParent newName
          else (false, s)

def State.init : State where
  nodes := fun n => if n = 0 then some (.fresh [47] .directory 1 .none) else none
  next := 1
  root := 0

end RHKernel.Vfs
