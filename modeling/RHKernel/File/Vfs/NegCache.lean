import RHKernel.File.Vfs.Sequence

/-!
# What a directory remembers of its driver

A directory of a file-system driver lists the nodes that its driver has given out, and it remembers
some names that the driver did not have.

The names of a driver's directory are a set. Several nodes may stand for one directory of the
driver: a directory that was renamed is a new node for the next lookup. A callback that succeeds
changes the set, and `rename_at` does not raise the sequence number of the new directory unless
a node is unlinked from it. As long as no call leaves a stale entry behind, a lookup finds a node if
and only if the set has the name (`finddir_iff_of_run`).
-/

namespace RHKernel.Vfs

open Function Option Relation

variable {ι : Type} {l : List Name} {d : ℕ}

/-- A name comes into a directory of a driver. -/
def addName (names : ι → Set Name) (i : ι) (name : Name) (j : ι) : Set Name :=
  {m | (j = i ∧ m = name) ∨ m ∈ names j}

/-- A name goes from a directory of a driver. -/
def removeName (names : ι → Set Name) (i : ι) (name : Name) (j : ι) : Set Name :=
  {m | m ∈ names j ∧ ¬(j = i ∧ m = name)}

/-- A callback that succeeded. A driver's `create` may succeed without a node. -/
inductive DriverCall where
  | create (parent : ℕ) (name : Name) (node : Bool)
  | unlink (parent : ℕ) (name : Name)
  | rename (oldParent : ℕ) (oldName : Name) (newParent : ℕ) (newName : Name)
  deriving DecidableEq

/-- The names after a callback, where `ino` tells which directory of a driver a node stands for. -/
def DriverCall.names (ino : ℕ → ι) (names : ι → Set Name) : DriverCall → ι → Set Name
  | .create parent name _ => addName names (ino parent) name
  | .unlink parent name => removeName names (ino parent) name
  | .rename oldParent oldName newParent newName =>
    addName (removeName names (ino oldParent) oldName) (ino newParent) newName

/-- The callback leaves a node for one of the directories that lists a name that is gone, or
remembers as missing a name that is there. -/
def DriverCall.Stale (ino : ℕ → ι) (s : State) : DriverCall → Prop
  | .create parent name node => ∃ d, Backed s d ∧ ino d = ino parent ∧
    negCacheHit s d name (hashName name) = true ∧ ¬(d = parent ∧ node = true)
  | .unlink parent name => ∃ d, Backed s d ∧ ino d = ino parent ∧ d ≠ parent ∧
    (findCachedChild s d name).isSome = true
  | .rename oldParent oldName newParent newName =>
    (∃ d, Backed s d ∧ ino d = ino oldParent ∧ d ≠ oldParent ∧
      (findCachedChild s d oldName).isSome = true) ∨
    ∃ d, Backed s d ∧ ino d = ino newParent ∧ negCacheHit s d newName (hashName newName) = true ∧
      ¬(d = oldParent ∧ (findCachedChild s oldParent oldName).isSome = true)

/-- The operations on directories. -/
inductive DirOp where
  | finddir (dir : ℕ) (name : Name)
  | createAt (cwd : Option ℕ) (path : Name) (type : VfsType)
  | unlinkAt (cwd : Option ℕ) (path : Name)
  | renameAt (cwd : Option ℕ) (oldPath newPath : Name)

def DirOp.apply (env : Env) (s : State) : DirOp → State
  | .finddir dir name => (Vfs.finddir env s dir name).2
  | .createAt cwd path type => (Vfs.createAt env s cwd path type).2
  | .unlinkAt cwd path => (Vfs.unlinkAt env s cwd path).2
  | .renameAt cwd oldPath newPath => (Vfs.renameAt env s cwd oldPath newPath).2

/-- The callback that succeeds during an operation, with the state in which it is called. -/
def DirOp.driverCall (env : Env) (s : State) : DirOp → Option (DriverCall × State)
  | .finddir _ _ => none
  | .createAt cwd path type =>
    match splitParentAt env s (cwd.getD s.root) path with
    | (none, _) => none
    | (some (parent, name), s) =>
      match Vfs.finddir env s parent name with
      | (some _, _) => none
      | (none, s) =>
        if (s.nodes parent).map (·.callbacks.create) = some true then
          (env.create parent name type).map fun node => (.create parent name node.isSome, s)
        else none
  | .unlinkAt cwd path =>
    match splitParentAt env s (cwd.getD s.root) path with
    | (none, _) => none
    | (some (parent, name), s) =>
      if (s.nodes parent).map (·.callbacks.unlink) = some true ∧ env.unlink parent name = true
        then some (.unlink parent name, s) else none
  | .renameAt cwd oldPath newPath =>
    match splitParentAt env s (cwd.getD s.root) oldPath with
    | (none, _) => none
    | (some (oldParent, oldName), s) =>
      match splitParentAt env s (cwd.getD s.root) newPath with
      | (none, _) => none
      | (some (newParent, newName), s) =>
        if (s.nodes oldParent).map (·.callbacks.rename) = some true ∧
            env.rename oldParent oldName newParent newName = true
          then some (.rename oldParent oldName newParent newName, s) else none

def DirOp.names (ino : ℕ → ι) (names : ι → Set Name) (env : Env) (s : State) (op : DirOp) :
    ι → Set Name :=
  ((op.driverCall env s).map fun call => call.1.names ino names).getD names

/-- A node of a directory that has no `rename` is renamed into a directory of a driver. -/
def DirOp.MovesMemory (env : Env) (s : State) : DirOp → Prop
  | .renameAt cwd oldPath newPath => ∃ oldParent oldName newParent newName t u,
    splitParentAt env s (cwd.getD s.root) oldPath = (some (oldParent, oldName), t) ∧
    splitParentAt env t (cwd.getD t.root) newPath = (some (newParent, newName), u) ∧
    (u.nodes oldParent).map (·.callbacks.rename) ≠ some true ∧ Backed u newParent
  | _ => False

/-- How often an operation can raise a sequence number. -/
def DirOp.bumps : DirOp → ℕ
  | .finddir _ _ => 1
  | .createAt _ path _ => path.length + 2
  | .unlinkAt _ path => path.length + 2
  | .renameAt _ oldPath newPath => oldPath.length + newPath.length + 5

/-- The nodes and the names of the drivers' directories. -/
structure DirSys (ι : Type) where
  vfs : State
  names : ι → Set Name

/-- The drivers answer from their names: a node that stands for a directory, or one that does not
exist yet, is asked. -/
def Answers (ino : ℕ → ι) (names : ι → Set Name) (s : State) (env : Env) : Prop :=
  ∀ d, (d < s.next → Backed s d) → ∀ name,
    ((env.finddir d name).isSome = true ↔ name ∈ names (ino d)) ∧
    (∀ info, env.finddir d name = some info → info.name = name) ∧
    ∀ type info, env.create d name type = some (some info) → info.name = name

/-- The nodes and the names after an operation. -/
def DirSys.after (ino : ℕ → ι) (env : Env) (op : DirOp) (y : DirSys ι) : DirSys ι :=
  ⟨op.apply env y.vfs, op.names ino y.names env y.vfs⟩

/-- The operation takes the first state to the second. -/
def DirCalls (ino : ℕ → ι) (env : Env) (op : DirOp) (y y' : DirSys ι) : Prop :=
  Answers ino y.names y.vfs env ∧ y' = y.after ino env op

/-- The operation leaves a stale entry behind or wraps a sequence number. -/
def DirOp.GoesStale (ino : ℕ → ι) (env : Env) (s : State) (op : DirOp) : Prop :=
  (∃ call t, op.driverCall env s = some (call, t) ∧ call.Stale ino t) ∨ op.MovesMemory env s ∨
    ∃ d x, s.nodes d = some x ∧ 2 ^ 64 ≤ x.childSeq + op.bumps

/-- The file systems have been mounted and nothing has been looked up that was missing: the links
are in order, the names are components, and what a directory of a driver lists is there. -/
structure Mounted (ino : ℕ → ι) (y : DirSys ι) : Prop where
  links : Links y.vfs.view
  fresh : ∀ n, y.vfs.next ≤ n → y.vfs.nodes n = none
  rootHeld : 0 < y.vfs.refOf y.vfs.root
  rootTop : y.vfs.parentOf y.vfs.root = none
  empty : ∀ d x, y.vfs.nodes d = some x → x.negCount = 0 ∧ x.negNext = 0
  listed : ∀ d c, Backed y.vfs d → y.vfs.parentOf c = some d → y.vfs.nameOf c ∈ y.names (ino d)
  component : ∀ i, ∀ name ∈ y.names i, name ≠ [] ∧ name.length ≤ vfsMaxComponent

/-! ### Lookups -/

/-- What the directories of drivers list is in `upper`, and what they remember as missing is not in
`lower`. Between operations both are the names of the drivers. -/
structure Sound (ino : ℕ → ι) (upper lower : ι → Set Name) (s : State) : Prop where
  cache : ∀ d x, s.nodes d = some x → CacheOk x
  listed : ∀ d c, Backed s d → s.parentOf c = some d → s.nameOf c ∈ upper (ino d)
  missing : ∀ d name, Backed s d → negCacheHit s d name (hashName name) = true →
    name ∉ lower (ino d)

/-- What holds at some point of an operation that started in `s₀`, with room to raise the sequence
numbers that often. -/
structure Within (ino : ℕ → ι) (upper lower : ι → Set Name) (s₀ : State) (k : ℕ) (s : State) :
    Prop where
  life : Life [] (fun _ => 0) s
  sound : Sound ino upper lower s
  room : Room k s
  next : s₀.next ≤ s.next
  since : ∀ d < s₀.next, Backed s d → Backed s₀ d

section Lookups

variable {ino : ℕ → ι} {upper lower names : ι → Set Name} {env : Env} {s₀ s s' : State}
  {j k p c d count : ℕ} {name m name' path : Name} {x node : Node}

theorem Sound.fade (h : Sound ino upper lower s) (hroom : Room j s) (hages : Ages j s s')
    (hsheds : Sheds s s') : Sound ino upper lower s' where
  cache := hages.cacheOk hroom h.cache
  listed := by
    intro d c hd hc
    obtain ⟨hc', hname⟩ := hsheds c d hc
    rw [hname]
    exact h.listed d c (hages.backed hd) hc'
  missing := fun d name hd hhit =>
    h.missing d name (hages.backed hd) (hages.hit hroom h.cache hhit).1

theorem backed_add (hd : d ≠ s.next) (h : Backed (s.add node).2 d) : Backed s d := by
  obtain ⟨x, hx, hb⟩ := h
  rw [nodes_add_ne hd] at hx
  exact ⟨x, hx, hb⟩

theorem negCacheHit_add {hash : UInt64} {type : VfsType} {cb : Callbacks}
    (h : negCacheHit (s.add (.fresh name type count cb)).2 d m hash = true) :
    d ≠ s.next ∧ negCacheHit s d m hash = true := by
  obtain ⟨x, entries, i, hx, hrest⟩ := negCacheHit_iff.mp h
  have hd : d ≠ s.next := fun heq => by
    rw [heq, nodes_add_self] at hx
    obtain rfl := some.inj hx
    cases hrest.1
  rw [nodes_add_ne hd] at hx
  exact ⟨hd, negCacheHit_iff.mpr ⟨x, entries, i, hx, hrest⟩⟩

theorem Sound.add (h : Sound ino upper lower s) (hlife : Life [] (fun _ => 0) s) (name : Name)
    (type : VfsType) (count : ℕ) (cb : Callbacks) :
    Sound ino upper lower (s.add (.fresh name type count cb)).2 := by
  have hself := nodes_add_self s (.fresh name type count cb)
  have hother : ∀ {d}, d ≠ s.next → (s.add (.fresh name type count cb)).2.nodes d = s.nodes d :=
    fun hd => nodes_add_ne hd _
  refine ⟨fun d x hx => ?_, fun d c hd hc => ?_, fun d m hd hhit => ?_⟩
  · by_cases hdn : d = s.next
    · rw [hdn, hself] at hx
      obtain rfl := some.inj hx
      exact ⟨Nat.zero_lt_succ _, fun _ => rfl, fun _ hentries => (by cases hentries)⟩
    · rw [hother hdn] at hx
      exact h.cache d x hx
  · have hcn : c ≠ s.next := fun heq => by
      rw [heq, State.parentOf, hself] at hc
      cases hc
    have hc' : s.parentOf c = some d := by
      rw [State.parentOf, hother hcn] at hc
      exact hc
    have hdn : d ≠ s.next := fun heq => by
      have hmem : c ∈ s.childrenOf d := (hlife.plainLinks.link d c).mpr hc'
      rw [heq, childrenOf_eq_nil_of_invalid (hlife.fresh s.next le_rfl)] at hmem
      cases hmem
    rw [State.nameOf, hother hcn]
    exact h.listed d c (backed_add hdn hd) hc'
  · obtain ⟨hdn, hold⟩ := negCacheHit_add hhit
    exact h.missing d m (backed_add hdn hd) hold

theorem Sound.attach {ok : Bool} (h : Sound ino upper lower s) (hl : Links s.view)
    (hroom : Room 1 s) (hc : Backed s p → s.nameOf c ∈ upper (ino p))
    (hx : attachChildIfNeeded env s p c = (ok, s')) : Sound ino upper lower s' := by
  have hages := ages_attachChildIfNeeded hl hx
  refine ⟨hages.cacheOk hroom h.cache, fun d e hd he => ?_, fun d m hd hhit =>
    h.missing d m (hages.backed hd) (hages.hit hroom h.cache hhit).1⟩
  obtain ⟨-, hname, hcase⟩ := attachChildIfNeeded_spec hl hx
  have hd' := hages.backed hd
  rw [hname]
  rcases hcase with hparent | ⟨-, hparent⟩
  · rw [hparent] at he
    exact h.listed d e hd' he
  rw [hparent] at he
  rcases update_eq_cases he with ⟨rfl, heq⟩ | ⟨-, he⟩
  · obtain rfl := some.inj heq
    exact hc hd'
  · exact h.listed d e hd' he

theorem CacheOk.entries (h : CacheOk x) (entry : NegEntry) :
    (x.storeNegative entry).negCache =
        some (update (x.negCache.getD fun _ => ⟨0, 0, []⟩) x.negNext entry) ∧
      ∀ i < (x.storeNegative entry).negCount, i ≠ x.negNext → i < x.negCount := by
  have hnext := h.next
  unfold Node.storeNegative
  dsimp only
  rw [if_neg (not_le.mpr hnext)]
  refine ⟨rfl, fun i hi hne => ?_⟩
  split_ifs at hi with hcount
  · have := h.count hcount
    omega
  · exact hi

theorem CacheOk.storeNegative {entry : NegEntry} (h : CacheOk x) (hseq : entry.seq = x.childSeq) :
    CacheOk (x.storeNegative entry) := by
  obtain ⟨hentries, hold⟩ := h.entries entry
  have hslot : (x.storeNegative entry).negNext = (x.negNext + 1) % vfsNegCacheEntries := by
    unfold Node.storeNegative
    rw [if_neg (not_le.mpr h.next)]
  have hcount : (x.storeNegative entry).negCount =
      if x.negCount < vfsNegCacheEntries then x.negCount + 1 else x.negCount := rfl
  refine ⟨?_, fun hlt => ?_, fun entries he i hi => ?_⟩
  · rw [hslot]
    exact Nat.mod_lt _ (by decide)
  · rw [hcount] at hlt ⊢
    rw [hslot]
    split_ifs at hlt ⊢ with hless
    · rw [h.count hless, Nat.mod_eq_of_lt hlt]
    · exact absurd hlt hless
  · rw [hentries] at he
    obtain rfl := some.inj he
    by_cases hi' : i = x.negNext
    · rw [hi', update_self]
      exact hseq.le
    · rw [update_of_ne hi']
      cases hcache : x.negCache with
      | none => exact Nat.zero_le _
      | some old => exact h.seq old hcache i (hold i hi hi')

/-- What is remembered after a name was stored: that name, or what was remembered before. -/
theorem negCacheHit_storeNegative {hash : UInt64} (hx : s.nodes p = some x) (hok : CacheOk x)
    (hhit : negCacheHit (s.modify p (·.storeNegative ⟨hash, x.childSeq, name⟩)) p m
      (hashName m) = true) : m = name ∨ negCacheHit s p m (hashName m) = true := by
  obtain ⟨y, entries, i, hy, hentries, hlen, hi, hseq, hhash, hname⟩ := negCacheHit_iff.mp hhit
  dsimp only [State.modify] at hy
  rw [update_self, hx, map_some] at hy
  obtain rfl := some.inj hy
  obtain ⟨hstored, hold⟩ := hok.entries ⟨hash, x.childSeq, name⟩
  rw [hstored] at hentries
  obtain rfl := some.inj hentries
  by_cases hi' : i = x.negNext
  · rw [hi', update_self] at hname
    exact .inl hname.symm
  rw [update_of_ne hi'] at hseq hhash hname
  refine .inr (negCacheHit_iff.mpr ?_)
  cases hcache : x.negCache with
  | none =>
    -- a slot that was never filled has no hash of a name
    rw [hcache] at hhash
    exact absurd hhash.symm (hashName_ne_zero m)
  | some old =>
    rw [hcache] at hseq hhash hname
    exact ⟨x, old, i, hx, hcache, hlen, hold i hi hi', hseq, hhash, hname⟩

/-- A name that is not there is remembered as missing. -/
theorem Sound.store (h : Sound ino upper lower s) (hname : Backed s p → name ∉ lower (ino p)) :
    Sound ino upper lower (negCacheStore env s p name (hashName name)) := by
  obtain heq | ⟨x, hx, heq⟩ := negCacheStore_cases env s p name (hashName name) <;> rw [heq]
  · exact h
  have hview := view_storeNegative s p ⟨hashName name, x.childSeq, name⟩
  set t := s.modify p (·.storeNegative ⟨hashName name, x.childSeq, name⟩)
  have hother : ∀ {d}, d ≠ p → t.nodes d = s.nodes d := fun hd => update_of_ne hd _ _
  have hself : t.nodes p = some (x.storeNegative ⟨hashName name, x.childSeq, name⟩) :=
    (update_self _ _ _).trans (by rw [hx, map_some])
  have hback : ∀ {d}, Backed t d → Backed s d := by
    rintro d ⟨y, hy, hb⟩
    by_cases hd : d = p
    · rw [hd, hself] at hy
      obtain rfl := some.inj hy
      exact ⟨x, hd ▸ hx, hb⟩
    · exact ⟨y, hother hd ▸ hy, hb⟩
  refine ⟨fun d y hy => ?_, fun d c hd hc => ?_, fun d m hd hhit => ?_⟩
  · by_cases hdp : d = p
    · rw [hdp, hself] at hy
      obtain rfl := some.inj hy
      exact (h.cache p x hx).storeNegative rfl
    · rw [hother hdp] at hy
      exact h.cache d y hy
  · have hc' : s.parentOf c = some d := (congrFun (congrArg View.parent hview) c).symm.trans hc
    have hname' : t.nameOf c = s.nameOf c := congrFun (congrArg View.name hview) c
    rw [hname']
    exact h.listed d c (hback hd) hc'
  · by_cases hdp : d = p
    · subst hdp
      rcases negCacheHit_storeNegative hx (h.cache d x hx) hhit with rfl | hhit'
      · exact hname (hback hd)
      · exact h.missing d m (hback hd) hhit'
    · obtain ⟨y, entries, i, hy, hrest⟩ := negCacheHit_iff.mp hhit
      rw [hother hdp] at hy
      exact h.missing d m (hback hd) (negCacheHit_iff.mpr ⟨y, entries, i, hy, hrest⟩)

theorem Frame.backed (h : Frame Node.callbacks s s') (hd : Backed s' d) : Backed s d := by
  obtain ⟨y, hy, hb⟩ := hd
  obtain ⟨x, hx, hxy⟩ := h.exists_node hy
  exact ⟨x, hx, by rw [Node.backed, hxy]; exact hb⟩

theorem Frame.room (h : Frame Node.childSeq s s') (hroom : Room k s) : Room k s' := by
  intro d y hy
  obtain ⟨x, hx, hxy⟩ := h.exists_node hy
  exact hxy ▸ hroom d x hx

theorem Room.mono (h : Room k s) (hjk : j ≤ k) : Room j s := fun d x hx => by
  have := h d x hx
  omega

variable (h : Within ino upper lower s₀ k s)

include h

theorem Within.less (hjk : j ≤ k) :
    Within ino upper lower s₀ j s :=
  { h with room := h.room.mono hjk }

theorem Within.answers (henv : Answers ino names s₀ env)
    (hp : Backed s p) (name : Name) :
    ((env.finddir p name).isSome = true ↔ name ∈ names (ino p)) ∧
      (∀ info, env.finddir p name = some info → info.name = name) ∧
      ∀ type info, env.create p name type = some (some info) → info.name = name :=
  henv p (fun hlt => h.since p hlt hp) name

/-- The numbers of an operation can be raised because the root is one of the nodes. -/
theorem Within.bound : k < 2 ^ 64 := by
  have hroot : s.validNode s.root = true := validNode_of_refOf (ne_of_gt h.life.rootHeld)
  obtain ⟨x, hx⟩ := isSome_iff_exists.mp hroot
  have := h.room s.root x hx
  omega

theorem Within.room_add (name : Name) (type : VfsType)
    (count : ℕ) (cb : Callbacks) : Room k (s.add (.fresh name type count cb)).2 := by
  intro d x hx
  by_cases hd : d = s.next
  · rw [hd, nodes_add_self] at hx
    rw [← some.inj hx]
    exact (zero_add k).trans_lt h.bound
  · rw [nodes_add_ne hd] at hx
    exact h.room d x hx

omit h

theorem Within.addAttach {type : VfsType} {cb : Callbacks} {ok : Bool}
    (h : Within ino upper lower s₀ (k + 1) s) (hp : s.validNode p = true)
    (hc : Backed s p → name' ∈ upper (ino p))
    (hx : attachChildIfNeeded env (s.add (.fresh name' type count cb)).2 p s.next = (ok, s')) :
    Within ino upper lower s₀ k s' := by
  have hadd := h.sound.add h.life name' type count cb
  have hlinks := (h.life.add name' type count cb).1.plainLinks
  have hself := nodes_add_self s (.fresh name' type count cb)
  have hroom := h.room_add name' type count cb
  have hnext := (frame_attachChildIfNeeded linkFree_refCount hlinks hx).next
  have hages := ages_attachChildIfNeeded hlinks hx
  refine ⟨h.life.addAttach hx, hadd.attach hlinks (hroom.mono (Nat.le_add_left 1 k)) ?_ hx,
    hages.room hroom, ?_, fun d hd hbacked => ?_⟩
  · intro hbacked
    have hname : (s.add (.fresh name' type count cb)).2.nameOf s.next = name' := by
      rw [State.nameOf, hself]
      rfl
    have hpn : p ≠ s.next := fun heq => by
      rw [heq, State.validNode, h.life.fresh s.next le_rfl] at hp
      cases hp
    rw [hname]
    exact hc (backed_add hpn hbacked)
  · rw [hnext]
    exact h.next.trans (Nat.le_succ _)
  · exact h.since d hd (backed_add (ne_of_lt (hd.trans_le h.next)) (hages.backed hbacked))

/-- A lookup uses up one of the numbers. -/
theorem Within.finddir (h : Within ino names names s₀ (k + 1) s) (henv : Answers ino names s₀ env)
    (p : ℕ) (name : Name) : Within ino names names s₀ k (finddir env s p name).2 := by
  have hlife := h.life.finddir env p name
  have hlook := lookup_finddir env s p name
  generalize (Vfs.finddir env s p name).1 = r at hlook
  generalize (Vfs.finddir env s p name).2 = t at hlook hlife ⊢
  have hsame := h.less (Nat.le_succ k)
  cases hlook with
  | invalid | cached | negative | memory | long => exact hsame
  | absent _ _ _ _ _ hanswer =>
    have hf : Frame Node.callbacks s (negCacheStore env s p name (hashName name)) :=
      frame_negCacheStore (fun _ _ => rfl) env s p name _
    have hseq : Frame Node.childSeq s (negCacheStore env s p name (hashName name)) :=
      frame_negCacheStore (fun _ _ => rfl) env s p name _
    refine ⟨hlife, h.sound.store fun hb hin => ?_, hseq.room hsame.room,
      hf.next ▸ h.next, fun d hd hb => h.since d hd (hf.backed hb)⟩
    have hsome := ((h.answers henv hb name).1).mpr hin
    rw [hanswer] at hsome
    cases hsome
  | found hp _ _ _ _ hanswer =>
    refine h.addAttach hp (fun hb => ?_) Prod.mk.eta.symm
    obtain ⟨hiff, hinfo, -⟩ := h.answers henv hb name
    rw [hinfo _ hanswer]
    exact hiff.mp (by rw [hanswer]; rfl)

theorem Within.splitParentAt (h : Within ino names names s₀ (k + path.length) s)
    (henv : Answers ino names s₀ env) (cwd : ℕ) :
    Within ino names names s₀ k (splitParentAt env s cwd path).2 :=
  splitParentAt_counted (I := fun k s => Within ino names names s₀ k s)
    (fun k _ h => h.less (Nat.le_succ k)) (fun _ _ p name h => h.finddir henv p name) h cwd

theorem finddir_eq_none (hl : Links s.view) (hp : s.validNode p = true) (hname : name ≠ [])
    (hx : finddir env s p name = (none, s')) :
    s'.validNode p = true ∧ ∀ c, s'.parentOf c = some p → s'.nameOf c ≠ name := by
  have hlook := lookup_finddir env s p name
  rw [hx] at hlook
  dsimp only at hlook
  cases hlook with
  | invalid h =>
    rcases h with h | h
    · rw [h] at hp
      cases hp
    · exact absurd h hname
  | negative _ _ hnone | memory _ _ hnone | long _ hnone =>
    exact ⟨hp, findCachedChild_eq_none hl hnone⟩
  | absent _ _ hnone =>
    have hview := view_negCacheStore env s p name (hashName name)
    have hparent : (negCacheStore env s p name (hashName name)).parentOf = s.parentOf :=
      congrArg View.parent hview
    have hnames : (negCacheStore env s p name (hashName name)).nameOf = s.nameOf :=
      congrArg View.name hview
    refine ⟨(congrFun (congrArg View.valid hview) p).trans hp, ?_⟩
    rw [hparent, hnames]
    exact findCachedChild_eq_none hl hnone

/-- A lookup answers what the driver's names say. -/
theorem Sound.isSome_finddir_iff (h : Sound ino names names s) (hl : Links s.view)
    (hiff : (env.finddir d name).isSome = true ↔ name ∈ names (ino d))
    (hcomponent : ∀ i, ∀ name ∈ names i, name ≠ [] ∧ name.length ≤ vfsMaxComponent)
    (hd : Backed s d) : (finddir env s d name).1.isSome = true ↔ name ∈ names (ino d) := by
  have hlook := lookup_finddir env s d name
  generalize (Vfs.finddir env s d name).1 = r at hlook ⊢
  generalize (Vfs.finddir env s d name).2 = t at hlook
  have hnone : name ∉ names (ino d) → ((none : Option ℕ).isSome = true ↔ name ∈ names (ino d)) :=
    fun hout => ⟨fun hsome => (by cases hsome), fun hin => absurd hin hout⟩
  obtain ⟨x, hx, hb⟩ := hd
  cases hlook with
  | invalid hbad =>
    refine hnone fun hin => ?_
    rcases hbad with hbad | hbad
    · rw [State.validNode, hx] at hbad
      cases hbad
    · exact (hcomponent _ name hin).1 hbad
  | cached _ _ hfind =>
    obtain ⟨hc, hname⟩ := findCachedChild_eq_some hl hfind
    exact ⟨fun _ => hname ▸ h.listed d _ ⟨x, hx, hb⟩ hc, fun _ => rfl⟩
  | negative _ _ _ hneg => exact hnone (h.missing d name ⟨x, hx, hb⟩ hneg)
  | memory _ _ _ hdriver =>
    unfold Node.backed at hb
    rw [hasDriverLookup, hx, map_some, getD_some] at hdriver
    rw [hdriver] at hb
    cases hb
  | long _ _ hlong =>
    refine hnone fun hin => ?_
    have hle := (hcomponent _ name hin).2
    unfold vfsStackComponent at hlong
    unfold vfsMaxComponent at hle
    omega
  | absent _ _ _ _ _ hanswer | found _ _ _ _ _ hanswer =>
    rw [hanswer] at hiff
    exact hiff

end Lookups

section Names

variable {ino : ℕ → ι} {upper lower names upper' lower' : ι → Set Name} {s : State} {name : Name}
  {i : ι}

theorem Sound.mono (h : Sound ino upper lower s)
    (hupper : ∀ i, upper i ⊆ upper' i) (hlower : ∀ i, lower' i ⊆ lower i) :
    Sound ino upper' lower' s where
  cache := h.cache
  listed := fun d c hd hc => hupper _ (h.listed d c hd hc)
  missing := fun d name hd hhit hin => h.missing d name hd hhit (hlower _ hin)

theorem subset_addName (names : ι → Set Name) (i : ι) (name : Name) (j : ι) :
    names j ⊆ addName names i name j := fun _ hm => .inr hm

theorem removeName_subset (names : ι → Set Name) (i : ι) (name : Name) (j : ι) :
    removeName names i name j ⊆ names j := fun _ hm => hm.1

/-- A name comes that no node for the directory remembers as missing. -/
theorem Sound.addName (h : Sound ino upper names s)
    (hno : ∀ d, Backed s d → ino d = i → ¬negCacheHit s d name (hashName name) = true) :
    Sound ino upper (addName names i name) s where
  cache := h.cache
  listed := h.listed
  missing := by
    rintro d m hd hhit (⟨hi, rfl⟩ | hin)
    · exact hno d hd hi hhit
    · exact h.missing d m hd hhit hin

/-- A name goes that no node for the directory lists. -/
theorem Sound.removeName (h : Sound ino names lower s)
    (hno : ∀ d c, Backed s d → ino d = i → s.parentOf c = some d → s.nameOf c ≠ name) :
    Sound ino (removeName names i name) lower s where
  cache := h.cache
  listed := fun d c hd hc => ⟨h.listed d c hd hc, fun hin => hno d c hd hin.1 hc hin.2⟩
  missing := h.missing

end Names

section Ops

variable {ino : ℕ → ι} {names : ι → Set Name} {env : Env} {s₀ s s' : State}
  {k p c oldParent newParent : ℕ} {name path oldName newName oldPath newPath : Name}
  {cwd o : Option ℕ}

theorem Within.createDriver {info : FsNode} {type : VfsType} {ok : Bool}
    (h : Within ino names names s₀ 1 s) (henv : Answers ino names s₀ env)
    (hp : s.validNode p = true) (hnone : ∀ c, s.parentOf c = some p → s.nameOf c ≠ name)
    (hcreate : env.create p name type = some (some info))
    (hsafe : ¬(DriverCall.create p name true).Stale ino s)
    (hx : attachChildIfNeeded env (createFsNode s info).2 p s.next = (ok, s')) :
    Sound ino (addName names (ino p) name) (addName names (ino p) name) s' := by
  have hadd := (h.life.add info.name info.type 0 info.callbacks).1
  have hself := nodes_add_self s (.fresh info.name info.type 0 info.callbacks)
  set u := (createFsNode s info).2
  have hinfo : Backed s p → info.name = name := fun hb => (h.answers henv hb name).2.2 _ _ hcreate
  have hup : Within ino (addName names (ino p) name) names s₀ 1 s :=
    { h with sound := h.sound.mono (subset_addName names _ name) fun _ => subset_rfl }
  have hdone : Within ino (addName names (ino p) name) names s₀ 0 s' :=
    hup.addAttach hp (fun hb => .inl ⟨rfl, hinfo hb⟩) hx
  refine hdone.sound.addName fun d hd hi hhit => ?_
  have hcache := (h.sound.add h.life info.name info.type 0 info.callbacks).cache
  have hroom := h.room_add info.name info.type 0 info.callbacks
  have hages := ages_attachChildIfNeeded hadd.plainLinks hx
  obtain ⟨hhit', x, y, hnx, hny, hseq⟩ := hages.hit hroom hcache hhit
  obtain ⟨hdn, hhit''⟩ := negCacheHit_add hhit'
  have hd' : Backed s d := backed_add hdn (hages.backed hd)
  by_cases hdp : d = p
  · -- the new node is linked, so that nothing remembered counts
    subst hdp
    have hfresh : u.parentOf s.next = none := by
      exact (congrArg (Option.bind · Node.parent) hself).trans rfl
    have hvalid : u.validNode s.next = true := by
      exact (congrArg Option.isSome hself).trans rfl
    have hname : u.nameOf s.next = name := by
      rw [← hinfo hd', State.nameOf]
      exact (congrArg (fun o => (o.map Node.name).getD []) hself).trans rfl
    rcases attachChildIfNeeded_cases hadd.plainLinks hx with ⟨-, htrue, hfalse⟩ |
      ⟨-, -, -, s1, hs1, -, -, ⟨-, -, e, he, hename⟩ | ⟨-, rfl, -⟩⟩
    · cases ok with
      | true => exact absurd (hfresh.symm.trans (htrue rfl)) (some_ne_none _).symm
      | false =>
        refine hfalse rfl ?_ hvalid hfresh
        rw [State.validNode, hnx]
        rfl
    · have hen : e ≠ s.next := fun heq => by
        rw [heq] at he
        exact absurd (hfresh.symm.trans he) (some_ne_none _).symm
      have hold : u.nodes e = s.nodes e := nodes_add_ne hen _
      refine hnone e ?_ ?_
      · rw [State.parentOf, ← hold]
        exact he
      · rw [State.nameOf, ← hold]
        exact hename.trans hname
    · have hframe : Frame Node.childSeq u s1 := by
        rcases hs1 with rfl | rfl
        · exact .refl _ _
        · exact frame_modify _ d fun _ => rfl
      have hbump := childSeq_linkChild s1 d s.next
      rw [hny, hframe.nodes d, show u.nodes d = some x from hnx] at hbump
      have hbump' : y.childSeq = (x.childSeq + 1) % 2 ^ 64 := some.inj hbump
      omega
  · exact hsafe ⟨d, hd', hi, hhit'', fun heq => hdp heq.1⟩

theorem Within.createNode (h : Within ino names names s₀ 1 s) (env : Env) (name : Name)
    (type : VfsType) (hp : s.validNode p = true) (hb : ¬Backed s p) :
    Sound ino names names (createNode env s name type (some p)).2 := by
  unfold Vfs.createNode
  split
  · exact h.sound
  dsimp only
  generalize hx : attachChildIfNeeded env (s.add (.fresh name type 1 .none)).2 p
    (s.add (.fresh name type 1 .none)).1 = r
  obtain ⟨ok, t⟩ := r
  have hdone : Within ino names names s₀ 0 t := h.addAttach hp (fun hb' => absurd hb' hb) hx
  cases ok with
  | true => exact hdone.sound
  | false => exact hdone.sound.fade hdone.room (ages_free t _) (sheds_free t _)

theorem Within.createAt {type : VfsType}
    (h : Within ino names names s₀ (path.length + 2) s) (henv : Answers ino names s₀ env)
    (hsafe : ∀ call t, (DirOp.createAt cwd path type).driverCall env s = some (call, t) →
      ¬call.Stale ino t) :
    Sound ino ((DirOp.createAt cwd path type).names ino names env s)
      ((DirOp.createAt cwd path type).names ino names env s)
      (createAt env s cwd path type).2 := by
  have hsplit := (h.less (j := 2 + path.length) (by omega)).splitParentAt henv (cwd.getD s.root)
  dsimp only [DirOp.names, DirOp.driverCall] at hsafe ⊢
  unfold Vfs.createAt
  generalize hr : Vfs.splitParentAt env s (cwd.getD s.root) path = r at hsplit hsafe ⊢
  obtain ⟨_ | ⟨p, name⟩, t⟩ := r
  · exact hsplit.sound
  obtain ⟨hp, hname, -⟩ := splitParentAt_eq_some hr
  have hfind := hsplit.finddir henv p name
  dsimp only at hfind hsafe ⊢
  generalize hlook : Vfs.finddir env t p name = r at hfind hsafe ⊢
  obtain ⟨_ | existing, u⟩ := r
  swap
  · exact hfind.sound
  obtain ⟨hp', hnone⟩ := finddir_eq_none hsplit.life.plainLinks hp hname hlook
  dsimp only at hfind hsafe ⊢
  by_cases hcb : (u.nodes p).map (fun x => x.callbacks.create) = some true
  · rw [if_pos hcb] at hsafe ⊢
    rw [hcb]
    rcases hcreate : env.create p name type with _ | o
    · exact hfind.sound
    rw [hcreate] at hsafe
    have hstale := hsafe _ _ rfl
    obtain _ | info := o
    · exact (hfind.sound.mono (subset_addName names _ name) fun _ => subset_rfl).addName
        fun d hd hi hhit => hstale ⟨d, hd, hi, hhit, fun heq => by cases heq.2⟩
    dsimp only
    generalize hx : attachChildIfNeeded env (createFsNode u info).2 p u.next = r
    obtain ⟨ok, s'⟩ := r
    have hdone := hfind.createDriver henv hp' hnone hcreate hstale hx
    have hx' : attachChildIfNeeded env (createFsNode u info).2 p (createFsNode u info).1 =
        (ok, s') := hx
    rw [hx']
    cases ok <;> exact hdone
  · rw [if_neg hcb]
    have hb : ¬Backed u p := by
      rintro ⟨x, hx, hb⟩
      unfold Node.backed at hb
      rw [Bool.and_eq_true, Bool.and_eq_true, Bool.and_eq_true] at hb
      exact hcb (by rw [hx, map_some, hb.1.1.2])
    have hdone := hfind.createNode env name type hp' hb
    split
    · rename_i heq
      exact absurd heq hcb
    · exact hdone

theorem fades_detachDrop (h : Links s.view)
    (hx : detachCachedChild s p name = (o, s')) :
    Ages 1 s (dropDetached s' o) ∧ Sheds s (dropDetached s' o) ∧
      ∀ c, (dropDetached s' o).parentOf c = some p → (dropDetached s' o).nameOf c ≠ name := by
  obtain ⟨hages, hsheds, hno, -⟩ := fades_detachCachedChild h hx
  obtain ⟨hages', hsheds'⟩ := fades_dropDetached s' o
  refine ⟨hages.trans hages', hsheds.trans hsheds', fun c hc => ?_⟩
  obtain ⟨hc', hname⟩ := hsheds' c p hc
  rw [hname]
  exact hno c hc'

/-- The name goes with the node that listed it, if no other node for the directory lists it. -/
theorem Within.unlisted {j : ℕ} (h : Within ino names names s₀ k s) (hjk : j ≤ k)
    (hages : Ages j s s') (hsheds : Sheds s s')
    (hno : ∀ c, s'.parentOf c = some p → s'.nameOf c ≠ name)
    (hstale : ∀ d, Backed s d → ino d = ino p → d ≠ p → ¬(findCachedChild s d name).isSome = true) :
    Sound ino (removeName names (ino p) name) (removeName names (ino p) name) s' := by
  refine ((h.sound.fade (h.room.mono hjk) hages hsheds).mono (fun _ => subset_rfl)
    (removeName_subset names _ name)).removeName fun d c hd hi hc hname => ?_
  by_cases hdp : d = p
  · exact hno c (hdp ▸ hc) hname
  · obtain ⟨hc', hsame⟩ := hsheds c d hc
    refine hstale d (hages.backed hd) hi hdp ?_
    rw [← hname, hsame, findCachedChild_of_child h.life.plainLinks hc']
    rfl

theorem Within.unlinkAt (h : Within ino names names s₀ (path.length + 2) s)
    (henv : Answers ino names s₀ env)
    (hsafe : ∀ call t, (DirOp.unlinkAt cwd path).driverCall env s = some (call, t) →
      ¬call.Stale ino t) :
    Sound ino ((DirOp.unlinkAt cwd path).names ino names env s)
      ((DirOp.unlinkAt cwd path).names ino names env s) (unlinkAt env s cwd path).2 := by
  have hsplit := (h.less (j := 2 + path.length) (by omega)).splitParentAt henv (cwd.getD s.root)
  dsimp only [DirOp.names, DirOp.driverCall] at hsafe ⊢
  unfold Vfs.unlinkAt
  generalize hr : Vfs.splitParentAt env s (cwd.getD s.root) path = r at hsplit hsafe ⊢
  obtain ⟨_ | ⟨p, name⟩, t⟩ := r
  · exact hsplit.sound
  dsimp only at hsplit hsafe ⊢
  by_cases hcb : (t.nodes p).map (fun x => x.callbacks.unlink) = some true
  · rw [hcb]
    by_cases hok : env.unlink p name = true
    · rw [if_pos ⟨hcb, hok⟩] at hsafe
      rw [if_pos ⟨rfl, hok⟩, if_pos hok]
      have hstale := hsafe _ _ rfl
      generalize hx : detachCachedChild t p name = r
      obtain ⟨hages, hsheds, hno⟩ := fades_detachDrop hsplit.life.plainLinks hx
      exact hsplit.unlisted (Nat.le_succ 1) hages hsheds hno
        fun d hd hi hdp hfound => hstale ⟨d, hd, hi, hdp, hfound⟩
    · rw [if_neg fun hboth => hok hboth.2, if_neg hok]
      exact hsplit.sound
  · rw [if_neg fun hboth => hcb hboth.1]
    have hfind := hsplit.finddir henv p name
    split
    · rename_i heq
      exact absurd heq hcb
    generalize Vfs.finddir env t p name = r at hfind ⊢
    obtain ⟨_ | n, u⟩ := r
    · exact hfind.sound
    dsimp only at hfind ⊢
    split
    · obtain ⟨hages, hsheds, -⟩ := fades_detachDrop (o := (detachCachedChild u p name).1)
        hfind.life.plainLinks rfl
      exact hfind.sound.fade hfind.room hages hsheds
    · exact hfind.sound

theorem fades_renameDriver (h : Life [] (fun _ => 0) s) (oldParent : ℕ) (oldName : Name)
    (newParent : ℕ) (newName : Name) :
    Ages 2 s (renameDriver s oldParent oldName newParent newName) ∧
      Sheds s (renameDriver s oldParent oldName newParent newName) ∧
      (∀ c, (renameDriver s oldParent oldName newParent newName).parentOf c = some oldParent →
        (renameDriver s oldParent oldName newParent newName).nameOf c ≠ oldName) ∧
      ∀ x y, (findCachedChild s oldParent oldName).isSome = true → Room 2 s →
        s.nodes oldParent = some x →
        (renameDriver s oldParent oldName newParent newName).nodes oldParent = some y →
        x.childSeq < y.childSeq := by
  have hmark : ∀ (t : State) (o : Option ℕ),
      Ages 0 t (o.elim t fun n => t.modify n Node.withUnlinked) ∧
        Sheds t (o.elim t fun n => t.modify n Node.withUnlinked) := by
    intro t o
    cases o with
    | none => exact ⟨.refl t, .refl t⟩
    | some n => exact fades_withUnlinked t n
  unfold renameDriver
  generalize hx : detachCachedChild s oldParent oldName = r
  obtain ⟨o1, s1⟩ := r
  obtain ⟨hages1, hsheds1, hno, hbump⟩ := fades_detachCachedChild h.plainLinks hx
  have h1 := (h.detach hx).1
  dsimp only
  generalize hy : detachCachedChild s1 newParent newName = r
  obtain ⟨o2, s2⟩ := r
  obtain ⟨hages2, hsheds2, -, -⟩ := fades_detachCachedChild h1.plainLinks hy
  generalize hs3 : o2.elim (o1.elim s2 fun n => s2.modify n Node.withUnlinked) (fun n =>
    (o1.elim s2 fun n => s2.modify n Node.withUnlinked).modify n Node.withUnlinked) = s3
  have hages3 : Ages 0 s2 s3 := by
    rw [← hs3]
    exact (hmark s2 o1).1.trans (hmark _ o2).1
  have hsheds3 : Sheds s2 s3 := by
    rw [← hs3]
    exact (hmark s2 o1).2.trans (hmark _ o2).2
  obtain ⟨hages4, hsheds4⟩ := fades_dropDetached s3 o1
  obtain ⟨hages5, hsheds5⟩ := fades_dropDetached (dropDetached s3 o1) o2
  have hages : Ages 1 s1 (dropDetached (dropDetached s3 o1) o2) :=
    hages2.trans (hages3.trans (hages4.trans hages5))
  have hsheds : Sheds s1 (dropDetached (dropDetached s3 o1) o2) :=
    hsheds2.trans (hsheds3.trans (hsheds4.trans hsheds5))
  refine ⟨hages1.trans hages, hsheds1.trans hsheds, fun c hc => ?_,
    fun x y hfound hroom hnx hny => ?_⟩
  · obtain ⟨hc', hname⟩ := hsheds c oldParent hc
    rw [hname]
    exact hno c hc'
  obtain ⟨z, hz, hzy⟩ := hages oldParent y hny
  have hseq := hbump (isSome_iff_ne_none.mp hfound)
  rw [hz, hnx] at hseq
  have hseq' : z.childSeq = (x.childSeq + 1) % 2 ^ 64 := some.inj hseq
  have hlt := hroom oldParent x hnx
  have := (hzy.seq (by omega)).1
  omega

theorem Within.renameMemory (h : Within ino names names s₀ 3 s) (hold : ¬Backed s oldParent)
    (hnew : ¬Backed s newParent) :
    Sound ino names names (renameMemory env s oldParent oldName newParent newName).2 := by
  unfold Vfs.renameMemory
  generalize hx : detachCachedChild s oldParent oldName = r
  obtain ⟨o, s1⟩ := r
  obtain ⟨hlife1, -, -, -, hnode⟩ := h.life.detach hx
  obtain ⟨hages1, hsheds1, -, -⟩ := fades_detachCachedChild h.life.plainLinks hx
  have hsound1 := h.sound.fade (h.room.mono (by omega)) hages1 hsheds1
  have hroom1 : Room 2 s1 := hages1.room h.room
  obtain _ | n := o
  · exact hsound1
  obtain ⟨-, hnone, hv⟩ := hnode n rfl
  dsimp only
  split
  · have hview := view_withName hv newName
    set s2 := s1.modify n (·.withName newName)
    have hlinks2 : Links s2.view := by
      rw [hview]
      exact hlife1.plainLinks.renamed hnone newName
    have hages2 : Ages 0 s1 s2 :=
      ages_modify s1 n fun _ => ages_same rfl rfl rfl rfl rfl
    have hsheds2 : Sheds s1 s2 := by
      intro c d hc
      have hparent : s2.parentOf c = s1.parentOf c :=
        congrFun (congrArg View.parent hview) c
      rw [hparent] at hc
      have hcn : c ≠ n := fun heq => by
        rw [heq, hnone] at hc
        cases hc
      refine ⟨hc, ?_⟩
      have hname : s2.nameOf =
          update s1.nameOf n newName := congrArg View.name hview
      rw [hname, update_of_ne hcn]
    have hsound2 := hsound1.fade (hroom1.mono (Nat.zero_le 2)) hages2 hsheds2
    have hroom2 : Room 2 s2 := hages2.room hroom1
    generalize hy : attachChildIfNeeded env s2 newParent n = r
    obtain ⟨ok, s3⟩ := r
    have hages := hages1.trans hages2
    have hsound3 := hsound2.attach hlinks2 (hroom2.mono (Nat.le_succ 1))
      (fun hb => absurd (hages.backed hb) hnew) hy
    have hages3 := ages_attachChildIfNeeded hlinks2 hy
    cases ok with
    | true => exact hsound3
    | false =>
      exact hsound3.attach (p := oldParent) (c := n) (attachChildIfNeeded_spec hlinks2 hy).1
        (hages3.room hroom2) (fun hb => absurd (hages.backed (hages3.backed hb)) hold) rfl
  · exact hsound1.attach (p := oldParent) (c := n) hlife1.plainLinks
      (hroom1.mono (Nat.le_succ 1)) (fun hb => absurd (hages1.backed hb) hold) rfl

/-- What holds at some point of an operation holds as if it started there. -/
theorem Within.rebase (h : Within ino names names s₀ k s) (henv : Answers ino names s₀ env) :
    Within ino names names s k s ∧ Answers ino names s env :=
  ⟨⟨h.life, h.sound, h.room, le_rfl, fun _ _ hb => hb⟩, fun d hd =>
    henv d fun hlt => h.since d hlt (hd (hlt.trans_le h.next))⟩

theorem Life.lt_next {refs : ℕ → ℕ} (h : Life [] refs s) (hd : s.validNode d = true) :
    d < s.next := by
  by_contra hle
  rw [State.validNode, h.fresh d (Nat.le_of_not_lt hle)] at hd
  cases hd

theorem Within.renameAt (h : Within ino names names s₀ (oldPath.length + newPath.length + 5) s)
    (henv : Answers ino names s₀ env)
    (hsafe : ∀ call t, (DirOp.renameAt cwd oldPath newPath).driverCall env s = some (call, t) →
      ¬call.Stale ino t) (hmemory : ¬(DirOp.renameAt cwd oldPath newPath).MovesMemory env s) :
    Sound ino ((DirOp.renameAt cwd oldPath newPath).names ino names env s)
      ((DirOp.renameAt cwd oldPath newPath).names ino names env s)
      (renameAt env s cwd oldPath newPath).2 := by
  have hsplit := (h.less (j := (newPath.length + 5) + oldPath.length) (by omega)).splitParentAt henv
    (cwd.getD s.root)
  dsimp only [DirOp.names, DirOp.driverCall, DirOp.MovesMemory] at hsafe hmemory ⊢
  unfold Vfs.renameAt
  generalize hr : Vfs.splitParentAt env s (cwd.getD s.root) oldPath = r at hsplit hsafe hmemory ⊢
  obtain ⟨_ | ⟨oldParent, oldName⟩, s1⟩ := r
  · exact hsplit.sound
  dsimp only at hsplit hsafe ⊢
  obtain ⟨hsplit1, henv1⟩ := hsplit.rebase henv
  have hsplit2 := (hsplit1.less (j := 5 + newPath.length) (by omega)).splitParentAt henv1
    (cwd.getD s1.root)
  generalize hr2 : Vfs.splitParentAt env s1 (cwd.getD s1.root) newPath = r at hsplit2 hsafe ⊢
  obtain ⟨_ | ⟨newParent, newName⟩, s2⟩ := r
  · exact hsplit2.sound
  dsimp only at hsplit2 hsafe ⊢
  by_cases hcb : (s2.nodes oldParent).map (fun x => x.callbacks.rename) = some true
  · rw [hcb]
    by_cases hok : env.rename oldParent oldName newParent newName = true
    · rw [if_pos ⟨hcb, hok⟩] at hsafe
      rw [if_pos ⟨rfl, hok⟩, if_pos hok]
      have hstale := hsafe _ _ rfl
      obtain ⟨hages, hsheds, hno, hbump⟩ := fades_renameDriver hsplit2.life oldParent
        oldName newParent newName
      have hroom : Room 2 s2 := hsplit2.room.mono (by omega)
      have hremoved := hsplit2.unlisted (by omega) hages hsheds hno
        fun d hd hi hdp hfound => hstale (.inl ⟨d, hd, hi, hdp, hfound⟩)
      refine (hremoved.mono (subset_addName _ (ino newParent) newName)
        fun _ => subset_rfl).addName fun d hd hi hhit => ?_
      obtain ⟨hhit', x, y, hnx, hny, hseq⟩ := hages.hit hroom hsplit2.sound.cache hhit
      refine hstale (.inr ⟨d, hages.backed hd, hi, hhit', ?_⟩)
      -- if the old name was listed here, what is remembered does not count any more
      rintro ⟨rfl, hfound⟩
      have := hbump x y hfound hroom hnx hny
      omega
    · rw [if_neg fun hboth => hok hboth.2, if_neg hok]
      exact hsplit2.sound
  · rw [if_neg fun hboth => hcb hboth.1]
    have hnew : ¬Backed s2 newParent := fun hb =>
      hmemory ⟨oldParent, oldName, newParent, newName, s1, s2, rfl, hr2, hcb, hb⟩
    have hold : ¬Backed s2 oldParent := by
      rintro ⟨x, hx, hb⟩
      unfold Node.backed at hb
      rw [Bool.and_eq_true] at hb
      exact hcb (by rw [hx, map_some, hb.2])
    split
    · rename_i heq
      exact absurd heq hcb
    obtain ⟨hbase, henv2⟩ := hsplit2.rebase henv1
    have hltOld := (hsplit.life.lt_next (splitParentAt_eq_some hr).1).trans_le hsplit2.next
    have hltNew := hbase.life.lt_next (splitParentAt_eq_some hr2).1
    have hfind := hbase.finddir henv2 oldParent oldName
    generalize Vfs.finddir env s2 oldParent oldName = r at hfind ⊢
    obtain ⟨_ | n, s3⟩ := r
    · exact hfind.sound
    dsimp only at hfind ⊢
    split
    · have hfind2 := hfind.finddir henv2 newParent newName
      generalize Vfs.finddir env s3 newParent newName = r at hfind2 ⊢
      obtain ⟨_ | m, s4⟩ := r
      · exact hfind2.renameMemory (fun hb => hold (hfind2.since _ hltOld hb))
          fun hb => hnew (hfind2.since _ hltNew hb)
      · exact hfind2.sound
    · exact hfind.sound

end Ops

/-! ### Runs -/

/-- What holds between operations. -/
structure DirInv (ino : ℕ → ι) (y : DirSys ι) : Prop where
  life : Life [] (fun _ => 0) y.vfs
  sound : Sound ino y.names y.names y.vfs
  component : ∀ i, ∀ name ∈ y.names i, name ≠ [] ∧ name.length ≤ vfsMaxComponent

section Runs

variable {ino : ℕ → ι} {env : Env} {op : DirOp} {y y' : DirSys ι}

theorem Mounted.dirInv (h : Mounted ino y) : DirInv ino y where
  life := by
    refine ⟨?_, h.fresh, fun _ => Nat.zero_le _, fun n p _ => ?_, h.rootHeld, h.rootTop,
      fun n hn => by cases hn⟩
    · rw [withoutTables_nil]
      exact h.links
    · exact (eq_zero_or_pos _).symm
  sound := by
    refine ⟨fun d x hx => ?_, h.listed, fun d name hd hhit => ?_⟩
    · obtain ⟨hcount, hnext⟩ := h.empty d x hx
      refine ⟨by rw [hnext]; decide, fun _ => hnext.trans hcount.symm, fun entries _ i hi => ?_⟩
      rw [hcount] at hi
      exact absurd hi (Nat.not_lt_zero i)
    · obtain ⟨x, entries, i, hx, -, -, hi, -⟩ := negCacheHit_iff.mp hhit
      rw [(h.empty d x hx).1] at hi
      exact absurd hi (Nat.not_lt_zero i)
  component := h.component

/-- A name that a callback adds is a component of a path. -/
theorem DirOp.names_component {names : ι → Set Name} {s : State}
    (h : ∀ i, ∀ name ∈ names i, name ≠ [] ∧ name.length ≤ vfsMaxComponent) (i : ι) :
    ∀ name ∈ op.names ino names env s i, name ≠ [] ∧ name.length ≤ vfsMaxComponent := by
  intro m hm
  cases op with
  | finddir dir name => exact h i m hm
  | createAt cwd path type =>
    dsimp only [DirOp.names, DirOp.driverCall] at hm
    generalize hr : splitParentAt env s (cwd.getD s.root) path = r at hm
    obtain ⟨_ | ⟨p, name⟩, t⟩ := r
    · exact h i m hm
    dsimp only at hm
    generalize Vfs.finddir env t p name = r at hm
    obtain ⟨_ | existing, u⟩ := r
    swap
    · exact h i m hm
    dsimp only at hm
    split at hm
    · cases hcreate : env.create p name type with
      | none =>
        rw [hcreate] at hm
        exact h i m hm
      | some node =>
        rw [hcreate] at hm
        rcases hm with ⟨-, rfl⟩ | hm
        · exact (splitParentAt_eq_some hr).2
        · exact h i m hm
    · exact h i m hm
  | unlinkAt cwd path =>
    dsimp only [DirOp.names, DirOp.driverCall] at hm
    generalize splitParentAt env s (cwd.getD s.root) path = r at hm
    obtain ⟨_ | ⟨p, name⟩, t⟩ := r
    · exact h i m hm
    dsimp only at hm
    split at hm
    · exact h i m hm.1
    · exact h i m hm
  | renameAt cwd oldPath newPath =>
    dsimp only [DirOp.names, DirOp.driverCall] at hm
    generalize splitParentAt env s (cwd.getD s.root) oldPath = r at hm
    obtain ⟨_ | ⟨oldParent, oldName⟩, t⟩ := r
    · exact h i m hm
    dsimp only at hm
    generalize hr : splitParentAt env t (cwd.getD t.root) newPath = r at hm
    obtain ⟨_ | ⟨newParent, newName⟩, u⟩ := r
    · exact h i m hm
    dsimp only at hm
    split at hm
    · rcases hm with ⟨-, rfl⟩ | hm
      · exact (splitParentAt_eq_some hr).2
      · exact h i m hm.1
    · exact h i m hm

/-- An operation that leaves nothing stale behind. -/
theorem DirInv.step (h : DirInv ino y) (hcall : DirCalls ino env op y y')
    (hsafe : ¬op.GoesStale ino env y.vfs) : DirInv ino y' := by
  obtain ⟨henv, rfl⟩ := hcall
  have hstale : ∀ call t, op.driverCall env y.vfs = some (call, t) → ¬call.Stale ino t :=
    fun call t hcall hst => hsafe (.inl ⟨call, t, hcall, hst⟩)
  have hwithin : Within ino y.names y.names y.vfs op.bumps y.vfs := by
    refine ⟨h.life, h.sound, fun d x hx => ?_, le_rfl, fun _ _ hb => hb⟩
    by_contra hle
    exact hsafe (.inr (.inr ⟨d, x, hx, Nat.le_of_not_lt hle⟩))
  refine ⟨?_, ?_, DirOp.names_component h.component⟩
  · cases op with
    | finddir dir name => exact h.life.finddir env dir name
    | createAt cwd path type => exact h.life.createAt cwd path type
    | unlinkAt cwd path => exact h.life.unlinkAt cwd path
    | renameAt cwd oldPath newPath => exact h.life.renameAt env cwd oldPath newPath
  · cases op with
    | finddir dir name => exact (Within.finddir (k := 0) hwithin henv dir name).sound
    | createAt cwd path type => exact hwithin.createAt henv hstale
    | unlinkAt cwd path => exact hwithin.unlinkAt henv hstale
    | renameAt cwd oldPath newPath =>
      exact hwithin.renameAt henv hstale fun hmoves => hsafe (.inr (.inl hmoves))

end Runs

/-- After any run of operations that leave nothing stale behind, a lookup in a directory of a
driver finds a node if and only if the driver has the name. -/
theorem finddir_iff_of_run {ino : ℕ → ι} {y₀ y : DirSys ι} (hstart : Mounted ino y₀)
    (hrun : ReflTransGen (fun a b => ∃ env op, DirCalls ino env op a b ∧
      ¬op.GoesStale ino env a.vfs) y₀ y)
    {env : Env} (henv : Answers ino y.names y.vfs env) {d : ℕ} (hd : Backed y.vfs d)
    (name : Name) : (finddir env y.vfs d name).1.isSome = true ↔ name ∈ y.names (ino d) := by
  have hinv : DirInv ino y := Step.run_invariant hrun hstart.dirInv
    fun h ⟨_, _, hcall, hsafe⟩ => h.step hcall hsafe
  exact hinv.sound.isSome_finddir_iff hinv.life.plainLinks (henv d (fun _ => hd) name).1
    hinv.component hd

/-- A driver that has the names of a list in the root directory and grants every request. -/
def Env.granting (l : List Name) : Env where
  hashAlloc := fun _ _ => true
  negAlloc := fun _ => true
  nodeAlloc := true
  nameAlloc := fun _ => true
  copyAlloc := true
  finddir := fun d name => if d = 0 ∧ name ∈ l then some ⟨name, .file, .none⟩ else none
  create := fun _ name type => some (some ⟨name, type, .none⟩)
  unlink := fun _ _ => true
  rename := fun _ _ _ _ => true

theorem answers_granting {names : ℕ → Set Name} (h : ∀ d name, name ∈ names d ↔ d = 0 ∧ name ∈ l)
    (s : State) : Answers id names s (.granting l) := by
  intro d _ name
  refine ⟨?_, fun info hinfo => ?_, fun type info hinfo => ?_⟩
  · rw [id_eq, h]
    dsimp only [Env.granting]
    split_ifs with hin
    · exact ⟨fun _ => hin, fun _ => rfl⟩
    · exact ⟨fun hsome => (by cases hsome), fun hin' => absurd hin' hin⟩
  · dsimp only [Env.granting] at hinfo
    split_ifs at hinfo
    rw [← some.inj hinfo]
  · rw [← some.inj (some.inj hinfo)]

/-- A driver is mounted on the root, which has the names of a list. -/
def DirSys.mounted (l : List Name) : DirSys ℕ where
  vfs := ⟨fun n => if n = 0 then some (.fresh [47] .directory 1 ⟨true, true, false, true, true,
    true⟩) else none, 1, 0⟩
  names := fun d => {name | d = 0 ∧ name ∈ l}

theorem nodes_mounted {x : Node} (h : (DirSys.mounted l).vfs.nodes d = some x) :
    d = 0 ∧ x = .fresh [47] .directory 1 ⟨true, true, false, true, true, true⟩ := by
  dsimp only [DirSys.mounted] at h
  split_ifs at h with hd
  exact ⟨hd, (some.inj h).symm⟩

theorem mounted_mounted (h : ∀ name ∈ l, name ≠ [] ∧ name.length ≤ vfsMaxComponent) :
    Mounted id (.mounted l) where
  links := links_root 1 _ 1 0
  fresh := by
    intro n hn
    have hne : n ≠ 0 := ne_of_gt hn
    exact if_neg hne
  rootHeld := one_pos
  rootTop := rfl
  empty := by
    intro d x hx
    obtain ⟨-, rfl⟩ := nodes_mounted hx
    exact ⟨rfl, rfl⟩
  listed := by
    intro d c _ hc
    obtain ⟨x, hx, hparent⟩ := bind_eq_some_iff.mp hc
    obtain ⟨-, rfl⟩ := nodes_mounted hx
    cases hparent
  component := fun _ name hname => h name hname.2

theorem DirOp.names_eq {ino : ℕ → ι} {names : ι → Set Name} {env : Env} {s : State} {op : DirOp}
    {call : DriverCall} (h : (op.driverCall env s).map Prod.fst = some call) :
    op.names ino names env s = call.names ino names := by
  obtain ⟨⟨_, t⟩, hcall, rfl⟩ := map_eq_some_iff.mp h
  rw [DirOp.names, hcall]
  rfl

/-- A missing name is looked up by `create_at`, which then creates it. -/
theorem finddir_iff_of_run_create :
    (finddir (.granting [[98]]) ((DirSys.mounted []).after id (.granting [])
      (.createAt none [47, 98] .file)).vfs 0 [98]).1.isSome = true ↔
    [98] ∈ ((DirSys.mounted []).after id (.granting [])
      (.createAt none [47, 98] .file)).names 0 := by
  have hcall : ((DirOp.createAt none [47, 98] .file).driverCall (.granting [])
      (DirSys.mounted []).vfs).map Prod.fst = some (.create 0 [98] true) := by decide
  have hbacked : (((DirSys.mounted []).after id (.granting [])
      (.createAt none [47, 98] .file)).vfs.nodes 0).map Node.backed = some true := by
    decide
  have hsafe : ¬(DirOp.createAt none [47, 98] .file).GoesStale id (.granting [])
      (DirSys.mounted []).vfs := by
    rintro (⟨call, t, hsome, hstale⟩ | hmoves | ⟨d, x, hx, hle⟩)
    · rw [hsome] at hcall
      obtain rfl := some.inj hcall
      obtain ⟨d, -, hi, -, hne⟩ := hstale
      exact hne ⟨hi, rfl⟩
    · exact hmoves
    · obtain ⟨-, rfl⟩ := nodes_mounted hx
      exact absurd hle (by decide)
  refine finddir_iff_of_run (mounted_mounted fun name hname => by cases hname)
    (.single ⟨_, _, ⟨answers_granting (fun _ _ => Iff.rfl) _, rfl⟩, hsafe⟩)
    (answers_granting (fun d name => ?_) _) (map_eq_some_iff.mp hbacked) [98]
  dsimp only [DirSys.after]
  rw [DirOp.names_eq hcall]
  simp [DriverCall.names, addName, DirSys.mounted]

theorem mem_names_rename {old new name : Name} :
    name ∈ (DriverCall.rename 0 old 0 new).names id (DirSys.mounted [old]).names d ↔
      d = 0 ∧ name ∈ [new] := by
  simp only [DriverCall.names, addName, removeName, DirSys.mounted, Set.mem_ofPred_eq, id_eq,
    List.mem_singleton]
  constructor
  · rintro (hnew | ⟨hold, hne⟩)
    · exact hnew
    · exact absurd hold hne
  · exact .inl

/-- A name was looked up and missing. -/
def DirSys.lookedUp : DirSys ℕ := (mounted [[97]]).after id (.granting [[97]]) (.finddir 0 [98])

/-- Another name was renamed to it. -/
def DirSys.renamedOver : DirSys ℕ :=
  lookedUp.after id (.granting [[97]]) (.renameAt none [47, 97] [47, 98])

theorem mem_names_renamedOver {name : Name} :
    name ∈ DirSys.renamedOver.names d ↔ d = 0 ∧ name ∈ [[98]] := by
  exact mem_names_rename

/-- The directory still remembers the new name as missing. -/
theorem rename_leaves_missing : ¬∀ (ι : Type) (ino : ℕ → ι) (y₀ y : DirSys ι), Mounted ino y₀ →
    ReflTransGen (fun a b => ∃ env op, DirCalls ino env op a b) y₀ y →
    ∀ env, Answers ino y.names y.vfs env → ∀ d, Backed y.vfs d → ∀ name,
      ((finddir env y.vfs d name).1.isSome = true ↔ name ∈ y.names (ino d)) := by
  intro hall
  have hbacked : (DirSys.renamedOver.vfs.nodes 0).map Node.backed = some true := by decide
  have hlookup : DirCalls id (.granting [[97]]) (.finddir 0 [98]) (.mounted [[97]]) .lookedUp :=
    ⟨answers_granting (fun _ _ => Iff.rfl) _, rfl⟩
  have hrename : DirCalls id (.granting [[97]]) (.renameAt none [47, 97] [47, 98]) .lookedUp
      .renamedOver := ⟨answers_granting (fun _ _ => Iff.rfl) _, rfl⟩
  have hiff := hall ℕ id _ _ (mounted_mounted (by decide))
    ((ReflTransGen.single ⟨_, _, hlookup⟩).tail ⟨_, _, hrename⟩) (.granting [[98]])
    (answers_granting (fun _ _ => mem_names_renamedOver) _) 0 (map_eq_some_iff.mp hbacked)
    [98]
  have hsome := hiff.mpr (mem_names_renamedOver.mpr ⟨rfl, List.mem_singleton_self _⟩)
  cases hsome

end RHKernel.Vfs
