import Mathlib.Data.List.Nodup
import RHKernel.File.Vfs.Links
import RHKernel.Lib.Forest
import RHKernel.Lib.Step

/-!
# The tree of memory nodes

Whether the nodes form a tree under the root. Nothing keeps a caller from moving a directory below
itself, from detaching a directory that still has children, or from attaching to a node that is
detached, and then there are nodes with a parent that do not lie under the root. In a run without
such calls every node with a parent is listed once by it and reaches the root, names and counts are
right, and hash tables have the children in their buckets (`treeOk_of_run`).

Lookups among memory nodes change nothing, so that the nodes a path names can be spoken of in the
state before the call.
-/

namespace RHKernel.Vfs

open Forest Function Option Relation State

variable {s : State}

/-- No node has callbacks. -/
def InMemory (s : State) : Prop := ∀ n node, s.nodes n = some node → node.callbacks = .none

section Lookup

variable {env : Env} {s s' : State} {p n : ℕ} {name path : Name}

variable (h : InMemory s)

include h

theorem InMemory.hasDriverLookup (n : ℕ) : hasDriverLookup s n = false := by
  unfold Vfs.hasDriverLookup
  cases hn : s.nodes n with
  | none => rfl
  | some x =>
    rw [map_some, getD_some, h n x hn]
    rfl

theorem InMemory.callback (n : ℕ) (g : Callbacks → Bool)
    (hg : g .none = false) : (s.nodes n).map (fun node => g node.callbacks) ≠ some true := by
  intro hsome
  rw [map_eq_some_iff] at hsome
  obtain ⟨x, hx, hgx⟩ := hsome
  rw [h n x hx, hg] at hgx
  cases hgx

theorem InMemory.finddir (hp : s.validNode p = true) (hname : name ≠ []) :
    finddir env s p name = (findCachedChild s p name, s) := by
  unfold Vfs.finddir
  have hempty : name.isEmpty = false := by
    cases name with
    | nil => exact absurd rfl hname
    | cons a l => rfl
  rw [hp, hempty, if_neg (by decide), h.hasDriverLookup, Bool.not_false, Bool.or_true, if_pos rfl]
  cases findCachedChild s p name <;> rfl

theorem InMemory.finddir_snd : (Vfs.finddir env s p name).2 = s := by
  by_cases hp : s.validNode p = true
  · by_cases hname : name = []
    · unfold Vfs.finddir
      rw [hname, List.isEmpty_nil, Bool.or_true, if_pos rfl]
    · rw [h.finddir hp hname]
  · unfold Vfs.finddir
    rw [Bool.not_eq_true] at hp
    rw [hp, Bool.not_false, Bool.true_or, if_pos rfl]

theorem InMemory.splitParentAt (cwd : ℕ) (path : Name) : (splitParentAt env s cwd path).2 = s := by
  refine splitParentAt_invariant (I := fun t => t = s) ?_ rfl cwd path
  rintro t p name rfl
  exact h.finddir_snd

end Lookup

/-! ### The invariant -/

/-- The links are consistent, every node with a parent lies under the root, and there are memory
nodes only. -/
structure TreeInv (s : State) : Prop where
  links : Links s.view
  memory : InMemory s
  fresh : ∀ n, s.next ≤ n → s.nodes n = none
  rootValid : s.validNode s.root = true
  rootTop : s.parentOf s.root = none
  reach : ∀ c p, s.parentOf c = some p → Reaches s.parentOf c s.root

section Invariant

variable {env : Env} {s s' u : State} {p c n q newParent : ℕ} {cwd parent : Option ℕ}
  {path name oldName newName oldPath newPath : Name}

theorem TreeInv.no_children (h : TreeInv s) (hn : s.parentOf n = none) (hroot : n ≠ s.root)
    (z : ℕ) : s.parentOf z ≠ some n := by
  intro hz
  have hup := (h.reach z n hz).of_parent hz (ne_of_parentOf h.rootTop hz)
  exact hroot (hup.eq_of_none hn)

theorem linkFree_callbacks : LinkFree Node.callbacks :=
  ⟨fun _ _ => rfl, fun _ _ => rfl, fun _ _ => rfl, fun _ _ => rfl, fun _ _ => rfl⟩

theorem InMemory.frame (h : InMemory s) (hf : Frame Node.callbacks s s') : InMemory s' := by
  intro n y hy
  obtain ⟨x, hx, hxy⟩ := hf.exists_node hy
  rw [← hxy]
  exact h n x hx

variable (h : TreeInv s)

include h

theorem TreeInv.of_frame (hf : Frame Node.callbacks s s') (hl : Links s'.view)
    (htop : s'.parentOf s.root = none)
    (hreach : ∀ c p, s'.parentOf c = some p → Reaches s'.parentOf c s.root) : TreeInv s' where
  links := hl
  memory := h.memory.frame hf
  fresh := hf.fresh h.fresh
  rootValid := by
    rw [hf.root, hf.validNode]
    exact h.rootValid
  rootTop := by
    rw [hf.root]
    exact htop
  reach := by
    rw [hf.root]
    exact hreach

/-- Attaching a node other than the root below a node under the root. -/
theorem TreeInv.attach {ok : Bool} (hp : Reaches s.parentOf p s.root)
    (hc : c ≠ s.root) (hx : attachChildIfNeeded env s p c = (ok, s')) : TreeInv s' := by
  obtain ⟨hl, -, hcase⟩ := attachChildIfNeeded_spec h.links hx
  have hf := frame_attachChildIfNeeded linkFree_callbacks h.links hx
  rcases hcase with hparent | ⟨hnone, hparent⟩
  · refine h.of_frame hf hl ?_ ?_
    · rw [hparent]
      exact h.rootTop
    · rw [hparent]
      exact h.reach
  have hleaf := h.no_children hnone hc
  -- the child has no children, so that the parent does not lie below it
  have hbelow : ¬Reaches s.parentOf p c := fun hpc => by
    obtain rfl := hpc.eq_of_leaf hleaf
    exact hc (hp.eq_of_none hnone)
  refine h.of_frame hf hl ?_ fun d q hd => ?_
  · rw [hparent, update_of_ne hc.symm]
    exact h.rootTop
  rw [hparent] at hd ⊢
  rcases update_eq_cases hd with ⟨rfl, -⟩ | ⟨-, hd⟩
  · exact .head (update_self _ _ _) (hp.update hbelow)
  · exact (h.reach d q hd).move hp hbelow

theorem TreeInv.unlink (hc : s.parentOf c = some p)
    (hleaf : s.childrenOf c = []) : TreeInv (unlinkChild s p c) := by
  obtain ⟨hl, hparent, -⟩ := h.links.unlinkChild hc
  have hno : ∀ z, s.parentOf z ≠ some c := fun z hz => by
    have hz' : z ∈ s.childrenOf c := (h.links.link c z).mpr hz
    rw [hleaf] at hz'
    cases hz'
  refine h.of_frame (frame_unlinkChild linkFree_callbacks s p c) hl ?_ fun d q hd => ?_
  · rw [hparent, update_of_ne (ne_of_parentOf h.rootTop hc).symm]
    exact h.rootTop
  · rw [hparent] at hd ⊢
    obtain ⟨hdc, hd⟩ := update_none_eq_some hd
    exact (h.reach d q hd).remove_leaf hno hdc

theorem TreeInv.modify {f : Node → Node} (hview : (s.modify n f).view = s.view)
    (hf : ∀ x, (f x).callbacks = x.callbacks) : TreeInv (s.modify n f) := by
  have hparent : (s.modify n f).parentOf = s.parentOf := congrArg View.parent hview
  refine h.of_frame (frame_modify s n hf) ?_ ?_ ?_
  · rw [hview]
    exact h.links
  · rw [hparent]
    exact h.rootTop
  · rw [hparent]
    exact h.reach

theorem TreeInv.free (hn : s.parentOf n = none) (hleaf : s.childrenOf n = [])
    (hroot : n ≠ s.root) : TreeInv (s.free n) := by
  have hparent := parentOf_free hn
  refine ⟨?_, ?_, fresh_free h.fresh n, ?_, ?_, ?_⟩
  · rw [view_free]
    exact h.links.set hn hleaf rfl rfl rfl rfl fun m hm => by cases hm
  · intro m x hx
    by_cases hm : m = n
    · rw [hm, nodes_free_self] at hx
      cases hx
    · rw [nodes_free_ne hm] at hx
      exact h.memory m x hx
  · exact (congrArg Option.isSome (nodes_free_ne hroot.symm)).trans h.rootValid
  · rw [hparent]
    exact h.rootTop
  · rw [hparent]
    exact h.reach

theorem TreeInv.add (name : Name) (type : VfsType) :
    TreeInv (s.add (.fresh name type 1 .none)).2 ∧
      (s.add (.fresh name type 1 .none)).2.parentOf = s.parentOf ∧ s.next ≠ s.root := by
  have hn := h.fresh s.next (le_refl _)
  obtain ⟨hl, hparent⟩ := h.links.add hn name type 1 .none
  have hroot : s.next ≠ s.root := fun heq => by
    have hv := h.rootValid
    rw [validNode, ← heq, hn] at hv
    cases hv
  refine ⟨⟨hl, ?_, ?_, ?_, ?_, ?_⟩, hparent, hroot⟩
  · intro m x hx
    by_cases hm : m = s.next
    · rw [hm, nodes_add_self] at hx
      obtain rfl := some.inj hx
      rfl
    · rw [nodes_add_ne hm] at hx
      exact h.memory m x hx
  · intro m hm
    have hm' : s.next + 1 ≤ m := hm
    rw [nodes_add_ne (by omega)]
    exact h.fresh m (by omega)
  · exact (congrArg Option.isSome (nodes_add_ne hroot.symm _)).trans h.rootValid
  · rw [hparent]
    exact h.rootTop
  · rw [hparent]
    exact h.reach

/-- A new node is attached below a node under the root, or stays alone. -/
theorem TreeInv.createNode {type : VfsType}
    (hp : ∀ q, parent = some q → Reaches s.parentOf q s.root) :
    TreeInv (createNode env s name type parent).2 := by
  obtain ⟨hadd, hparent, hne⟩ := h.add name type
  set u := s.add (.fresh name type 1 .none)
  have hnone : u.2.parentOf s.next = none := by
    rw [hparent]
    exact parentOf_eq_none_of_invalid (h.fresh s.next (le_refl _))
  unfold Vfs.createNode
  split_ifs
  · exact h
  obtain _ | q := parent
  · exact hadd
  dsimp only
  have hq : Reaches u.2.parentOf q s.root := by
    rw [hparent]
    exact hp q rfl
  generalize hx : attachChildIfNeeded env u.2 q u.1 = r
  obtain ⟨ok, t⟩ := r
  have hinv : TreeInv t := hadd.attach hq hne hx
  cases ok with
  | true => exact hinv
  | false =>
    -- the node was not linked and is freed
    have hroot := (frame_attachChildIfNeeded linkFree_callbacks hadd.links hx).root
    have hnone' : t.parentOf s.next = none := by
      rw [(attachChildIfNeeded_false hadd.links hx).1, hnone]
    have hne' : s.next ≠ t.root := by
      rw [hroot]
      exact hne
    exact hinv.free hnone' (childrenOf_eq_nil hinv.links (hinv.no_children hnone' hne')) hne'

/-- Putting a node whose last reference it is only happens to a node without links. -/
theorem TreeInv.putNode (hlast : ∀ node, s.nodes n = some node → node.refCount = 1 →
      s.parentOf n = none ∧ n ≠ s.root ∧ s.childrenOf n = []) : TreeInv (putNode s n) := by
  unfold Vfs.putNode
  rw [putNodeFuel]
  split
  · exact h
  rename_i node hn
  split_ifs with hzero hmore
  · exact h
  · exact h.modify (view_withRefCount s n _) fun _ => rfl
  obtain ⟨hnone, hroot, hleaf⟩ := hlast node hn (by omega)
  have hchildren : node.children = [] := by
    unfold childrenOf at hleaf
    rw [hn] at hleaf
    exact hleaf
  have hview := view_withRefCount s n (node.refCount - 1)
  have hinv : TreeInv (s.modify n (·.withRefCount (node.refCount - 1))) :=
    h.modify hview fun _ => rfl
  rw [hchildren]
  refine hinv.free ?_ ?_ hroot
  · exact (congrFun (congrArg View.parent hview) n).trans hnone
  · exact (congrFun (congrArg View.children hview) n).trans hleaf

theorem TreeInv.dropDetached (hn : s.parentOf n = none) (hroot : n ≠ s.root) :
    TreeInv (dropDetached s (some n)) := by
  have hview := view_withUnlinked s n
  have hinv : TreeInv (s.modify n Node.withUnlinked) := h.modify hview fun _ => rfl
  have hparent : (s.modify n Node.withUnlinked).parentOf n = none :=
    (congrFun (congrArg View.parent hview) n).trans hn
  unfold Vfs.dropDetached
  dsimp only
  split_ifs
  · exact hinv.putNode fun _ _ _ => ⟨hparent, hroot,
      childrenOf_eq_nil hinv.links (hinv.no_children hparent hroot)⟩
  · exact hinv

theorem TreeInv.detachNode (hleaf : s.childrenOf n = []) : TreeInv (detachNode s n) := by
  unfold Vfs.detachNode
  cases hp : s.parentOf n with
  | none => exact h
  | some p =>
    have hmem : n ∈ s.childrenOf p := (h.links.link p n).mpr hp
    dsimp only
    rw [if_pos hmem]
    exact (h.unlink hp hleaf).modify (view_withUnlinked _ n) fun _ => rfl

theorem TreeInv.getNode : TreeInv (getNode s n).2 := by
  unfold Vfs.getNode
  split
  · exact h
  · split_ifs
    · exact h
    · exact h.modify (view_withRefCount s n _) fun _ => rfl

omit h

/-! ### Operations on paths -/

/-- The directory in which a path names something, and the name. -/
def namedParent (env : Env) (s : State) (cwd : Option ℕ) (path : Name) : Option (ℕ × Name) :=
  (splitParentAt env s (cwd.getD s.root) path).1

/-- The node a path names. -/
def namedNode (env : Env) (s : State) (cwd : Option ℕ) (path : Name) : Option ℕ :=
  (namedParent env s cwd path).bind fun r => findCachedChild s r.1 r.2

variable (h : TreeInv s)

include h

theorem TreeInv.splitParentAt (cwd : Option ℕ) (path : Name) :
    splitParentAt env s (cwd.getD s.root) path = (namedParent env s cwd path, s) :=
  Prod.ext rfl (h.memory.splitParentAt _ _)

theorem TreeInv.namedParent
    (hp : namedParent env s cwd path = some (p, name)) : s.validNode p = true ∧ name ≠ [] := by
  have hsplit : Vfs.splitParentAt env s (cwd.getD s.root) path =
      (Vfs.namedParent env s cwd path, s) := h.splitParentAt cwd path
  rw [hp] at hsplit
  obtain ⟨hv, hname, -⟩ := splitParentAt_eq_some hsplit
  exact ⟨hv, hname⟩

theorem TreeInv.createAt {type : VfsType}
    (hreach : ∀ p name, Vfs.namedParent env s cwd path = some (p, name) →
      Reaches s.parentOf p s.root) : TreeInv (createAt env s cwd path type).2 := by
  unfold Vfs.createAt
  rw [h.splitParentAt]
  rcases hp : Vfs.namedParent env s cwd path with _ | ⟨p, name⟩
  · exact h
  obtain ⟨hv, hname⟩ := h.namedParent hp
  dsimp only
  rw [h.memory.finddir hv hname]
  rcases findCachedChild s p name with _ | existing
  swap
  · exact h
  have hcb := h.memory.callback p Callbacks.create rfl
  dsimp only
  split
  · rename_i hsome
    exact absurd hsome hcb
  · refine h.createNode fun q hq => ?_
    obtain rfl := some.inj hq
    exact hreach p name hp

theorem TreeInv.unlinkAt (hleaf : ∀ n, namedNode env s cwd path = some n → s.childrenOf n = []) :
    TreeInv (unlinkAt env s cwd path).2 := by
  unfold Vfs.unlinkAt
  rw [h.splitParentAt]
  rcases hp : Vfs.namedParent env s cwd path with _ | ⟨p, name⟩
  · exact h
  obtain ⟨hv, hname⟩ := h.namedParent hp
  have hcb := h.memory.callback p Callbacks.unlink rfl
  dsimp only
  split
  · rename_i hsome
    exact absurd hsome hcb
  rw [h.memory.finddir hv hname]
  rcases hfind : findCachedChild s p name with _ | n
  · exact h
  dsimp only
  split_ifs
  · obtain ⟨hparent, -⟩ := findCachedChild_eq_some h.links hfind
    have hnamed : namedNode env s cwd path = some n := by
      rw [namedNode, hp]
      exact hfind
    have hunlink := h.unlink hparent (hleaf n hnamed)
    rw [detachCachedChild_eq h.links, hfind]
    refine hunlink.dropDetached ?_ ?_
    · rw [(h.links.unlinkChild hparent).2.1, update_self]
    · rw [(frame_unlinkChild linkFree_callbacks s p n).root]
      exact ne_of_parentOf h.rootTop hparent
  · exact h

/-- A node that was unlinked, and perhaps renamed, is attached again below a node that does not
lie under it. -/
theorem TreeInv.reattach {ok : Bool}
    (hn : s.parentOf n = some p) (hf : Frame Node.callbacks s u) (hl : Links u.view)
    (hu : u.parentOf = update s.parentOf n none) (hv : s.validNode q = true)
    (hq : Reaches s.parentOf q s.root) (hbelow : ¬Reaches s.parentOf q n)
    (hnew : ∀ d, u.parentOf d = some q → u.nameOf d ≠ u.nameOf n)
    (hx : attachChildIfNeeded env u q n = (ok, s')) : ok = true ∧ TreeInv s' := by
  have hnone : u.parentOf n = none := by rw [hu, update_self]
  rcases attachChildIfNeeded_cases hl hx with ⟨rfl, hthere, hmissing⟩ |
    ⟨hvq, hvn, -, s1, -, -, ⟨tables, htree⟩, hcase⟩
  · -- both nodes exist and the child has no parent
    exfalso
    cases ok with
    | true =>
      have hsome := hthere rfl
      rw [hnone] at hsome
      cases hsome
    | false =>
      refine hmissing rfl ?_ ?_ hnone
      · rw [hf.validNode, hv]
      · rw [hf.validNode]
        exact validNode_of_parentOf hn
  · rcases hcase with ⟨-, -, d, hd, hname⟩ | ⟨hok, rfl, -⟩
    · exact absurd hname (hnew d hd)
    refine ⟨hok, ?_⟩
    have hval : s1.validNode = u.validNode := congrArg View.valid htree
    have hpar : s1.parentOf = u.parentOf := congrArg View.parent htree
    have hview : (linkChild s1 q n).view = s1.view.link q n :=
      view_linkChild (by rw [hval, hvq]) (by rw [hval, hvn])
    have hparent : (linkChild s1 q n).parentOf = update s.parentOf n (some q) := by
      refine (congrArg View.parent hview).trans ?_
      have hlink : update s1.parentOf n (some q) = update s.parentOf n (some q) := by
        rw [hpar, hu, update_idem]
      exact hlink
    refine h.of_frame (hf.trans (frame_attachChildIfNeeded linkFree_callbacks hl hx))
      (attachChildIfNeeded_spec hl hx).1 ?_ fun d r hd => ?_
    · rw [hparent, update_of_ne (ne_of_parentOf h.rootTop hn).symm]
      exact h.rootTop
    rw [hparent] at hd ⊢
    rcases update_eq_cases hd with ⟨rfl, -⟩ | ⟨-, hd⟩
    · exact .head (update_self _ _ _) (hq.update hbelow)
    · exact (h.reach d r hd).move hq hbelow

/-- The memory branch of `rename_at`, if the node is not moved below itself. -/
theorem TreeInv.renameMemory (hfind : findCachedChild s p oldName = some n)
    (hv : s.validNode newParent = true)
    (hq : Reaches s.parentOf newParent s.root) (hbelow : ¬Reaches s.parentOf newParent n)
    (hfree : findCachedChild s newParent newName = none) :
    TreeInv (renameMemory env s p oldName newParent newName).2 := by
  obtain ⟨hn, hname⟩ := findCachedChild_eq_some h.links hfind
  have hvp : s.validNode p = true := validNode_of_mem_childrenOf ((h.links.link p n).mpr hn)
  have hframe := frame_unlinkChild linkFree_callbacks s p n
  obtain ⟨hlinks, hparent, hnames⟩ := h.links.unlinkChild hn
  -- a child of a directory after the unlinking was one before and is not the node
  have hother : ∀ {d r}, (unlinkChild s p n).parentOf d = some r → d ≠ n ∧
      s.parentOf d = some r := by
    intro d r hd
    rw [hparent] at hd
    exact update_none_eq_some hd
  have hback : ∀ {ok t}, attachChildIfNeeded env (unlinkChild s p n) p n = (ok, t) → TreeInv t := by
    intro ok t hx
    refine (h.reattach hn hframe hlinks hparent hvp ((h.reach n p hn).of_parent hn
      (ne_of_parentOf h.rootTop hn)) ((h.reach n p hn).acyclic h.rootTop hn)
      (fun d hd hdn => ?_) hx).2
    obtain ⟨hne, hd⟩ := hother hd
    rw [hnames] at hdn
    exact hne (h.links.names p d n hd hn hdn)
  unfold Vfs.renameMemory
  rw [detachCachedChild_eq h.links, hfind]
  dsimp only
  split_ifs
  · have hvn' : (unlinkChild s p n).validNode n = true := by
      rw [hframe.validNode]
      exact validNode_of_parentOf hn
    have hview' := view_withName hvn' newName
    set s' := (unlinkChild s p n).modify n (·.withName newName)
    generalize hx : attachChildIfNeeded env s' newParent n = r
    obtain ⟨ok, t⟩ := r
    have hframe' : Frame Node.callbacks s s' := hframe.trans (frame_modify _ n fun _ => rfl)
    have hlinks' : Links s'.view := by
      rw [hview']
      exact hlinks.renamed ((congrFun hparent n).trans (update_self _ _ _)) newName
    have hparent' : s'.parentOf = update s.parentOf n none :=
      (congrArg View.parent hview').trans hparent
    have hnames' : s'.nameOf = update s.nameOf n newName := by
      rw [← hnames]
      exact congrArg View.name hview'
    have hre := h.reattach hn hframe' hlinks' hparent' hv hq hbelow (fun d hd hdn => by
      rw [hparent', ← hparent] at hd
      obtain ⟨hne, hd⟩ := hother hd
      rw [hnames', update_of_ne hne, update_self] at hdn
      exact findCachedChild_eq_none h.links hfree d hd hdn) hx
    obtain ⟨rfl, hinv⟩ := hre
    exact hinv
  · exact hback rfl

/-- `rename_at`, if the node is not moved below itself and the new directory lies under the
root. -/
theorem TreeInv.renameAt (hreach : ∀ q name, Vfs.namedParent env s cwd newPath = some (q, name) →
      Reaches s.parentOf q s.root)
    (hbelow : ∀ q name n, Vfs.namedParent env s cwd newPath = some (q, name) →
      namedNode env s cwd oldPath = some n → ¬Reaches s.parentOf q n) :
    TreeInv (renameAt env s cwd oldPath newPath).2 := by
  unfold Vfs.renameAt
  rw [h.splitParentAt]
  rcases hp : Vfs.namedParent env s cwd oldPath with _ | ⟨p, oldName⟩
  · exact h
  obtain ⟨hv, hname⟩ := h.namedParent hp
  dsimp only
  rw [h.splitParentAt]
  rcases hp' : Vfs.namedParent env s cwd newPath with _ | ⟨q, newName⟩
  · exact h
  obtain ⟨hv', hname'⟩ := h.namedParent hp'
  have hcb := h.memory.callback p Callbacks.rename rfl
  dsimp only
  split
  · rename_i hsome
    exact absurd hsome hcb
  rw [h.memory.finddir hv hname]
  rcases hfind : findCachedChild s p oldName with _ | n
  · exact h
  have hnamed : namedNode env s cwd oldPath = some n := by
    rw [namedNode, hp]
    exact hfind
  dsimp only
  split_ifs
  · rw [h.memory.finddir hv' hname']
    cases hfree : findCachedChild s q newName with
    | some _ => exact h
    | none =>
      exact h.renameMemory hfind hv' (hreach q newName hp') (hbelow q newName n hp' hnamed) hfree
  · exact h

end Invariant

/-! ### Runs -/

/-- The calls on the tree. -/
inductive TreeOp where
  | createAt (cwd : Option ℕ) (path : Name) (type : VfsType)
  | unlinkAt (cwd : Option ℕ) (path : Name)
  | renameAt (cwd : Option ℕ) (oldPath newPath : Name)
  | createNode (name : Name) (type : VfsType)
  | addChild (parent child : ℕ)
  | detachNode (n : ℕ)
  | getNode (n : ℕ)
  | putNode (n : ℕ)

def TreeOp.apply (env : Env) (s : State) : TreeOp → State
  | .createAt cwd path type => (Vfs.createAt env s cwd path type).2
  | .unlinkAt cwd path => (Vfs.unlinkAt env s cwd path).2
  | .renameAt cwd oldPath newPath => (Vfs.renameAt env s cwd oldPath newPath).2
  | .createNode name type => (Vfs.createNode env s name type none).2
  | .addChild parent child => (Vfs.addChild env s parent child).2
  | .detachNode n => Vfs.detachNode s n
  | .getNode n => (Vfs.getNode s n).2
  | .putNode n => Vfs.putNode s n

/-- The call links a node to a place that is not under the root or lies below it, or it takes a
node away that others still hang on. -/
def TreeOp.Breaks (env : Env) (s : State) : TreeOp → Prop
  | .createAt cwd path _ => ∃ p name, namedParent env s cwd path = some (p, name) ∧
      ¬Reaches s.parentOf p s.root
  | .unlinkAt cwd path => ∃ n, namedNode env s cwd path = some n ∧ s.childrenOf n ≠ []
  | .renameAt cwd oldPath newPath => ∃ q name, namedParent env s cwd newPath = some (q, name) ∧
      (¬Reaches s.parentOf q s.root ∨
        ∃ n, namedNode env s cwd oldPath = some n ∧ Reaches s.parentOf q n)
  | .createNode _ _ => False
  | .addChild parent child => child = s.root ∨ ¬Reaches s.parentOf parent s.root
  | .detachNode n => s.childrenOf n ≠ []
  | .getNode _ => False
  | .putNode n => ∃ node, s.nodes n = some node ∧ node.refCount = 1 ∧
      (n = s.root ∨ s.parentOf n ≠ none ∨ s.childrenOf n ≠ [])

/-- Every node with a parent is listed once by it and lies under the root; in every directory the
names differ, the count is right, and a table has the children in the buckets of their names. -/
structure TreeOk (s : State) : Prop where
  listed : ∀ c p, s.parentOf c = some p → (s.childrenOf p).count c = 1
  reaches : ∀ c p, s.parentOf c = some p → Reaches s.parentOf c s.root
  names : ∀ p, ∀ c ∈ s.childrenOf p, ∀ d ∈ s.childrenOf p, s.nameOf c = s.nameOf d → c = d
  count : ∀ p, s.countOf p = (s.childrenOf p).length
  table : ∀ p table, s.childHashOf p = some table → ∀ b c, (table b).count c =
    if c ∈ s.childrenOf p ∧ childHashBucket (hashName (s.nameOf c)) = b then 1 else 0

theorem TreeInv.treeOk (h : TreeInv s) : TreeOk s where
  listed := fun c p hc =>
    List.count_eq_one_of_mem (h.links.nodup p) ((h.links.link p c).mpr hc)
  reaches := h.reach
  names := fun p c hc d hd hcd =>
    h.links.names p c d ((h.links.link p c).mp hc) ((h.links.link p d).mp hd) hcd
  count := h.links.count
  table := by
    intro p table htable b c
    obtain ⟨hnodup, hmem⟩ := h.links.table p table htable b
    have hbucket : ∀ {d}, s.parentOf d = some p →
        childHashBucket (s.hashOf d) = childHashBucket (hashName (s.nameOf d)) :=
      fun hd => congrArg childHashBucket (h.links.key _ (validNode_of_parentOf hd))
    split_ifs with hin
    · refine List.count_eq_one_of_mem hnodup ((hmem c).mpr ?_)
      have hc : s.parentOf c = some p := (h.links.link p c).mp hin.1
      exact ⟨hc, (hbucket hc).trans hin.2⟩
    · refine List.count_eq_zero_of_not_mem fun hc => hin ?_
      obtain ⟨hc, hb⟩ := (hmem c).mp hc
      exact ⟨(h.links.link p c).mpr hc, (hbucket hc).symm.trans hb⟩

theorem TreeInv.step {env : Env} {op : TreeOp} (h : TreeInv s) (hsafe : ¬op.Breaks env s) :
    TreeInv (op.apply env s) := by
  cases op with
  | createAt cwd path type =>
    exact h.createAt fun p name hp => by_contra fun hno => hsafe ⟨p, name, hp, hno⟩
  | unlinkAt cwd path =>
    exact h.unlinkAt fun n hn => by_contra fun hno => hsafe ⟨n, hn, hno⟩
  | renameAt cwd oldPath newPath =>
    exact h.renameAt (fun q name hq => by_contra fun hno => hsafe ⟨q, name, hq, .inl hno⟩)
      (fun q name n hq hn hno => hsafe ⟨q, name, hq, .inr ⟨n, hn, hno⟩⟩)
  | createNode name type => exact h.createNode fun q hq => by cases hq
  | addChild parent child =>
    have hsafe' := not_or.mp hsafe
    exact h.attach (not_not.mp hsafe'.2) hsafe'.1 rfl
  | detachNode n => exact h.detachNode (not_not.mp hsafe)
  | getNode n => exact h.getNode
  | putNode n =>
    refine h.putNode fun node hn hone => ?_
    have hno : ¬(n = s.root ∨ s.parentOf n ≠ none ∨ s.childrenOf n ≠ []) :=
      fun hbad => hsafe ⟨node, hn, hone, hbad⟩
    rw [not_or, not_or, not_not, not_not] at hno
    exact ⟨hno.2.1, hno.1, hno.2.2⟩

theorem parentOf_init (n : ℕ) : init.parentOf n = none := by
  unfold parentOf init
  dsimp only
  split_ifs <;> rfl

theorem treeInv_init : TreeInv init where
  links := links_root 1 .none 1 0
  memory := by
    intro n x hx
    by_cases hn : n = 0
    · subst hn
      obtain rfl := some.inj hx
      rfl
    · cases (if_neg hn).symm.trans hx
  fresh := fun n hn => if_neg (ne_of_gt hn)
  rootValid := rfl
  rootTop := rfl
  reach := by
    intro c p hc
    rw [parentOf_init] at hc
    cases hc

/-- In every run none of whose calls breaks the tree it is one. -/
theorem treeOk_of_run {s : State}
    (hrun : ReflTransGen (fun a b => ∃ env op, b = TreeOp.apply env a op ∧
      ¬op.Breaks env a) init s) : TreeOk s := by
  have hinv : TreeInv s := Step.run_invariant hrun treeInv_init
    fun h ⟨_, _, hb, hsafe⟩ => hb ▸ h.step hsafe
  exact hinv.treeOk

theorem not_breaks_createAt {name : Name} {path : Name} {type : VfsType}
    (h : namedParent .plain s none path = some (s.root, name)) :
    ¬(TreeOp.createAt none path type).Breaks .plain s := by
  rintro ⟨p, name', hp, hno⟩
  obtain ⟨rfl, -⟩ := Prod.mk.inj (some.inj (h.symm.trans hp))
  exact hno (.refl _ _)

/-- The directory `/a` and the file `/b`, which then moves to `/a/c`. -/
theorem treeOk_of_run_move : TreeOk ((TreeOp.renameAt none [47, 98] [47, 97, 47, 99]).apply .plain
    ((TreeOp.createAt none [47, 98] .file).apply .plain
      ((TreeOp.createAt none [47, 97] .directory).apply .plain init))) := by
  have h1 : namedParent .plain init none [47, 97] = some (0, [97]) := by decide
  have h2 : namedParent .plain ((TreeOp.createAt none [47, 97] .directory).apply .plain init)
      none [47, 98] = some (0, [98]) := by decide +kernel
  generalize hs : (TreeOp.createAt none [47, 98] .file).apply .plain
    ((TreeOp.createAt none [47, 97] .directory).apply .plain init) = s
  obtain ⟨hroot, hdir, htop, hnew, hold⟩ : s.root = 0 ∧ s.parentOf 1 = some 0 ∧
      s.parentOf 0 = none ∧ namedParent .plain s none [47, 97, 47, 99] = some (1, [99]) ∧
      namedNode .plain s none [47, 98] = some 2 := by
    rw [← hs]
    decide +kernel
  have hmove : ¬(TreeOp.renameAt none [47, 98] [47, 97, 47, 99]).Breaks .plain s := by
    rintro ⟨q, name, hq, hbad⟩
    obtain ⟨rfl, rfl⟩ := Prod.mk.inj (some.inj (hnew.symm.trans hq))
    rcases hbad with hno | ⟨n, hn, hbelow⟩
    · rw [hroot] at hno
      exact hno (.head hdir (.refl _ _))
    · obtain rfl := some.inj (hold.symm.trans hn)
      cases ((hbelow.of_parent hdir (by decide)).eq_of_none htop)
  refine treeOk_of_run (((ReflTransGen.single ⟨.plain, _, rfl, not_breaks_createAt h1⟩).tail
    ⟨.plain, _, hs.symm, not_breaks_createAt h2⟩).tail ⟨.plain, _, rfl, hmove⟩)

/-- The directory `/a` is moved to `/a/b`: it becomes its own parent. -/
theorem directory_below_itself : ¬∀ s : State,
    ReflTransGen (fun a b => ∃ env op, b = TreeOp.apply env a op) init s → TreeOk s := by
  intro hall
  let s := (TreeOp.renameAt none [47, 97] [47, 97, 47, 98]).apply .plain
    ((TreeOp.createAt none [47, 97] .directory).apply .plain init)
  have hok := hall s ((ReflTransGen.single ⟨_, _, rfl⟩).tail ⟨_, _, rfl⟩)
  have hself : s.parentOf 1 = some 1 := by decide
  have hroot : s.root = 0 := by decide
  -- from the directory only the directory is reached
  have hstuck : ∀ x, Reaches s.parentOf 1 x → x = 1 := by
    intro x hx
    induction hx with
    | refl => rfl
    | tail _ hstep ih =>
      rw [ih, hself] at hstep
      exact (some.inj hstep).symm
  have h01 := hstuck s.root (hok.reaches 1 1 hself)
  rw [hroot] at h01
  cases h01

end RHKernel.Vfs
