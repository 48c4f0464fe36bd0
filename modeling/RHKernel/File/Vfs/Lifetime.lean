import RHKernel.File.FdAccounting
import RHKernel.File.Vfs.Put
import RHKernel.Syscall.File

/-!
# The life of a node

Open files and working directories hold references on nodes, and so does the directory that lists
a node made by `create_node`. A node made by `vfs_create_fs_node` starts with a count of 0 although
a lookup lists it: the first open makes the count 1 and the last close destroys the node, which
its directory still lists. As long as no such node is opened or made a working directory, every
child, every entry of a table, every open file and every working directory is a node that exists
(`alive_of_run`).
-/

namespace RHKernel

open Finset Function Option Relation

namespace Vfs

open Sharing

section Ops

variable {env : Env} {refs : ℕ → ℕ} {s s' : State} {n p c k : ℕ}

variable (h : Life [] refs s)

include h

theorem Life.plainLinks : Links s.view := by
  have hl := h.links
  rwa [withoutTables_nil] at hl

theorem Life.of_frame (hf : Frame Node.refCount s s') (hl : Links s'.view)
    (htop : s'.parentOf s.root = none)
    (hheld : ∀ n p, s'.parentOf n = some p → refs n < s.refOf n ∨ s.refOf n = 0) :
    Life [] refs s' where
  links := by rwa [withoutTables_nil]
  fresh := hf.fresh h.fresh
  counted := by
    rw [refOf_frame hf]
    exact h.counted
  held := by
    rw [refOf_frame hf]
    exact hheld
  rootHeld := by
    rw [refOf_frame hf, hf.root]
    exact h.rootHeld
  rootTop := by
    rw [hf.root]
    exact htop
  dead := fun n hn => by cases hn

theorem Life.of_parentOf (hf : Frame Node.refCount s s') (hl : Links s'.view)
    (hparent : s'.parentOf = s.parentOf) : Life [] refs s' := by
  refine h.of_frame hf hl ?_ ?_
  · rw [hparent]
    exact h.rootTop
  · rw [hparent]
    exact h.held

theorem Life.modify {f : Node → Node} (hview : (s.modify n f).view = s.view)
    (hf : ∀ x, (f x).refCount = x.refCount) : Life [] refs (s.modify n f) :=
  h.of_parentOf (frame_modify s n hf) (hview ▸ h.plainLinks) (congrArg View.parent hview)

theorem Life.attach {ok : Bool} (hc : refs c < s.refOf c ∨ s.refOf c = 0)
    (hroot : c ≠ s.root) (hx : attachChildIfNeeded env s p c = (ok, s')) : Life [] refs s' := by
  obtain ⟨hl, -, hcase⟩ := attachChildIfNeeded_spec h.plainLinks hx
  have hf := frame_attachChildIfNeeded linkFree_refCount h.plainLinks hx
  rcases hcase with hparent | ⟨-, hparent⟩
  · exact h.of_parentOf hf hl hparent
  refine h.of_frame hf hl ?_ fun d q hd => ?_
  · rw [hparent, update_of_ne hroot.symm]
    exact h.rootTop
  rw [hparent] at hd
  by_cases hdc : d = c
  · rw [hdc]
    exact hc
  · rw [update_of_ne hdc] at hd
    exact h.held d q hd

theorem Life.unlink (hc : s.parentOf c = some p) :
    Life [] refs (unlinkChild s p c) ∧ (unlinkChild s p c).parentOf c = none := by
  obtain ⟨hl, hparent, -⟩ := h.plainLinks.unlinkChild hc
  refine ⟨h.of_frame (frame_unlinkChild linkFree_refCount s p c) hl ?_ fun d q hd => ?_, ?_⟩
  · rw [hparent, update_of_ne (ne_of_parentOf h.rootTop hc).symm]
    exact h.rootTop
  · rw [hparent] at hd
    exact h.held d q (update_none_eq_some hd).2
  · rw [hparent, update_self]

/-- A node that nothing lists or refers to comes or goes. -/
theorem Life.setUnlisted (hl : Links s'.view) (hfresh : ∀ m, s'.next ≤ m → s'.nodes m = none)
    (hpar : s'.parentOf = s.parentOf) (href : s'.refOf = update s.refOf n k)
    (hsame : s'.root = s.root) (hparent : s.parentOf n = none) (hn : refs n = 0)
    (hroot : n ≠ s.root) : Life [] refs s' where
  links := by rwa [withoutTables_nil]
  fresh := hfresh
  counted := by
    rw [href]
    exact update_elim (hn ▸ Nat.zero_le k) fun m _ => h.counted m
  held m q hm := by
    rw [hpar] at hm
    rw [href, update_of_ne (ne_of_parentOf hparent hm)]
    exact h.held m q hm
  rootHeld := by
    rw [href, hsame, update_of_ne hroot.symm]
    exact h.rootHeld
  rootTop := by
    rw [hsame, hpar]
    exact h.rootTop
  dead m hm := by cases hm

theorem Life.add (name : Name) (type : VfsType) (k : ℕ) (cb : Callbacks) :
    Life [] refs (s.add (.fresh name type k cb)).2 ∧ refs s.next = 0 ∧ s.next ≠ s.root := by
  have hn := h.fresh s.next le_rfl
  obtain ⟨hl, hparent⟩ := h.plainLinks.add hn name type k cb
  have hzero : s.refOf s.next = 0 := by
    rw [State.refOf, hn]
    rfl
  have hrefs : refs s.next = 0 := Nat.le_zero.mp (hzero ▸ h.counted s.next)
  have hroot : s.next ≠ s.root := fun heq => by
    have := h.rootHeld
    rw [← heq, hzero] at this
    omega
  refine ⟨h.setUnlisted hl (fun m hm => ?_) hparent (refOf_add s _) rfl
    (parentOf_eq_none_of_invalid hn) hrefs hroot, hrefs, hroot⟩
  have hm' : s.next + 1 ≤ m := hm
  rw [nodes_add_ne (by omega)]
  exact h.fresh m (by omega)

/-- A new node is attached: nothing refers to it, so that any count will do. -/
theorem Life.addAttach {ok : Bool} {name : Name} {type : VfsType} {cb : Callbacks}
    (hx : attachChildIfNeeded env (s.add (.fresh name type k cb)).2 p s.next = (ok, s')) :
    Life [] refs s' := by
  obtain ⟨hadd, hzero, hroot⟩ := h.add name type k cb
  refine hadd.attach ?_ hroot hx
  rw [refOf_add, update_self, hzero]
  exact (eq_zero_or_pos k).symm

theorem Life.finddir (env : Env) (p : ℕ) (name : Name) : Life [] refs (finddir env s p name).2 := by
  have hlook := lookup_finddir env s p name
  generalize (Vfs.finddir env s p name).1 = r at hlook
  generalize (Vfs.finddir env s p name).2 = t at hlook ⊢
  cases hlook with
  | invalid | cached | negative | memory | long => exact h
  | absent =>
    have hview := view_negCacheStore env s p name (hashName name)
    exact h.of_parentOf (frame_negCacheStore (fun _ _ => rfl) env s p name _)
      (hview ▸ h.plainLinks) (congrArg View.parent hview)
  | found => exact h.addAttach Prod.mk.eta.symm

theorem Life.openAt (env : Env) (cwd : Option ℕ) (path : Name) :
    Life [] refs (openAt env s cwd path).2 :=
  openAt_counted (I := fun _ => Life [] refs) (k := 0) (fun _ _ ht => ht)
    (fun _ _ p name ht => ht.finddir env p name) h cwd

theorem Life.splitParentAt (env : Env) (cwd : ℕ) (path : Name) :
    Life [] refs (splitParentAt env s cwd path).2 :=
  splitParentAt_invariant (fun _ p name ht => ht.finddir env p name) h cwd path

theorem Life.freeUnlisted (hparent : s.parentOf n = none)
    (hchildren : s.childrenOf n = []) (hn : refs n = 0) (hroot : n ≠ s.root) :
    Life [] refs (s.free n) := by
  refine h.setUnlisted ?_ (fresh_free h.fresh n) (parentOf_free hparent) (refOf_free s n) rfl
    hparent hn hroot
  rw [view_free]
  exact h.plainLinks.set hparent hchildren rfl rfl rfl rfl fun m hm => by cases hm

theorem Life.createNode (name : Name) (type : VfsType) (p : ℕ) :
    Life [] refs (createNode env s name type (some p)).2 := by
  obtain ⟨hadd, hzero, hroot⟩ := h.add name type 1 .none
  have hnodes := nodes_add_self s (.fresh name type 1 .none)
  set u := s.add (.fresh name type 1 .none)
  have hnone : u.2.parentOf s.next = none := by
    rw [State.parentOf, hnodes]
    rfl
  have hleaf : u.2.childrenOf s.next = [] := by
    rw [State.childrenOf, hnodes]
    rfl
  unfold Vfs.createNode
  split_ifs
  · exact h
  dsimp only
  generalize hx : attachChildIfNeeded env u.2 p u.1 = r
  obtain ⟨ok, t⟩ := r
  have hlife : Life [] refs t := h.addAttach hx
  cases ok with
  | true => exact hlife
  | false =>
    -- the node was not linked and is freed
    have hf := frame_attachChildIfNeeded linkFree_refCount hadd.plainLinks hx
    obtain ⟨hpar, hchildren⟩ := attachChildIfNeeded_false hadd.plainLinks hx
    refine hlife.freeUnlisted ((congrFun hpar _).trans hnone)
      ((congrFun hchildren _).trans hleaf) hzero ?_
    rw [hf.root]
    exact hroot

theorem Life.createAt (cwd : Option ℕ) (path : Name) (type : VfsType) :
    Life [] refs (createAt env s cwd path type).2 := by
  unfold Vfs.createAt
  have hsplit := h.splitParentAt env (cwd.getD s.root) path
  generalize Vfs.splitParentAt env s (cwd.getD s.root) path = r at hsplit
  obtain ⟨_ | ⟨p, name⟩, t⟩ := r
  · exact hsplit
  have hfind := hsplit.finddir env p name
  dsimp only at hfind ⊢
  generalize Vfs.finddir env t p name = r at hfind
  obtain ⟨_ | existing, u⟩ := r
  swap
  · exact hfind
  dsimp only at hfind ⊢
  split
  · split
    · split_ifs
      · exact hfind.addAttach Prod.mk.eta.symm
      · exact hfind.addAttach Prod.mk.eta.symm
    · exact hfind
  · exact hfind.createNode name type p

theorem Life.detach {o : Option ℕ} {name : Name}
    (hx : detachCachedChild s p name = (o, s')) :
    Life [] refs s' ∧ s'.root = s.root ∧ s'.refOf = s.refOf ∧
      (∀ m, s.parentOf m = none → s'.parentOf m = none) ∧
      ∀ n, o = some n → s.parentOf n = some p ∧ s'.parentOf n = none ∧ s'.validNode n = true := by
  rw [detachCachedChild_eq h.plainLinks] at hx
  cases hfind : findCachedChild s p name with
  | none =>
    rw [hfind] at hx
    obtain ⟨rfl, rfl⟩ := Prod.mk.inj hx
    exact ⟨h, rfl, rfl, fun m hm => hm, fun n hn => by cases hn⟩
  | some c =>
    rw [hfind] at hx
    obtain ⟨rfl, rfl⟩ := Prod.mk.inj hx
    obtain ⟨hc, -⟩ := findCachedChild_eq_some h.plainLinks hfind
    obtain ⟨hlife, hnone⟩ := h.unlink hc
    have hf := frame_unlinkChild linkFree_refCount s p c
    refine ⟨hlife, hf.root, refOf_frame hf, fun m hm => ?_, fun n hn => ?_⟩
    · rw [(h.plainLinks.unlinkChild hc).2.1, update_of_ne (ne_of_parentOf hm hc).symm, hm]
    · obtain rfl := some.inj hn
      exact ⟨hc, hnone, by rw [hf.validNode]; exact validNode_of_parentOf hc⟩

/-- A detached node loses the reference of its directory. -/
theorem Life.dropDetached (hn : s.refOf n ≠ 0 → Life [] (update refs n (refs n + 1)) s) :
    Life [] refs (dropDetached s (some n)) := by
  have hview := view_withUnlinked s n
  have hlife : Life [] refs (s.modify n Node.withUnlinked) := h.modify hview fun _ => rfl
  have hf : Frame Node.refCount s (s.modify n Node.withUnlinked) := frame_modify s n fun _ => rfl
  unfold Vfs.dropDetached
  dsimp only
  split_ifs
  · by_cases hzero : s.refOf n = 0
    · rw [putNode_of_refOf_eq_zero (by rw [refOf_frame hf, hzero])]
      exact hlife
    · exact ((hn hzero).modify hview fun _ => rfl).release
  · exact hlife

omit h

theorem refOf_dropDetached_le (s : State) (n m : ℕ) :
    (Vfs.dropDetached s (some n)).refOf m ≤ s.refOf m := by
  have hf : Frame Node.refCount s (s.modify n Node.withUnlinked) := frame_modify s n fun _ => rfl
  unfold Vfs.dropDetached
  dsimp only
  split_ifs
  · refine (refOf_putNodeFuel_le _ _ n m).trans ?_
    rw [refOf_frame hf]
  · rw [refOf_frame hf]

variable (h : Life [] refs s)

include h

theorem Life.unlinkAt (cwd : Option ℕ) (path : Name) :
    Life [] refs (unlinkAt env s cwd path).2 := by
  have hdetach : ∀ {t : State} (p : ℕ) (name : Name), Life [] refs t →
      Life [] refs (Vfs.dropDetached (detachCachedChild t p name).2
        (detachCachedChild t p name).1) := by
    intro t p name ht
    generalize hx : detachCachedChild t p name = r
    obtain ⟨o, u⟩ := r
    obtain ⟨hu, hroot, href, -, hnode⟩ := ht.detach hx
    cases o with
    | none => exact hu
    | some n =>
      obtain ⟨hparent, hnone, -⟩ := hnode n rfl
      refine hu.dropDetached fun hne => hu.claim (Or.resolve_right ?_ hne) hnone ?_
      · rw [href]
        exact ht.held n p hparent
      · rw [hroot]
        exact ne_of_parentOf ht.rootTop hparent
  unfold Vfs.unlinkAt
  have hsplit := h.splitParentAt env (cwd.getD s.root) path
  generalize Vfs.splitParentAt env s (cwd.getD s.root) path = r at hsplit
  obtain ⟨_ | ⟨p, name⟩, t⟩ := r
  · exact hsplit
  dsimp only at hsplit ⊢
  split
  · split_ifs
    · exact hdetach p name hsplit
    · exact hsplit
  have hfind := hsplit.finddir env p name
  generalize Vfs.finddir env t p name = r at hfind
  obtain ⟨_ | n, u⟩ := r
  · exact hfind
  dsimp only at hfind ⊢
  split_ifs
  · exact hdetach p name hfind
  · exact hfind

theorem Life.renameDriver (oldParent : ℕ) (oldName : Name) (newParent : ℕ)
    (newName : Name) : Life [] refs (renameDriver s oldParent oldName newParent newName) := by
  have hmark : ∀ {refs : ℕ → ℕ} {t : State} (o : Option ℕ), Life [] refs t →
      Life [] refs (o.elim t fun n => t.modify n Node.withUnlinked) := by
    intro refs t o ht
    cases o with
    | none => exact ht
    | some n => exact ht.modify (view_withUnlinked t n) fun _ => rfl
  have hframe : ∀ (t : State) (o : Option ℕ), Frame Node.refCount t
      (o.elim t fun n => t.modify n Node.withUnlinked) := by
    intro t o
    cases o with
    | none => exact .refl _ t
    | some n => exact frame_modify t n fun _ => rfl
  unfold Vfs.renameDriver
  generalize hx : detachCachedChild s oldParent oldName = r
  obtain ⟨o1, s1⟩ := r
  obtain ⟨h1, hroot1, href1, -, hnode1⟩ := h.detach hx
  dsimp only
  generalize hy : detachCachedChild s1 newParent newName = r
  obtain ⟨o2, s2⟩ := r
  obtain ⟨h2, hroot2, href2, hkeep, hnode2⟩ := h1.detach hy
  generalize hs3 : o2.elim (o1.elim s2 fun n => s2.modify n Node.withUnlinked) (fun n =>
    (o1.elim s2 fun n => s2.modify n Node.withUnlinked).modify n Node.withUnlinked) = s3
  have hframe3 : Frame Node.refCount s2 s3 := by
    rw [← hs3]
    exact (hframe s2 o1).trans (hframe _ o2)
  have hlife3 : ∀ {refs : ℕ → ℕ}, Life [] refs s2 → Life [] refs s3 := by
    intro refs ht
    rw [← hs3]
    exact hmark o2 (hmark o1 ht)
  -- each of the two owns the reference of the directory it was in
  have hclaim1 : ∀ {n} {refs' : ℕ → ℕ}, o1 = some n → refs' n = refs n → Life [] refs' s2 →
      s2.refOf n ≠ 0 → Life [] (update refs' n (refs' n + 1)) s2 := by
    intro n refs' hn hsame ht hne
    obtain ⟨hparent, hnone, -⟩ := hnode1 n hn
    refine ht.claim ?_ (hkeep n hnone) ?_
    · rw [hsame, href2, href1]
      rw [href2, href1] at hne
      exact (h.held n oldParent hparent).resolve_right hne
    · rw [hroot2, hroot1]
      exact ne_of_parentOf h.rootTop hparent
  have hclaim2 : ∀ {n}, o2 = some n → s2.refOf n ≠ 0 → Life [] (update refs n (refs n + 1)) s2 := by
    intro n hn hne
    obtain ⟨hparent, hnone, -⟩ := hnode2 n hn
    refine h2.claim ?_ hnone ?_
    · rw [href2]
      rw [href2] at hne
      exact (h1.held n newParent hparent).resolve_right hne
    · rw [hroot2]
      exact ne_of_parentOf h1.rootTop hparent
  have href3 := refOf_frame hframe3
  cases o2 with
  | none =>
    cases o1 with
    | none => exact hlife3 h2
    | some n =>
      refine (hlife3 h2).dropDetached fun hne => hlife3 (hclaim1 rfl rfl h2 ?_)
      rwa [href3] at hne
  | some m =>
    obtain _ | n := o1
    · refine (hlife3 h2).dropDetached fun hne => hlife3 (hclaim2 rfl ?_)
      rwa [href3] at hne
    -- the second one keeps its reference while the first one is dropped
    have hmn : n ≠ m := (ne_of_parentOf (hnode1 n rfl).2.1 (hnode2 m rfl).1).symm
    have hfirst : ∀ {refs' : ℕ → ℕ}, refs' n = refs n → Life [] refs' s2 →
        Life [] refs' (Vfs.dropDetached s3 (some n)) := by
      intro refs' hsame ht
      refine (hlife3 ht).dropDetached fun hne => hlife3 (hclaim1 rfl hsame ht ?_)
      rwa [href3] at hne
    refine (hfirst rfl h2).dropDetached fun hne => hfirst ?_ (hclaim2 rfl fun hzero => hne ?_)
    · exact update_of_ne hmn _ _
    · have hle := refOf_dropDetached_le s3 n m
      rw [href3, hzero] at hle
      exact Nat.le_zero.mp hle

theorem Life.renameMemory (env : Env) (oldParent : ℕ) (oldName : Name)
    (newParent : ℕ) (newName : Name) :
    Life [] refs (renameMemory env s oldParent oldName newParent newName).2 := by
  unfold Vfs.renameMemory
  generalize hx : detachCachedChild s oldParent oldName = r
  obtain ⟨o, s1⟩ := r
  obtain ⟨h1, hroot, href, -, hnode⟩ := h.detach hx
  obtain _ | n := o
  · exact h1
  obtain ⟨hparent, hnone, hv⟩ := hnode n rfl
  have hheld : refs n < s1.refOf n ∨ s1.refOf n = 0 := by
    rw [href]
    exact h.held n oldParent hparent
  have hroot' : n ≠ s1.root := by
    rw [hroot]
    exact ne_of_parentOf h.rootTop hparent
  dsimp only
  split_ifs
  · have hview := view_withName hv newName
    set s2 := s1.modify n (·.withName newName)
    have hf : Frame Node.refCount s1 s2 := frame_modify s1 n fun _ => rfl
    have h2 : Life [] refs s2 := by
      refine h1.of_parentOf hf ?_ (congrArg View.parent hview)
      rw [hview]
      exact h1.plainLinks.renamed hnone newName
    have hheld2 : refs n < s2.refOf n ∨ s2.refOf n = 0 := by
      rw [refOf_frame hf]
      exact hheld
    generalize hy : attachChildIfNeeded env s2 newParent n = r
    obtain ⟨ok, s3⟩ := r
    have h3 : Life [] refs s3 := h2.attach hheld2 hroot' hy
    cases ok with
    | true => exact h3
    | false =>
      have hf3 := frame_attachChildIfNeeded linkFree_refCount h2.plainLinks hy
      refine h3.attach (p := oldParent) (c := n) ?_ ?_ rfl
      · rw [refOf_frame hf3]
        exact hheld2
      · rw [hf3.root]
        exact hroot'
  · exact h1.attach hheld hroot' rfl

theorem Life.renameAt (env : Env) (cwd : Option ℕ)
    (oldPath newPath : Name) : Life [] refs (renameAt env s cwd oldPath newPath).2 := by
  unfold Vfs.renameAt
  have hsplit := h.splitParentAt env (cwd.getD s.root) oldPath
  generalize Vfs.splitParentAt env s (cwd.getD s.root) oldPath = r at hsplit
  obtain ⟨_ | ⟨oldParent, oldName⟩, s1⟩ := r
  · exact hsplit
  dsimp only at hsplit ⊢
  have hsplit2 := hsplit.splitParentAt env (cwd.getD s1.root) newPath
  generalize Vfs.splitParentAt env s1 (cwd.getD s1.root) newPath = r at hsplit2
  obtain ⟨_ | ⟨newParent, newName⟩, s2⟩ := r
  · exact hsplit2
  dsimp only at hsplit2 ⊢
  split
  · split_ifs
    · exact hsplit2.renameDriver oldParent oldName newParent newName
    · exact hsplit2
  have hfind := hsplit2.finddir env oldParent oldName
  generalize Vfs.finddir env s2 oldParent oldName = r at hfind
  obtain ⟨_ | n, s3⟩ := r
  · exact hfind
  dsimp only at hfind ⊢
  split_ifs
  · have hfind2 := hfind.finddir env newParent newName
    generalize Vfs.finddir env s3 newParent newName = r at hfind2
    obtain ⟨_ | _, s4⟩ := r
    · exact hfind2.renameMemory env oldParent oldName newParent newName
    · exact hfind2
  · exact hfind

end Ops

end Vfs

/-! ### What the descriptors do to the nodes of open files -/

namespace Fd

def State.nodeOf (s : State) (f : ℕ) : Option ℕ := (s.files f).map OpenFile.node

/-- At most one open file is freed, and its node is the one to put. -/
def Drops (s s' : State) (put : Option ℕ) : Prop :=
  s'.nextFile = s.nextFile ∧ s'.taskCount = s.taskCount ∧
    ((put = none ∧ s'.nodeOf = s.nodeOf) ∨
      ∃ f m, put = some m ∧ s.nodeOf f = some m ∧ s'.nodeOf = update s.nodeOf f none)

theorem Drops.refl (s : State) : Drops s s none := ⟨rfl, rfl, .inl ⟨rfl, rfl⟩⟩

theorem nodeOf_setFile (s : State) (f : ℕ) (file : Option OpenFile) :
    (s.setFile f file).nodeOf = update s.nodeOf f (file.map OpenFile.node) := by
  exact funext (apply_update (fun _ => Option.map OpenFile.node) s.files f file)

theorem nodeOf_setFile_same {s : State} {f : ℕ} {file : OpenFile} (h : s.files f = some file)
    (file' : OpenFile) (hnode : file'.node = file.node) :
    (s.setFile f (some file')).nodeOf = s.nodeOf := by
  have hold : s.nodeOf f = some file'.node := by
    rw [State.nodeOf, h, map_some, hnode]
  rw [nodeOf_setFile, map_some, ← hold, update_eq_self]

theorem nodeOf_retainFile (s : State) (f : ℕ) : (s.retainFile f).nodeOf = s.nodeOf := by
  unfold State.retainFile
  split
  · rfl
  · rename_i file hfile
    exact nodeOf_setFile_same hfile _ rfl

theorem drops_dropFile (s : State) (f : ℕ) : Drops s (s.dropFile f).2 (s.dropFile f).1 := by
  unfold State.dropFile
  split
  · exact .refl s
  rename_i file hfile
  split_ifs
  · refine ⟨rfl, rfl, .inr ⟨f, file.node, rfl, ?_, nodeOf_setFile s f none⟩⟩
    rw [State.nodeOf, hfile, map_some]
  · exact ⟨rfl, rfl, .inl ⟨rfl, nodeOf_setFile_same hfile _ rfl⟩⟩

/-- `close_fd` puts the node of the file it frees. -/
theorem drops_closeFd (s : State) (task : ℕ) (fd : ℤ) :
    Drops s (closeFd s task fd).2.2 (closeFd s task fd).2.1 := by
  unfold closeFd
  split
  · exact .refl s
  · exact drops_dropFile (s.setTask task _) _

/-- `sys_dup2` frees at most the file that was open at the new descriptor. -/
theorem drops_sysDup2 (alloc : Bool) (s : State) (task : ℕ) (oldfd newfd : ℤ) :
    Drops s (sysDup2 alloc s task oldfd newfd).2.2 (sysDup2 alloc s task oldfd newfd).2.1 := by
  have hinstall : ∀ (t : State) (f : ℕ), (installDup alloc t task f newfd).2.nextFile = t.nextFile ∧
      (installDup alloc t task f newfd).2.taskCount = t.taskCount ∧
      (installDup alloc t task f newfd).2.nodeOf = t.nodeOf := by
    intro t f
    have hretain := nodeOf_retainFile t f
    unfold installDup
    dsimp only
    split
    · exact ⟨nextFile_retainFile t f, taskCount_retainFile t f, hretain⟩
    split
    · exact ⟨nextFile_retainFile t f, taskCount_retainFile t f, hretain⟩
    · rename_i file hfile
      have hsame := nodeOf_setFile_same hfile ⟨file.node, file.refCount - 1⟩ rfl
      exact ⟨nextFile_retainFile t f, taskCount_retainFile t f, hsame.trans hretain⟩
  unfold sysDup2
  split
  · exact .refl s
  split_ifs
  · exact .refl s
  · exact .refl s
  split
  · exact .refl s
  rename_i f _ _ _ _ t _
  dsimp only
  split_ifs with hopen hrc
  · exact drops_closeFd (s.setTask task t) task newfd
  · obtain ⟨hnext, hcount, hnodes⟩ := drops_closeFd (s.setTask task t) task newfd
    obtain ⟨hnext', hcount', hnodes'⟩ := hinstall (closeFd (s.setTask task t) task newfd).2.2 f
    refine ⟨hnext'.trans hnext, hcount'.trans hcount, ?_⟩
    rw [hnodes']
    exact hnodes
  · obtain ⟨hnext, hcount, hnodes⟩ := hinstall (s.setTask task t) f
    exact ⟨hnext, hcount, .inl ⟨rfl, hnodes⟩⟩

/-- `sys_open` hands its reference back or keeps it in a new file. -/
theorem nodeOf_sysOpen (out : OpenOutcome) (s : State) (task node : ℕ) :
    (sysOpen out s task node).2.2.taskCount = s.taskCount ∧
      (((sysOpen out s task node).2.1 = some node ∧
          (sysOpen out s task node).2.2.nextFile = s.nextFile ∧
          (sysOpen out s task node).2.2.nodeOf = s.nodeOf) ∨
        ((sysOpen out s task node).2.1 = none ∧
          (sysOpen out s task node).2.2.nextFile = s.nextFile + 1 ∧
          (sysOpen out s task node).2.2.nodeOf = update s.nodeOf s.nextFile (some node))) := by
  unfold sysOpen
  dsimp only
  split_ifs
  · exact ⟨rfl, .inl ⟨rfl, rfl, rfl⟩⟩
  · exact ⟨rfl, .inl ⟨rfl, rfl, rfl⟩⟩
  · exact ⟨rfl, .inr ⟨rfl, rfl, nodeOf_setFile _ s.nextFile (some ⟨node, 1⟩)⟩⟩

end Fd

namespace Vfs

open Sharing

/-! ### References of tasks -/

/-- The references on a node: open files and working directories. -/
def references (fd : Fd.State) (cwd : ℕ → Option ℕ) (n : ℕ) : ℕ :=
  holders (range fd.nextFile) fd.nodeOf n + holders (range fd.taskCount) cwd n

/-- The counts cover the open files and working directories, and later file numbers are unused. -/
structure SysInv (y : Sys) : Prop where
  life : Life [] (references y.fd y.cwd) y.vfs
  files : ∀ f, y.fd.nextFile ≤ f → y.fd.nodeOf f = none

section System

variable {env : Env} {y : Sys} {s : State} {task n : ℕ}

theorem SysInv.withVfs (h : SysInv y) (hs : Life [] (references y.fd y.cwd) s) :
    SysInv (y.withVfs s) := ⟨hs, h.files⟩

theorem SysInv.drops {fd : Fd.State} {node : Option ℕ} (h : SysInv y)
    (hd : Fd.Drops y.fd fd node) : SysInv { y with vfs := Sys.put y.vfs node, fd := fd } := by
  obtain ⟨hnext, hcount, hcase⟩ := hd
  rcases hcase with ⟨rfl, hnodes⟩ | ⟨f, m, rfl, hf, hnodes⟩
  · have hrefs : references fd y.cwd = references y.fd y.cwd := by
      funext x
      rw [references, references, hnext, hcount, hnodes]
    refine ⟨?_, fun f hle => ?_⟩
    · dsimp only
      rw [hrefs]
      exact h.life
    · rw [hnodes]
      exact h.files f (hnext ▸ hle)
  · have hlt : f < y.fd.nextFile := by
      by_contra hle
      rw [h.files f (Nat.le_of_not_lt hle)] at hf
      cases hf
    have hrefs : references y.fd y.cwd = update (references fd y.cwd) m
        (references fd y.cwd m + 1) := by
      funext x
      have hupd := holders_update (mem_range.mpr hlt) (fun b _ hb =>
        (update_of_ne hb none y.fd.nodeOf)) x
      rw [update_self, hf, if_neg (some_ne_none x).symm] at hupd
      rw [update_succ_apply, references, references, hnext, hcount, hnodes]
      omega
    refine ⟨Life.release ?_, fun g hle => ?_⟩
    · dsimp only
      rw [← hrefs]
      exact h.life
    have hg : g ≠ f := by
      have : y.fd.nextFile ≤ g := hnext ▸ hle
      omega
    rw [hnodes, update_of_ne hg]
    exact h.files g (hnext ▸ hle)

/-- `sys_open` of a node that is not listed without being counted. -/
theorem SysInv.sysOpen (h : SysInv y) (creat trunc : Bool) (out : Fd.OpenOutcome) (path : Name)
    (hsafe : ∀ n s, y.openTarget env creat task path = (some n, s) →
      ∀ p, s.parentOf n = some p → s.refOf n ≠ 0) :
    SysInv (y.sysOpen env creat trunc out task path) := by
  have htarget : Life [] (references y.fd y.cwd) (y.openTarget env creat task path).2 := by
    unfold Sys.openTarget
    have hopen := h.life.openAt env (some ((y.cwd task).getD y.vfs.root)) path
    generalize Vfs.openAt env y.vfs (some ((y.cwd task).getD y.vfs.root)) path = r at hopen
    obtain ⟨o, t⟩ := r
    cases o with
    | some n => exact hopen
    | none =>
      split_ifs
      · exact hopen.createAt _ path .file
      · exact hopen
  unfold Sys.sysOpen
  generalize y.openTarget env creat task path = r at htarget hsafe
  obtain ⟨o, t⟩ := r
  obtain _ | n := o
  · exact h.withVfs htarget
  dsimp only at htarget ⊢
  split_ifs
  · exact h.withVfs htarget
  generalize hget : getNode t n = r
  obtain ⟨ok, u⟩ := r
  cases ok with
  | false =>
    obtain rfl := getNode_false hget
    exact h.withVfs htarget
  | true =>
    have hlife := htarget.getNode hget (hsafe n t rfl)
    obtain ⟨hcount, hcase⟩ := Fd.nodeOf_sysOpen out y.fd task n
    generalize Fd.sysOpen out y.fd task n = r at hcount hcase
    obtain ⟨rc, node, fd⟩ := r
    rcases hcase with ⟨rfl, hnext, hnodes⟩ | ⟨rfl, hnext, hnodes⟩
    · have hrefs : references fd y.cwd = references y.fd y.cwd := by
        funext x
        rw [references, references, hnext, hcount, hnodes]
      refine ⟨Life.release ?_, fun f hle => ?_⟩
      · dsimp only
        rw [hrefs]
        exact hlife
      · rw [hnodes]
        exact h.files f (hnext ▸ hle)
    · -- the new file has the next number
      have hrefs : references fd y.cwd = update (references y.fd y.cwd) n
          (references y.fd y.cwd n + 1) := by
        funext x
        have hrest : holders (range y.fd.nextFile)
            (update y.fd.nodeOf y.fd.nextFile (some n)) x =
              holders (range y.fd.nextFile) y.fd.nodeOf x :=
          holders_congr fun f hf =>
            update_of_ne (ne_of_lt (mem_range.mp hf)) _ _
        rw [update_succ_apply, references, references, hnext, hcount, hnodes,
          holders_range_succ, hrest, update_self]
        omega
      refine ⟨?_, fun f hle => ?_⟩
      · dsimp only
        rw [hrefs]
        exact hlife
      · have hf : y.fd.nextFile + 1 ≤ f := hnext ▸ hle
        rw [hnodes, update_of_ne (by omega)]
        exact h.files f (by omega)

/-- `sys_chdir` to a node that is not listed without being counted. -/
theorem SysInv.sysChdir (h : SysInv y) (htask : task < y.fd.taskCount) (path : Name)
    (hsafe : ∀ n s, openAt env y.vfs (some ((y.cwd task).getD y.vfs.root)) path = (some n, s) →
      ∀ p, s.parentOf n = some p → s.refOf n ≠ 0) : SysInv (y.sysChdir env task path) := by
  unfold Sys.sysChdir
  have hopen := h.life.openAt env (some ((y.cwd task).getD y.vfs.root)) path
  generalize Vfs.openAt env y.vfs (some ((y.cwd task).getD y.vfs.root)) path = r at hopen hsafe
  obtain ⟨o, t⟩ := r
  obtain _ | n := o
  · exact h.withVfs hopen
  dsimp only at hopen ⊢
  split_ifs
  · exact h.withVfs hopen
  generalize hget : getNode t n = r
  obtain ⟨ok, u⟩ := r
  cases ok with
  | false =>
    obtain rfl := getNode_false hget
    exact h.withVfs hopen
  | true =>
    have hlife := hopen.getNode hget (hsafe n t rfl)
    have hupd := fun x => holders_update (mem_range.mpr htask) (fun b _ hb =>
      (update_of_ne hb (some n) y.cwd)) x
    cases hold : y.cwd task with
    | none =>
      have hrefs : references y.fd (update y.cwd task (some n)) =
          update (references y.fd y.cwd) n (references y.fd y.cwd n + 1) := by
        funext x
        have hx := hupd x
        rw [update_self, hold, if_neg (some_ne_none x).symm] at hx
        rw [update_succ_apply, references, references]
        omega
      refine ⟨?_, h.files⟩
      rw [hrefs]
      exact hlife
    | some m =>
      have hrefs : update (references y.fd (update y.cwd task (some n))) m
          (references y.fd (update y.cwd task (some n)) m + 1) =
            update (references y.fd y.cwd) n (references y.fd y.cwd n + 1) := by
        funext x
        have hx := hupd x
        rw [update_self, hold] at hx
        rw [update_succ_apply, update_succ_apply, references, references]
        omega
      refine ⟨Life.release ?_, h.files⟩
      rw [hrefs]
      exact hlife

end System

/-! ### Runs -/

def SysOp.task : SysOp → Option ℕ
  | .lookup task _ => some task
  | .open _ _ _ task _ => some task
  | .close task _ => some task
  | .dup2 _ task _ _ => some task
  | .chdir task _ => some task
  | .unlinkAt task _ => some task
  | .renameAt task _ _ => some task
  | .setCallbacks _ _ => none

/-- A step is a call of an existing task or a driver. -/
def SysCalls (env : Env) (op : SysOp) (y y' : Sys) : Prop :=
  (∀ task, op.task = some task → task < y.fd.taskCount) ∧ y' = op.apply env y

/-- The path leads to a node that a directory lists although it is not counted. -/
def Uncounted (r : Option ℕ × State) : Prop :=
  ∃ n p, r.1 = some n ∧ r.2.parentOf n = some p ∧ r.2.refOf n = 0

/-- The call takes a reference on a listed node that is not counted. -/
def SysOp.TakesUncounted (env : Env) (y : Sys) : SysOp → Prop
  | .open creat _ _ task path => Uncounted (y.openTarget env creat task path)
  | .chdir task path =>
    Uncounted (openAt env y.vfs (some ((y.cwd task).getD y.vfs.root)) path)
  | _ => False

/-- Every child, entry of a table, node of an open file and working directory exists. -/
structure Alive (y : Sys) : Prop where
  child : ∀ p c, c ∈ y.vfs.childrenOf p → y.vfs.validNode c = true
  table : ∀ p table b c, y.vfs.childHashOf p = some table → c ∈ table b →
    y.vfs.validNode c = true
  file : ∀ f file, y.fd.files f = some file → y.vfs.validNode file.node = true
  cwd : ∀ task < y.fd.taskCount, ∀ n, y.cwd task = some n → y.vfs.validNode n = true

theorem SysInv.alive {y : Sys} (h : SysInv y) : Alive y where
  child := fun p c hc => validNode_of_parentOf ((h.life.plainLinks.link p c).mp hc)
  table := fun p table b c ht hc =>
    validNode_of_parentOf (((h.life.plainLinks.table p table ht b).2 c).mp hc).1
  file := by
    intro f file hf
    have hnode : y.fd.nodeOf f = some file.node := by
      rw [Fd.State.nodeOf, hf, map_some]
    have hlt : f < y.fd.nextFile := by
      by_contra hle
      rw [h.files f (Nat.le_of_not_lt hle)] at hnode
      cases hnode
    refine h.life.valid (ne_of_gt (Nat.add_pos_left ?_ _))
    exact holders_pos_iff.mpr ⟨f, mem_range.mpr hlt, hnode⟩
  cwd := by
    intro task htask n hn
    refine h.life.valid (ne_of_gt (Nat.add_pos_right _ ?_))
    exact holders_pos_iff.mpr ⟨task, mem_range.mpr htask, hn⟩

/-- One call keeps the invariant unless it takes such a reference. -/
theorem SysInv.step {env : Env} {op : SysOp} {y y' : Sys} (h : SysInv y)
    (hcall : SysCalls env op y y') (hsafe : ¬op.TakesUncounted env y) : SysInv y' := by
  obtain ⟨htask, rfl⟩ := hcall
  cases op with
  | lookup task path => exact h.withVfs (h.life.openAt env _ path)
  | «open» creat trunc out task path =>
    exact h.sysOpen creat trunc out path fun n s hn p hp hzero =>
      hsafe ⟨n, p, by rw [hn], by rw [hn]; exact hp, by rw [hn]; exact hzero⟩
  | close task fd => exact h.drops (Fd.drops_closeFd y.fd task fd)
  | dup2 alloc task oldfd newfd => exact h.drops (Fd.drops_sysDup2 alloc y.fd task oldfd newfd)
  | chdir task path =>
    exact h.sysChdir (htask task rfl) path fun n s hn p hp hzero =>
      hsafe ⟨n, p, by rw [hn], by rw [hn]; exact hp, by rw [hn]; exact hzero⟩
  | unlinkAt task path => exact h.withVfs (h.life.unlinkAt _ path)
  | renameAt task oldPath newPath => exact h.withVfs (h.life.renameAt env _ oldPath newPath)
  | setCallbacks n callbacks =>
    exact h.withVfs (h.life.modify (view_modify_same _ n fun _ _ => rfl) fun _ => rfl)

theorem references_init (tasks n : ℕ) :
    references (Sys.init tasks).fd (Sys.init tasks).cwd n = if n = 0 then tasks else 0 := by
  have hfiles : holders (range 0) (Sys.init tasks).fd.nodeOf n = 0 := rfl
  have hcwd : ∀ k, holders (range k) (Sys.init tasks).cwd n = if n = 0 then k else 0 := by
    intro k
    induction k with
    | zero => exact (ite_self 0).symm
    | succ k ih =>
      rw [holders_range_succ, ih]
      by_cases hn : n = 0
      · rw [hn]
        rfl
      · have hne : (Sys.init tasks).cwd k ≠ some n := fun h => hn (some.inj h).symm
        rw [if_neg hn, if_neg hn, if_neg hne]
  exact (congrArg₂ (· + ·) hfiles (hcwd tasks)).trans (zero_add _)

theorem sysInv_init (tasks : ℕ) : SysInv (Sys.init tasks) := by
  have hroot : ∀ n x, (Sys.init tasks).vfs.nodes n = some x →
      n = 0 ∧ x = .fresh [47] .directory (tasks + 1) .none := by
    intro n x hx
    by_cases hn : n = 0
    · subst hn
      exact ⟨rfl, (some.inj hx).symm⟩
    · cases (if_neg hn).symm.trans hx
  have hnone : ∀ n, (Sys.init tasks).vfs.parentOf n = none := by
    intro n
    unfold State.parentOf
    cases hn : (Sys.init tasks).vfs.nodes n with
    | none => rfl
    | some x =>
      rw [(hroot n x hn).2]
      rfl
  refine ⟨⟨?_, fun n hn => if_neg (ne_of_gt hn), fun n => ?_, fun n p hn => ?_, ?_, hnone 0,
    fun n hn => by cases hn⟩, fun f _ => rfl⟩
  · rw [withoutTables_nil]
    exact links_root (tasks + 1) .none 1 0
  · rw [references_init]
    split_ifs with hn
    · rw [hn]
      exact Nat.le_succ tasks
    · exact Nat.zero_le _
  · rw [hnone] at hn
    cases hn
  · rw [references_init]
    exact Nat.lt_succ_self tasks

/-- In every run that takes no reference on a listed node that is not counted, nothing refers to a
destroyed node. -/
theorem alive_of_run {tasks : ℕ} {y : Sys}
    (hrun : ReflTransGen (fun a b => ∃ env op, SysCalls env op a b ∧
      ¬op.TakesUncounted env a) (Sys.init tasks) y) : Alive y := by
  have hinv : SysInv y := Step.run_invariant hrun (sysInv_init tasks)
    fun h ⟨_, _, hcall, hsafe⟩ => h.step hcall hsafe
  exact hinv.alive

theorem sysCalls_first {env : Env} {op : SysOp} {y : Sys} (hop : op.task = some 0)
    (hy : 0 < y.fd.taskCount) : SysCalls env op y (op.apply env y) := by
  refine ⟨fun task htask => ?_, rfl⟩
  obtain rfl := some.inj (hop.symm.trans htask)
  exact hy

/-- A file is created by an open, unlinked while it is open, and closed. -/
theorem alive_of_run_unlinked : Alive ((SysOp.close 0 0).apply .plain
    ((SysOp.unlinkAt 0 [47, 97]).apply .plain
      ((SysOp.open true true ⟨true, true, true⟩ 0 [47, 97]).apply .plain (Sys.init 1)))) := by
  have hopen : ¬(SysOp.open true true ⟨true, true, true⟩ 0 [47, 97]).TakesUncounted .plain
      (Sys.init 1) := by
    rintro ⟨n, p, hn, -, hzero⟩
    have htarget : ((Sys.init 1).openTarget .plain true 0 [47, 97]).1 = some 1 := by
      decide
    have hcount : ((Sys.init 1).openTarget .plain true 0 [47, 97]).2.refOf 1 = 1 := by
      decide
    obtain rfl := some.inj (htarget.symm.trans hn)
    exact absurd (hcount.symm.trans hzero) one_ne_zero
  refine alive_of_run (((ReflTransGen.single ⟨.plain, _, sysCalls_first rfl ?_, hopen⟩).tail
    ⟨.plain, _, sysCalls_first rfl ?_, id⟩).tail ⟨.plain, _, sysCalls_first rfl ?_, id⟩)
  · decide
  · decide
  · decide

/-- A driver whose root directory has one file, `a`. -/
def Env.oneFile : Env :=
  { Env.plain with
    finddir := fun _ name =>
      if name = [97] then some ⟨[97], .file, ⟨false, false, true, false, false, false⟩⟩ else none }

/-- A file of a driver is opened and closed: it is destroyed, but its directory still lists it. -/
theorem close_destroys_listed : ¬∀ tasks y, ReflTransGen (fun a b => ∃ env op,
    SysCalls env op a b) (Sys.init tasks) y → Alive y := by
  intro hall
  let y := (SysOp.close 0 0).apply .oneFile
    ((SysOp.open false true ⟨true, true, true⟩ 0 [47, 97]).apply .oneFile
      ((SysOp.setCallbacks 0 ⟨true, true, false, true, true, true⟩).apply .oneFile (Sys.init 1)))
  have hrun : ReflTransGen (fun a b => ∃ env op, SysCalls env op a b) (Sys.init 1) y := by
    refine ((ReflTransGen.single ⟨.oneFile, .setCallbacks 0 _,
      ⟨fun task h => (by cases h), rfl⟩⟩).tail
      ⟨.oneFile, _, sysCalls_first rfl ?_⟩).tail ⟨.oneFile, _, sysCalls_first rfl ?_⟩
    · decide
    · decide
  have hlisted : y.vfs.childrenOf 0 = [1] := by decide +kernel
  have hgone : y.vfs.validNode 1 = false := by decide +kernel
  have hvalid := (hall 1 y hrun).child 0 1 (by rw [hlisted]; exact List.mem_cons_self)
  rw [hgone] at hvalid
  cases hvalid

end Vfs

end RHKernel
