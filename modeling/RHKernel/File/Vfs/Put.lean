import Mathlib.Data.Finset.Card
import RHKernel.File.Vfs.Links

/-!
# Dropping references

`put_node` destroys a node with its last reference and then puts its children in turn. The
invariant `Life` compares the count of a node with the references that are known of: a node is
counted at least as often as it is referred to, once more if it is the root, and also once more
if a directory lists it, unless it is not counted at all. Under it the nodes that `put_node`
destroys are neither referred to nor listed.

While a node is destroyed its table is stale, so the invariant carries the nodes that are being
destroyed and ignores their tables.
-/

namespace RHKernel.Vfs

open Function List Node

/-- The count of a node, 0 if there is none. -/
def State.refOf (s : State) (n : ℕ) : ℕ := ((s.nodes n).map refCount).getD 0

/-- Without the tables of some nodes. -/
def View.withoutTables (v : View) (dying : List ℕ) : View :=
  { v with table := fun n => if n ∈ dying then none else v.table n }

/-- The counts of the nodes cover the references `refs`. -/
structure Life (dying : List ℕ) (refs : ℕ → ℕ) (s : State) : Prop where
  links : Links (s.view.withoutTables dying)
  fresh : ∀ n, s.next ≤ n → s.nodes n = none
  counted : ∀ n, refs n ≤ s.refOf n
  held : ∀ n p, s.parentOf n = some p → refs n < s.refOf n ∨ s.refOf n = 0
  rootHeld : refs s.root < s.refOf s.root
  rootTop : s.parentOf s.root = none
  dead : ∀ n ∈ dying, s.validNode n = true ∧ s.refOf n = 0 ∧ s.parentOf n = none

section Views

variable {v : View} {dying : List ℕ} {p c n : ℕ} {s : State}

theorem withoutTables_nil (v : View) : v.withoutTables [] = v := by
  refine View.ext rfl rfl rfl rfl rfl rfl (funext fun n => ?_)
  dsimp only [View.withoutTables]
  rw [if_neg not_mem_nil]

/-- A child is unlinked from a node that is being destroyed. -/
theorem unlink_withoutTables (hp : p ∈ dying) (v : View) (c : ℕ) :
    (v.withoutTables dying).unlink p c =
      { v.withoutTables dying with
        parent := update v.parent c none
        children := update v.children p ((v.children p).erase c)
        count := update v.count p (v.count p - 1) } := by
  have hnone : (v.withoutTables dying).table p = none := if_pos hp
  refine View.ext rfl rfl rfl rfl rfl rfl ?_
  dsimp only [View.unlink]
  rw [hnone, Option.map_none, ← hnone, update_eq_self]

/-- A node that is being destroyed goes. -/
theorem set_none_withoutTables (v : View) (n : ℕ) (dying : List ℕ) :
    (v.set n none).withoutTables dying = (v.withoutTables (n :: dying)).set n none := by
  refine View.ext rfl rfl rfl rfl rfl rfl (funext fun m => ?_)
  dsimp only [View.withoutTables, View.set]
  by_cases hm : m = n
  · subst hm
    rw [update_self, update_self]
    exact ite_self _
  · rw [update_of_ne hm, update_of_ne hm]
    simp only [mem_cons, hm, false_or]

theorem withoutTables_cons (h : Links (v.withoutTables dying)) (n : ℕ) :
    Links (v.withoutTables (n :: dying)) where
  link := h.link
  nodup := h.nodup
  names := h.names
  count := h.count
  table := by
    intro p table htable
    dsimp only [View.withoutTables] at htable
    split_ifs at htable with hmem
    rw [mem_cons, not_or] at hmem
    exact h.table p table ((if_neg hmem.2).trans htable)
  key := h.key

theorem view_popChild (hn : s.validNode n = true) :
    (s.modify n popChild).view =
      { s.view with
        children := update s.view.children n (s.view.children n).tail
        count := update s.view.count n (s.view.count n - 1) } := by
  obtain ⟨v, x, hs, hm⟩ := exists_view_modify hn popChild
  rw [hm, hs]
  simp only [View.set, update_idem, update_self]
  rfl

/-- `destroy_node` lets go of a child. -/
theorem view_orphan (hn : s.validNode n = true) :
    (s.modify n fun x => (x.withParent none).withUnlinked).view =
      { s.view with parent := update s.view.parent n none } := by
  obtain ⟨v, x, hs, hm⟩ := exists_view_modify hn fun x => (x.withParent none).withUnlinked
  rw [hm, hs]
  simp only [View.set, update_idem]
  rfl

end Views

section Counts

variable {s s' : State} {n : ℕ}

theorem refOf_frame (hf : Frame refCount s s') : s'.refOf = s.refOf := by
  funext m
  unfold State.refOf
  rw [hf.nodes m]

theorem refOf_withRefCount {x : Node} (hn : s.nodes n = some x) (k : ℕ) :
    (s.modify n (·.withRefCount k)).refOf = update s.refOf n k := by
  refine (funext (apply_update (fun _ o => (o.map refCount).getD 0) s.nodes n _)).trans ?_
  rw [hn]
  rfl

theorem refOf_free (s : State) (n : ℕ) : (s.free n).refOf = update s.refOf n 0 :=
  funext (apply_update (fun _ o => (o.map refCount).getD 0) s.nodes n none)

theorem refOf_add (s : State) (node : Node) :
    (s.add node).2.refOf = update s.refOf s.next node.refCount :=
  funext (apply_update (fun _ o => (o.map refCount).getD 0) s.nodes s.next (some node))

theorem refOf_of_nodes {x : Node} (hn : s.nodes n = some x) : s.refOf n = x.refCount := by
  unfold State.refOf
  rw [hn]
  rfl

theorem validNode_of_refOf (h : s.refOf n ≠ 0) : s.validNode n = true :=
  Option.isSome_iff_ne_none.mpr fun hn => h (by rw [State.refOf, hn]; rfl)

theorem linkFree_refCount : LinkFree refCount :=
  ⟨fun _ _ => rfl, fun _ _ => rfl, fun _ _ => rfl, fun _ _ => rfl, fun _ _ => rfl⟩

end Counts

section Put

variable {dying rest : List ℕ} {refs refs' : ℕ → ℕ} {s s' : State} {n p k r c : ℕ}

theorem Life.valid (h : Life dying refs s) (hn : refs n ≠ 0) : s.validNode n = true :=
  validNode_of_refOf fun hzero => hn (Nat.le_zero.mp (hzero ▸ h.counted n))

theorem Life.recount (h : Life dying refs s) (hf : Frame (fun _ => ()) s s')
    (hview : s'.view = s.view) (href : s'.refOf = update s.refOf n k) (hle : r ≤ k)
    (hheld : ∀ p, s.parentOf n = some p → r < k ∨ k = 0) (hroot : n = s.root → r < k)
    (hn : n ∉ dying) : Life dying (update refs n r) s' := by
  have hpar : s'.parentOf = s.parentOf := congrArg View.parent hview
  refine ⟨hview ▸ h.links, hf.fresh h.fresh, fun m => ?_, fun m q hm => ?_, ?_, ?_, fun m hm => ?_⟩
  · rw [href]
    exact update_le_update_iff.mpr ⟨hle, fun m _ => h.counted m⟩ m
  · rw [hpar] at hm
    rw [href]
    by_cases hmn : m = n
    · rw [hmn, update_self, update_self]
      exact hheld q (hmn ▸ hm)
    · rw [update_of_ne hmn, update_of_ne hmn]
      exact h.held m q hm
  · rw [href, hf.root]
    by_cases hrn : s.root = n
    · rw [hrn, update_self, update_self]
      exact hroot hrn.symm
    · rw [update_of_ne hrn, update_of_ne hrn]
      exact h.rootHeld
  · rw [hf.root, hpar]
    exact h.rootTop
  · rw [hpar, href, update_of_ne (ne_of_mem_of_not_mem hm hn), hf.validNode]
    exact h.dead m hm

theorem Life.lower {x : Node} (h : Life dying refs s) (hn : s.nodes n = some x)
    (hone : refs n < x.refCount) (hparent : ∀ p, s.parentOf n = some p → refs n + 1 < x.refCount)
    (hroot : n = s.root → refs n + 1 < x.refCount) :
    Life dying refs (s.modify n (·.withRefCount (x.refCount - 1))) := by
  have hlow := h.recount (r := refs n) (frame_modify s n fun _ => rfl) (view_withRefCount s n _)
    (refOf_withRefCount hn (x.refCount - 1)) (Nat.le_sub_one_of_lt hone)
    (fun p hp => .inl (Nat.lt_sub_of_add_lt (hparent p hp)))
    (fun hr => Nat.lt_sub_of_add_lt (hroot hr)) fun hin => ?_
  · rwa [update_eq_self] at hlow
  · have hzero := (h.dead n hin).2.1
    rw [refOf_of_nodes hn] at hzero
    omega

/-- What `destroy_node` does to its first child before it puts it. -/
def orphanChild (s : State) (n child : ℕ) : State :=
  (s.modify n popChild).modify child fun c => (c.withParent none).withUnlinked

/-- A node that is being destroyed lets go of its first child. -/
theorem Life.orphanChild (h : Life dying refs s) (hn : n ∈ dying)
    (hc : s.childrenOf n = c :: rest) :
    Life dying refs (orphanChild s n c) ∧ (Vfs.orphanChild s n c).childrenOf n = rest ∧
      (Vfs.orphanChild s n c).parentOf c = none ∧
      ∀ m, m ≠ n → (Vfs.orphanChild s n c).childrenOf m = s.childrenOf m := by
  have hmem : c ∈ s.childrenOf n := by
    rw [hc]
    exact mem_cons_self
  have hparent : s.parentOf c = some n := (h.links.link n c).mp hmem
  set t := Vfs.orphanChild s n c with ht
  have hview : t.view =
      { s.view with
        parent := update s.view.parent c none
        children := update s.view.children n ((s.view.children n).erase c)
        count := update s.view.count n (s.view.count n - 1) } := by
    have htail : (s.view.children n).erase c = (s.view.children n).tail := by
      rw [show s.view.children n = c :: rest from hc, erase_cons_head, tail_cons]
    rw [ht, Vfs.orphanChild,
      view_orphan (by rw [validNode_modify]; exact validNode_of_parentOf hparent),
      view_popChild (h.dead n hn).1, htail]
  have hf : Frame refCount s t :=
    (frame_modify (f := popChild) s n fun _ => rfl).trans (frame_modify _ c fun _ => rfl)
  have hpar : t.parentOf = update s.parentOf c none := congrArg View.parent hview
  have hchildren : t.childrenOf =
      update s.childrenOf n ((s.childrenOf n).erase c) :=
    congrArg View.children hview
  -- a node with a parent afterwards had it before
  have hold : ∀ {m q}, t.parentOf m = some q → s.parentOf m = some q := by
    intro m q hm
    rw [hpar] at hm
    exact (update_none_eq_some hm).2
  have hnone : ∀ {m}, s.parentOf m = none → t.parentOf m = none := by
    intro m hm
    rw [hpar, update_of_ne (ne_of_parentOf hm hparent).symm, hm]
  refine ⟨⟨?_, hf.fresh h.fresh, ?_, ?_, ?_, ?_, ?_⟩, ?_, ?_, fun m hm => ?_⟩
  · have hunlink : t.view.withoutTables dying = (s.view.withoutTables dying).unlink n c := by
      rw [unlink_withoutTables hn, hview]
      rfl
    rw [hunlink]
    exact h.links.unlinked hparent
  · rw [refOf_frame hf]
    exact h.counted
  · rw [refOf_frame hf]
    exact fun m q hm => h.held m q (hold hm)
  · rw [refOf_frame hf, hf.root]
    exact h.rootHeld
  · rw [hf.root]
    exact hnone h.rootTop
  · intro m hm
    obtain ⟨hv, hzero, htop⟩ := h.dead m hm
    rw [refOf_frame hf, hf.validNode]
    exact ⟨hv, hzero, hnone htop⟩
  · rw [hchildren, update_self, hc, erase_cons_head]
  · rw [hpar, update_self]
  · rw [hchildren, update_of_ne hm]

/-- A destroyed node goes once it has let go of its children. -/
theorem Life.free (h : Life (n :: dying) refs s) (hchildren : s.childrenOf n = [])
    (hn : n ∉ dying) : Life dying refs (s.free n) := by
  obtain ⟨-, hzero, hnone⟩ := h.dead n mem_cons_self
  have hpar := parentOf_free hnone
  have href : (s.free n).refOf = s.refOf := by
    rw [refOf_free, ← hzero, update_eq_self]
  refine ⟨?_, fresh_free h.fresh n, ?_, ?_, ?_, ?_, fun m hm => ?_⟩
  · rw [view_free, set_none_withoutTables]
    exact h.links.set hnone hchildren rfl rfl rfl rfl fun m hm => by cases hm
  · rw [href]
    exact h.counted
  · rw [href, hpar]
    exact h.held
  · rw [href]
    exact h.rootHeld
  · rw [hpar]
    exact h.rootTop
  obtain ⟨hv, hz, htop⟩ := h.dead m (mem_cons_of_mem n hm)
  have hmn : m ≠ n := fun heq => hn (heq ▸ hm)
  refine ⟨?_, ?_, ?_⟩
  · exact (congrArg Option.isSome (nodes_free_ne hmn)).trans hv
  · rw [href, hz]
  · rw [hpar, htop]

/-- The loop of `destroy_node`, if what it does with each child keeps the invariant. -/
theorem Life.destroyLoop {put : State → ℕ → State}
    (hput : ∀ {s c}, Life (n :: dying) refs s → (s.refOf c ≠ 0 → refs c < s.refOf c) →
      s.parentOf c = none → c ≠ s.root → Life (n :: dying) refs (put s c) ∧
        ∀ m ∈ n :: dying, (put s c).childrenOf m = s.childrenOf m) (hn : n ∉ dying)
    (l : List ℕ) (h : Life (n :: dying) refs s) (hl : s.childrenOf n = l) :
    Life (n :: dying) refs (l.foldl (fun s c => put (Vfs.orphanChild s n c) c) s) ∧
      (l.foldl (fun s c => put (Vfs.orphanChild s n c) c) s).childrenOf n = [] ∧
      ∀ m ∈ dying, (l.foldl (fun s c => put (Vfs.orphanChild s n c) c) s).childrenOf m =
        s.childrenOf m := by
  induction l generalizing s with
  | nil => exact ⟨h, hl, fun _ _ => rfl⟩
  | cons c l ih =>
    have hmem : c ∈ s.childrenOf n := by
      rw [hl]
      exact mem_cons_self
    have hparent : s.parentOf c = some n := (h.links.link n c).mp hmem
    have hroot := ne_of_parentOf h.rootTop hparent
    obtain ⟨horphan, hrest, hnone, hother⟩ := h.orphanChild mem_cons_self hl
    have hf : Frame refCount s (Vfs.orphanChild s n c) :=
      (frame_modify (f := popChild) s n fun _ => rfl).trans (frame_modify _ c fun _ => rfl)
    obtain ⟨hlife, hsame⟩ := hput horphan (by
        rw [refOf_frame hf]
        exact fun hne => (h.held c n hparent).resolve_right hne)
      hnone (by rw [hf.root]; exact hroot)
    obtain ⟨hlife', hempty, hkeep⟩ := ih hlife ((hsame n mem_cons_self).trans hrest)
    refine ⟨hlife', hempty, fun m hm => ?_⟩
    have hmn : m ≠ n := fun heq => hn (heq ▸ hm)
    exact ((hkeep m hm).trans (hsame m (mem_cons_of_mem n hm))).trans (hother m hmn)

/-- `put_node` on a node that is counted more often than it is referred to keeps the invariant, and
it leaves the lists of the nodes that are being destroyed alone. -/
theorem Life.putNodeFuel (fuel : ℕ) (h : Life dying refs s)
    (hone : s.refOf n ≠ 0 → refs n < s.refOf n)
    (hparent : ∀ p, s.parentOf n = some p → s.refOf n ≠ 0 → refs n + 1 < s.refOf n)
    (hroot : n = s.root → refs n + 1 < s.refOf n) :
    Life dying refs (putNodeFuel fuel s n) ∧
      ∀ m ∈ dying, (Vfs.putNodeFuel fuel s n).childrenOf m = s.childrenOf m := by
  induction fuel generalizing dying s n with
  | zero => exact ⟨h, fun _ _ => rfl⟩
  | succ fuel ih =>
    rw [Vfs.putNodeFuel]
    split
    · exact ⟨h, fun _ _ => rfl⟩
    rename_i x hn
    have hx := refOf_of_nodes hn
    rw [hx] at hone hparent hroot
    split_ifs with hzero hmore
    · exact ⟨h, fun _ _ => rfl⟩
    · refine ⟨h.lower hn (hone hzero) (fun p hp => hparent p hp hzero) hroot, fun m _ => ?_⟩
      exact congrFun (congrArg View.children (view_withRefCount s n _)) m
    -- the last reference: the node has no parent and is not the root
    have hone' := hone hzero
    have hview := view_withRefCount s n (x.refCount - 1)
    have hlow := h.lower hn hone' (fun p hp => hparent p hp hzero) hroot
    have hnone : s.parentOf n = none := by
      cases hp : s.parentOf n with
      | none => rfl
      | some p =>
        have := hparent p hp hzero
        omega
    have hmem : n ∉ dying := fun hin => by
      have hz := (h.dead n hin).2.1
      rw [hx] at hz
      exact hzero hz
    have hchildren : (s.modify n (·.withRefCount (x.refCount - 1))).childrenOf n = x.children := by
      refine (congrFun (congrArg View.children hview) n).trans ?_
      have hget : s.childrenOf n = x.children := by
        rw [State.childrenOf, hn]
        rfl
      exact hget
    have hdying : Life (n :: dying) refs (s.modify n (·.withRefCount (x.refCount - 1))) := by
      refine { hlow with links := withoutTables_cons hlow.links n, dead := fun m hm => ?_ }
      rcases mem_cons.mp hm with rfl | hm
      · refine ⟨?_, ?_, (congrFun (congrArg View.parent hview) m).trans hnone⟩
        · rw [validNode_modify, State.validNode, hn]
          rfl
        · rw [refOf_withRefCount hn, update_self]
          omega
      · exact hlow.dead m hm
    obtain ⟨hloop, hempty, hkeep⟩ := hdying.destroyLoop
      (fun {t c} ht hc hnone hroot => ih ht hc (fun p hp => by rw [hnone] at hp; cases hp)
        (fun heq => absurd heq hroot)) hmem x.children hchildren
    refine ⟨hloop.free hempty hmem, fun m hm => ?_⟩
    have hmn : m ≠ n := fun heq => hmem (heq ▸ hm)
    have hfree : ∀ t : State, (t.free n).childrenOf m = t.childrenOf m := fun t => by
      rw [State.childrenOf, nodes_free_ne hmn]
      rfl
    refine (hfree _).trans ((hkeep m hm).trans ?_)
    exact congrFun (congrArg View.children hview) m

theorem Life.mono (h : Life dying refs' s) (hle : ∀ n, refs n ≤ refs' n) : Life dying refs s where
  links := h.links
  fresh := h.fresh
  counted := fun n => (hle n).trans (h.counted n)
  held := fun n p hn => (h.held n p hn).imp_left (hle n).trans_lt
  rootHeld := (hle s.root).trans_lt h.rootHeld
  rootTop := h.rootTop
  dead := h.dead

/-- The surplus of a node that is not listed can be claimed as a reference. -/
theorem Life.claim (h : Life [] refs s) (hn : refs n < s.refOf n)
    (hparent : s.parentOf n = none) (hroot : n ≠ s.root) :
    Life [] (update refs n (refs n + 1)) s :=
  h.recount (.refl _ s) rfl (update_eq_self n s.refOf).symm hn
    (fun _ hp => absurd rfl (ne_of_parentOf hparent hp)) (fun heq => absurd heq hroot)
    not_mem_nil

theorem Life.release (h : Life [] (update refs n (refs n + 1)) s) : Life [] refs (putNode s n) := by
  have hle : ∀ m, refs m ≤ update refs n (refs n + 1) m :=
    le_update_self_iff.mpr (Nat.le_succ _)
  have hcount := h.counted n
  rw [update_self] at hcount
  refine ((h.mono hle).putNodeFuel (s.next + 1) (fun _ => hcount) (fun p hp hne => ?_)
    (fun hroot => ?_)).1
  · have hheld := (h.held n p hp).resolve_right hne
    rwa [update_self] at hheld
  · have hheld := h.rootHeld
    rwa [← hroot, update_self] at hheld

theorem refOf_putNodeFuel_le (fuel : ℕ) (s : State) (n m : ℕ) :
    (putNodeFuel fuel s n).refOf m ≤ s.refOf m := by
  induction fuel generalizing s n with
  | zero => exact le_rfl
  | succ fuel ih =>
    rw [putNodeFuel]
    split
    · exact le_rfl
    rename_i x hn
    have hlow : ∀ k, k ≤ x.refCount → (s.modify n (·.withRefCount k)).refOf m ≤ s.refOf m := by
      intro k hk
      rw [refOf_withRefCount hn]
      exact update_le_self_iff.mpr ((refOf_of_nodes hn).symm ▸ hk) m
    split_ifs
    · exact le_rfl
    · exact hlow _ (Nat.sub_le _ _)
    have hfree : ∀ t : State, (t.free n).refOf m ≤ t.refOf m := by
      intro t
      rw [refOf_free]
      exact update_le_self_iff.mpr (Nat.zero_le _) m
    have hloop : ∀ (l : List ℕ) (t : State), (l.foldl (fun s c =>
        putNodeFuel fuel (orphanChild s n c) c) t).refOf m ≤ t.refOf m := by
      intro l
      induction l with
      | nil => exact fun t => le_rfl
      | cons c l ihl =>
        intro t
        have hf : Frame refCount t (orphanChild t n c) :=
          (frame_modify (f := popChild) t n fun _ => rfl).trans (frame_modify _ c fun _ => rfl)
        refine (ihl _).trans ((ih _ c).trans ?_)
        rw [refOf_frame hf]
    exact (hfree _).trans ((hloop _ _).trans (hlow _ (Nat.sub_le _ _)))

theorem putNode_of_refOf_eq_zero (h : s.refOf n = 0) : putNode s n = s := by
  unfold putNode
  rw [Vfs.putNodeFuel]
  split
  · rfl
  · rename_i x hn
    rw [refOf_of_nodes hn] at h
    rw [if_pos h]

theorem getNode_false (hx : getNode s n = (false, s')) : s' = s := by
  unfold getNode at hx
  split at hx
  · exact (Prod.mk.inj hx).2.symm
  · split_ifs at hx
    · exact (Prod.mk.inj hx).2.symm
    · cases hx

/-- A reference is taken on a node that is not listed without being counted. -/
theorem Life.getNode (h : Life [] refs s) (hx : getNode s n = (true, s'))
    (hlisted : ∀ p, s.parentOf n = some p → s.refOf n ≠ 0) :
    Life [] (update refs n (refs n + 1)) s' := by
  unfold Vfs.getNode at hx
  split at hx
  · cases hx
  rename_i x hn
  split_ifs at hx
  · cases hx
  obtain ⟨-, rfl⟩ := Prod.mk.inj hx
  have hold := refOf_of_nodes hn
  refine h.recount (frame_modify s n fun _ => rfl) (view_withRefCount s n _)
    (refOf_withRefCount hn (x.refCount + 1)) ?_ (fun p hp => .inl ?_) (fun hr => ?_)
    not_mem_nil
  · exact Nat.succ_le_succ (hold ▸ h.counted n)
  · exact Nat.succ_lt_succ (hold ▸ (h.held n p hp).resolve_right (hlisted p hp))
  · have hheld := h.rootHeld
    rw [← hr, hold] at hheld
    exact Nat.succ_lt_succ hheld

end Put

end RHKernel.Vfs
