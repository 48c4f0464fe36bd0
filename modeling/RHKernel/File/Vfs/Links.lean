import Mathlib.Order.Nat
import RHKernel.File.Vfs.Model
import RHKernel.Lib.Buckets

/-!
# Links between nodes

What the links of the tree must satisfy, without the question whether they lead to the root: a
node is listed by the directory it names as its parent and by no other, the names within a
directory differ, the number of children is the length of the list, and a hash table has each
child once, in the bucket of its name (`Links`).

Everything the links depend on is the `View` of a state. The functions of the model change it in
four ways only: a child is linked or unlinked, a table is built, a node is renamed, and a node
comes or goes.
-/

namespace RHKernel.Vfs

open Function List

/-- The part of a state that the links depend on. -/
@[ext]
structure View where
  valid : ℕ → Bool
  parent : ℕ → Option ℕ
  children : ℕ → List ℕ
  count : ℕ → ℕ
  name : ℕ → Name
  hash : ℕ → UInt64
  table : ℕ → Option (ℕ → List ℕ)

/-- The view of a state. -/
def State.view (s : State) : View where
  valid := s.validNode
  parent := s.parentOf
  children := s.childrenOf
  count := s.countOf
  name := s.nameOf
  hash := s.hashOf
  table := s.childHashOf

/-- The links are consistent. -/
structure Links (v : View) : Prop where
  link : ∀ p c, c ∈ v.children p ↔ v.parent c = some p
  nodup : ∀ p, (v.children p).Nodup
  names : ∀ p c d, v.parent c = some p → v.parent d = some p → v.name c = v.name d → c = d
  count : ∀ p, v.count p = (v.children p).length
  table : ∀ p table, v.table p = some table → ∀ b,
    (table b).Nodup ∧ ∀ c, c ∈ table b ↔ v.parent c = some p ∧ childHashBucket (v.hash c) = b
  key : ∀ n, v.valid n = true → v.hash n = hashName (v.name n)

namespace View

variable {v : View} {p c n : ℕ}

def link (v : View) (p c : ℕ) : View :=
  { v with
    parent := update v.parent c (some p)
    children := update v.children p (c :: v.children p)
    count := update v.count p (v.count p + 1)
    table := update v.table p ((v.table p).map fun table =>
      update table (childHashBucket (v.hash c))
        (c :: table (childHashBucket (v.hash c)))) }

def unlink (v : View) (p c : ℕ) : View :=
  { v with
    parent := update v.parent c none
    children := update v.children p ((v.children p).erase c)
    count := update v.count p (v.count p - 1)
    table := update v.table p ((v.table p).map fun table =>
      update table (childHashBucket (v.hash c))
        ((table (childHashBucket (v.hash c))).erase c)) }

def rename (v : View) (n : ℕ) (name : Name) : View :=
  { v with
    name := update v.name n name
    hash := update v.hash n (hashName name) }

def withTable (v : View) (p : ℕ) (table : ℕ → List ℕ) : View :=
  { v with table := update v.table p (some table) }

/-- The whole view of one node changes. -/
def set (v : View) (n : ℕ) (node : Option Node) : View where
  valid := update v.valid n node.isSome
  parent := update v.parent n (node.bind Node.parent)
  children := update v.children n ((node.map Node.children).getD [])
  count := update v.count n ((node.map Node.childCount).getD 0)
  name := update v.name n ((node.map Node.name).getD [])
  hash := update v.hash n ((node.map Node.nameHash).getD 0)
  table := update v.table n (node.bind Node.childHash)

end View

/-! ### What the views keep -/

namespace Links

variable {v : View} {p c n : ℕ}

/-- A child without a parent is linked below a directory that has no child of its name. -/
theorem linked (h : Links v) (hc : v.parent c = none)
    (hname : ∀ d, v.parent d = some p → v.name d ≠ v.name c) : Links (v.link p c) := by
  have hparent : ∀ {q d}, update v.parent c (some p) d = some q ↔
      d = c ∧ p = q ∨ v.parent d = some q := by
    intro q d
    by_cases hd : d = c
    · simp [hd, hc]
    · simp [hd]
  refine ⟨fun q d => ?_, fun q => ?_, fun q d e hd he hde => ?_, fun q => ?_,
    fun q table htable b => ?_, h.key⟩
  · refine Iff.trans ?_ hparent.symm
    by_cases hq : q = p
    · simp [View.link, hq, h.link]
    · simp [View.link, hq, h.link, Ne.symm hq]
  · by_cases hq : q = p
    · simp [View.link, hq, h.link, hc, h.nodup]
    · simp [View.link, hq, h.nodup]
  · rcases hparent.mp hd with ⟨rfl, rfl⟩ | hd'
    · rcases hparent.mp he with ⟨rfl, -⟩ | he'
      · rfl
      · exact absurd hde.symm (hname e he')
    · rcases hparent.mp he with ⟨rfl, rfl⟩ | he'
      · exact absurd hde (hname d hd')
      · exact h.names q d e hd' he' hde
  · by_cases hq : q = p
    · simp [View.link, hq, h.count]
    · simp [View.link, hq, h.count]
  · simp only [View.link, hparent] at htable ⊢
    by_cases hq : q = p
    · subst hq
      rw [update_self, Option.map_eq_some_iff] at htable
      obtain ⟨old, hold, rfl⟩ := htable
      obtain ⟨hnodup, hmem⟩ := h.table q old hold b
      by_cases hb : b = childHashBucket (v.hash c)
      · subst hb
        grind
      · simp +contextual [hb, hnodup, hmem, or_and_right, Ne.symm hb]
    · rw [update_of_ne hq] at htable
      simpa [Ne.symm hq] using h.table q table htable b

theorem unlinked (h : Links v) (hc : v.parent c = some p) : Links (v.unlink p c) := by
  have hparent : ∀ {q d}, update v.parent c none d = some q ↔ d ≠ c ∧ v.parent d = some q := by
    intro q d
    by_cases hd : d = c
    · simp [hd]
    · simp [hd]
  have hother : ∀ {q d}, q ≠ p → v.parent d = some q → d ≠ c := by
    rintro q d hq hd rfl
    exact hq (Option.some.inj (hd.symm.trans hc))
  refine ⟨fun q d => ?_, fun q => ?_, fun q d e hd he => ?_, fun q => ?_,
    fun q table htable b => ?_, h.key⟩
  · refine Iff.trans ?_ hparent.symm
    by_cases hq : q = p
    · simp [View.unlink, hq, (h.nodup p).mem_erase_iff, h.link]
    · simpa [View.unlink, hq, h.link] using hother hq
  · by_cases hq : q = p
    · simp [View.unlink, hq, (h.nodup p).erase]
    · simp [View.unlink, hq, h.nodup]
  · exact h.names q d e (hparent.mp hd).2 (hparent.mp he).2
  · by_cases hq : q = p
    · simp [View.unlink, hq, h.count, length_erase_of_mem ((h.link p c).mpr hc)]
    · simp [View.unlink, hq, h.count]
  simp only [View.unlink, hparent] at htable ⊢
  by_cases hq : q = p
  · subst hq
    rw [update_self, Option.map_eq_some_iff] at htable
    obtain ⟨old, hold, rfl⟩ := htable
    obtain ⟨hnodup, hmem⟩ := h.table q old hold b
    by_cases hb : b = childHashBucket (v.hash c)
    · subst hb
      simp [hnodup.erase, hnodup.mem_erase_iff, hmem, and_assoc]
    · simp only [update_of_ne hb, hmem]
      grind
  · rw [update_of_ne hq] at htable
    have := h.table q table htable b
    grind

/-- A node that is nobody's child gets another name. -/
theorem renamed (h : Links v) (hn : v.parent n = none) (name : Name) : Links (v.rename n name) where
  link := h.link
  nodup := h.nodup
  names := by
    intro q d e hd he hde
    have hne : ∀ x, v.parent x = some q → x ≠ n := fun x hx heq => by
      rw [heq, hn] at hx
      cases hx
    dsimp only [View.rename] at hde
    rw [update_of_ne (hne d hd), update_of_ne (hne e he)] at hde
    exact h.names q d e hd he hde
  count := h.count
  table := by
    intro q table htable b
    obtain ⟨hnodup, hmem⟩ := h.table q table htable b
    refine ⟨hnodup, fun d => ?_⟩
    rw [hmem]
    dsimp only [View.rename]
    by_cases hd : d = n
    · rw [hd, hn]
      exact ⟨fun hno => (by cases hno.1), fun hno => (by cases hno.1)⟩
    · rw [update_of_ne hd]
  key := by
    intro d hd
    dsimp only [View.rename]
    by_cases hdn : d = n
    · rw [hdn, update_self, update_self]
    · rw [update_of_ne hdn, update_of_ne hdn]
      exact h.key d hd

/-- A table with each child in its bucket may be installed. -/
theorem withTable (h : Links v) {table : ℕ → List ℕ}
    (ht : ∀ b, (table b).Nodup ∧
      ∀ c, c ∈ table b ↔ v.parent c = some p ∧ childHashBucket (v.hash c) = b) :
    Links (v.withTable p table) where
  link := h.link
  nodup := h.nodup
  names := h.names
  count := h.count
  table := by
    intro q table' htable'
    rcases update_eq_cases htable' with ⟨rfl, heq⟩ | ⟨-, hold⟩
    · obtain rfl := Option.some.inj heq
      exact ht
    · exact h.table q table' hold
  key := h.key

/-- A node without links may come or go. -/
theorem set (h : Links v) (hparent : v.parent n = none) (hchildren : v.children n = [])
    {node : Option Node} (hparent' : node.bind Node.parent = none)
    (hchildren' : (node.map Node.children).getD [] = [])
    (hcount' : (node.map Node.childCount).getD 0 = 0)
    (htable' : node.bind Node.childHash = none)
    (hkey' : ∀ m, node = some m → m.nameHash = hashName m.name) : Links (v.set n node) := by
  have hpar : (v.set n node).parent = v.parent := by
    dsimp only [View.set]
    rw [hparent', ← hparent, update_eq_self]
  have hchild : (v.set n node).children = v.children := by
    dsimp only [View.set]
    rw [hchildren', ← hchildren, update_eq_self]
  have hne : ∀ {q d}, v.parent d = some q → d ≠ n := fun {q d} hd heq => by
    rw [heq, hparent] at hd
    cases hd
  refine ⟨?_, ?_, ?_, ?_, ?_, ?_⟩
  · rw [hpar, hchild]
    exact h.link
  · rw [hchild]
    exact h.nodup
  · rw [hpar]
    intro q c d hc hd hcd
    dsimp only [View.set] at hcd
    rw [update_of_ne (hne hc), update_of_ne (hne hd)] at hcd
    exact h.names q c d hc hd hcd
  · intro q
    rw [hchild]
    dsimp only [View.set]
    refine update_elim ?_ (fun q _ => h.count q) q
    rw [hcount', hchildren]
    rfl
  · intro q table htable b
    rw [hpar]
    obtain ⟨-, htable⟩ :=
      (update_eq_cases htable).resolve_left fun h => nomatch htable'.symm.trans h.2
    obtain ⟨hnodup, hmem⟩ := h.table q table htable b
    refine ⟨hnodup, fun c => ?_⟩
    rw [hmem]
    refine and_congr_right fun hc => ?_
    dsimp only [View.set]
    rw [update_of_ne (hne hc)]
  · intro m hm
    dsimp only [View.set] at hm ⊢
    by_cases hmn : m = n
    · rw [hmn, update_self] at hm
      obtain ⟨x, hx⟩ := Option.isSome_iff_exists.mp hm
      rw [hmn, update_self, update_self, hx]
      exact hkey' x hx
    · rw [update_of_ne hmn] at hm
      rw [update_of_ne hmn, update_of_ne hmn]
      exact h.key m hm

end Links

section Views

variable {s s' t : State} {p c n m q r d cwd parent : ℕ} {x y : Node} {f : Node → Node}
  {name path : Name}

theorem nodes_free_self (s : State) (n : ℕ) : (s.free n).nodes n = none := by
  dsimp only [State.free]
  rw [update_self]

theorem nodes_free_ne (h : m ≠ n) : (s.free n).nodes m = s.nodes m := by
  dsimp only [State.free]
  rw [update_of_ne h]

theorem nodes_add_self (s : State) (node : Node) : (s.add node).2.nodes s.next = some node := by
  dsimp only [State.add]
  rw [update_self]

theorem nodes_add_ne (h : m ≠ s.next) (node : Node) : (s.add node).2.nodes m = s.nodes m := by
  dsimp only [State.add]
  rw [update_of_ne h]

theorem view_of_update {node : Option Node} (h : s'.nodes = update s.nodes n node) :
    s'.view = s.view.set n node := by
  have hget : ∀ {β : Type} (g : Option Node → β), (fun m => g (s'.nodes m)) =
      update (fun m => g (s.nodes m)) n (g node) := by
    intro β g
    rw [h]
    exact funext (apply_update (fun _ => g) s.nodes n node)
  exact View.ext (hget Option.isSome) (hget (·.bind Node.parent))
    (hget fun o => (o.map Node.children).getD []) (hget fun o => (o.map Node.childCount).getD 0)
    (hget fun o => (o.map Node.name).getD []) (hget fun o => (o.map Node.nameHash).getD 0)
    (hget (·.bind Node.childHash))

theorem view_modify (s : State) (n : ℕ) (f : Node → Node) :
    (s.modify n f).view = s.view.set n ((s.nodes n).map f) := view_of_update rfl

theorem view_free (s : State) (n : ℕ) : (s.free n).view = s.view.set n none := view_of_update rfl

theorem set_self (hn : s.nodes n = some x) : s.view.set n (some x) = s.view := by
  refine (view_of_update ?_).symm
  rw [← hn, update_eq_self]

/-- A field the links do not depend on may change. -/
theorem view_modify_same (s : State) (n : ℕ)
    (h : ∀ x : Node, ∀ v : View, v.set n (some (f x)) = v.set n (some x)) :
    (s.modify n f).view = s.view := by
  rw [view_modify]
  cases hn : s.nodes n with
  | none =>
    have hfree : s.nodes = update s.nodes n none := by
      rw [← hn, update_eq_self]
    exact (view_of_update hfree).symm
  | some x => rw [Option.map_some, h, set_self hn]

theorem view_withUnlinked (s : State) (n : ℕ) : (s.modify n Node.withUnlinked).view = s.view :=
  view_modify_same s n fun _ _ => rfl

theorem view_withRefCount (s : State) (n k : ℕ) :
    (s.modify n (·.withRefCount k)).view = s.view :=
  view_modify_same s n fun _ _ => rfl

theorem view_storeNegative (s : State) (n : ℕ) (entry : NegEntry) :
    (s.modify n (·.storeNegative entry)).view = s.view :=
  view_modify_same s n fun _ _ => rfl

variable (hn : s.validNode n = true)

include hn

theorem exists_view_modify (f : Node → Node) :
    ∃ (v : View) (x : Node), s.view = v.set n (some x) ∧
      (s.modify n f).view = v.set n (some (f x)) := by
  obtain ⟨x, hx⟩ := Option.isSome_iff_exists.mp hn
  exact ⟨s.view, x, (set_self hx).symm, by rw [view_modify, hx, Option.map_some]⟩

theorem view_withParent (q : Option ℕ) :
    (s.modify n (·.withParent q)).view = { s.view with parent := update s.view.parent n q } := by
  obtain ⟨v, x, hs, hm⟩ := exists_view_modify hn (·.withParent q)
  rw [hm, hs]
  simp only [View.set, update_idem]
  rfl

theorem view_withChildHash (table : Option (ℕ → List ℕ)) :
    (s.modify n (·.withChildHash table)).view =
      { s.view with table := update s.view.table n table } := by
  obtain ⟨v, x, hs, hm⟩ := exists_view_modify hn (·.withChildHash table)
  rw [hm, hs]
  simp only [View.set, update_idem]
  rfl

theorem view_withName (name : Name) :
    (s.modify n (·.withName name)).view = s.view.rename n name := by
  obtain ⟨v, x, hs, hm⟩ := exists_view_modify hn (·.withName name)
  rw [hm, hs]
  simp only [View.set, View.rename, update_idem]
  rfl

theorem view_pushChild (c : ℕ) :
    (s.modify n (·.pushChild c)).view =
      { s.view with
        children := update s.view.children n (c :: s.view.children n)
        count := update s.view.count n (s.view.count n + 1) } := by
  obtain ⟨v, x, hs, hm⟩ := exists_view_modify hn (·.pushChild c)
  rw [hm, hs]
  simp only [View.set, update_idem, update_self]
  rfl

theorem view_eraseChild (c : ℕ) :
    (s.modify n (·.eraseChild c)).view =
      { s.view with
        children := update s.view.children n ((s.view.children n).erase c)
        count := update s.view.count n (s.view.count n - 1) } := by
  obtain ⟨v, x, hs, hm⟩ := exists_view_modify hn (·.eraseChild c)
  rw [hm, hs]
  simp only [View.set, update_idem, update_self]
  rfl

omit hn

@[simp] theorem validNode_modify (s : State) (n m : ℕ) (f : Node → Node) :
    (s.modify n f).validNode m = s.validNode m := by
  exact apply_update_of_eq Option.isSome Option.isSome_map m

variable (hp : s.validNode p = true)

include hp

/-- The table of a directory changes, if it has one. -/
theorem view_mapTable (f : (ℕ → List ℕ) → ℕ → List ℕ) :
    ((s.childHashOf p).elim s fun table => s.modify p (·.withChildHash (some (f table)))).view =
      { s.view with table := update s.view.table p ((s.view.table p).map f) } := by
  cases ht : s.childHashOf p with
  | none =>
    have htable : s.view.table p = none := ht
    rw [Option.elim_none, htable, Option.map_none, ← htable, update_eq_self]
  | some table =>
    have htable : s.view.table p = some table := ht
    rw [Option.elim_some, view_withChildHash hp, htable, Option.map_some]

theorem view_childHashInsert (c : ℕ) :
    (childHashInsert s p c).view =
      { s.view with table := update s.view.table p ((s.view.table p).map fun table =>
          update table (childHashBucket (s.view.hash c))
            (c :: table (childHashBucket (s.view.hash c)))) } := by
  rw [← view_mapTable hp]
  unfold childHashInsert
  cases s.childHashOf p <;> rfl

theorem view_childHashRemove (c : ℕ) :
    (childHashRemove s p c).view =
      { s.view with table := update s.view.table p ((s.view.table p).map fun table =>
          update table (childHashBucket (s.view.hash c))
            ((table (childHashBucket (s.view.hash c))).erase c)) } := by
  rw [← view_mapTable hp]
  unfold childHashRemove
  cases s.childHashOf p <;> rfl

theorem view_linkChild (hc : s.validNode c = true) : (linkChild s p c).view = s.view.link p c := by
  unfold linkChild
  rw [view_childHashInsert (by simpa using hp), view_pushChild (by simpa using hp),
    view_withParent hc]
  rfl

theorem view_unlinkChild (hc : s.validNode c = true) :
    (unlinkChild s p c).view = s.view.unlink p c := by
  have hremove := view_childHashRemove hp c
  have hvalid : ∀ m, (childHashRemove s p c).validNode m = s.validNode m :=
    fun m => congrFun (congrArg View.valid hremove) m
  unfold unlinkChild
  rw [view_eraseChild (by rw [validNode_modify, hvalid, hp]),
    view_withParent (by rw [hvalid, hc]), hremove]
  rfl

omit hp

theorem links_root (k : ℕ) (cb : Callbacks) (next root : ℕ) :
    Links (State.mk (fun n => if n = 0 then some (.fresh [47] .directory k cb) else none) next
      root).view := by
  have hempty : Links (State.mk (fun _ => none) next root).view :=
    ⟨fun p c => ⟨fun hc => (by cases hc), fun hc => (by cases hc)⟩, fun p => nodup_nil,
      fun p c d hc => (by cases hc), fun p => rfl, fun p table ht => (by cases ht),
      fun n hn => (by cases hn)⟩
  have hnodes : (fun n => if n = 0 then some (Node.fresh [47] .directory k cb) else none) =
      update (State.mk (fun _ => none) next root).nodes 0 (some (.fresh [47] .directory k cb)) := by
    funext n
    rw [update_apply]
  rw [view_of_update hnodes]
  refine hempty.set rfl rfl rfl rfl rfl rfl fun m hm => ?_
  obtain rfl := Option.some.inj hm
  rfl

/-! ### Searching -/

theorem childrenOf_eq_nil_of_invalid (hn : s.nodes n = none) : s.childrenOf n = [] := by
  unfold State.childrenOf
  rw [hn]
  rfl

theorem parentOf_eq_none_of_invalid (hn : s.nodes n = none) : s.parentOf n = none := by
  unfold State.parentOf
  rw [hn]
  rfl

theorem validNode_of_parentOf (h : s.parentOf n = some q) : s.validNode n = true :=
  Option.isSome_iff_ne_none.mpr fun hn => nomatch h.symm.trans (parentOf_eq_none_of_invalid hn)

theorem ne_of_parentOf (hr : s.parentOf r = none) (h : s.parentOf n = some q) : n ≠ r := by
  rintro rfl
  cases hr.symm.trans h

/-- What has a parent after `c` has lost its own had it before. -/
theorem update_none_eq_some {parent : ℕ → Option ℕ}
    (h : update parent c none d = some q) : d ≠ c ∧ parent d = some q := by
  exact (update_eq_cases h).resolve_left nofun

theorem validNode_of_mem_childrenOf (h : c ∈ s.childrenOf p) : s.validNode p = true :=
  Option.isSome_iff_ne_none.mpr fun hn =>
    ne_nil_of_mem h (childrenOf_eq_nil_of_invalid hn)

theorem childrenOf_eq_nil (h : Links s.view) (hno : ∀ z, s.parentOf z ≠ some n) :
    s.childrenOf n = [] :=
  eq_nil_iff_forall_not_mem.mpr fun z hz => hno z ((h.link n z).mp hz)

theorem Links.unlinkChild (h : Links s.view) (hc : s.parentOf c = some p) :
    Links (unlinkChild s p c).view ∧
      (Vfs.unlinkChild s p c).parentOf = update s.parentOf c none ∧
      (Vfs.unlinkChild s p c).nameOf = s.nameOf := by
  have hview := view_unlinkChild (validNode_of_mem_childrenOf ((h.link p c).mpr hc))
    (validNode_of_parentOf hc)
  exact ⟨hview ▸ h.unlinked hc, congrArg View.parent hview, congrArg View.name hview⟩

theorem Links.add (h : Links s.view) (hn : s.nodes s.next = none) (name : Name) (type : VfsType)
    (k : ℕ) (cb : Callbacks) : Links (s.add (.fresh name type k cb)).2.view ∧
      (s.add (.fresh name type k cb)).2.parentOf = s.parentOf := by
  have hnone := parentOf_eq_none_of_invalid hn
  have hview : (s.add (.fresh name type k cb)).2.view = _ := view_of_update rfl
  constructor
  · rw [hview]
    refine h.set hnone (childrenOf_eq_nil_of_invalid hn) rfl rfl rfl rfl fun m hm => ?_
    obtain rfl := Option.some.inj hm
    rfl
  · refine (congrArg View.parent hview).trans ?_
    exact (congrArg (update s.parentOf s.next) hnone.symm).trans (update_eq_self _ _)

theorem parentOf_free (hn : s.parentOf n = none) : (s.free n).parentOf = s.parentOf :=
  (congrArg View.parent (view_free s n)).trans
    ((congrArg (update s.parentOf n) hn.symm).trans (update_eq_self _ _))

theorem fresh_free (h : ∀ m, s.next ≤ m → s.nodes m = none) (n m : ℕ) (hm : s.next ≤ m) :
    (s.free n).nodes m = none := by
  by_cases hmn : m = n
  · rw [hmn, nodes_free_self]
  · rw [nodes_free_ne hmn]
    exact h m hm

variable (h : Links s.view)

include h

theorem nameMatches_iff : nameMatches s n name (hashName name) ↔
    s.validNode n = true ∧ s.nameOf n = name := by
  unfold nameMatches
  rw [Bool.and_eq_true, Bool.and_eq_true, beq_iff_eq, beq_iff_eq]
  constructor
  · exact fun hm => hm.1
  · rintro ⟨hv, rfl⟩
    exact ⟨⟨hv, rfl⟩, h.key n hv⟩

theorem childHashFind_eq_some (hfind : childHashFind s p name (hashName name) = some c) :
    s.parentOf c = some p ∧ s.nameOf c = name := by
  obtain ⟨table, htable, hfind⟩ := Option.bind_eq_some_iff.mp hfind
  have hmem := mem_of_find?_eq_some hfind
  have hmatch := find?_some hfind
  exact ⟨(((h.table p table htable _).2 c).mp hmem).1, ((nameMatches_iff h).mp hmatch).2⟩

theorem findCachedChild_eq_some (hfind : findCachedChild s p name = some c) :
    s.parentOf c = some p ∧ s.nameOf c = name := by
  rcases Option.or_eq_some_iff.mp hfind with hhash | ⟨-, hlist⟩
  · exact childHashFind_eq_some h hhash
  · have hmem := mem_of_find?_eq_some hlist
    have hmatch := find?_some hlist
    exact ⟨(h.link p c).mp hmem, ((nameMatches_iff h).mp hmatch).2⟩

theorem findCachedChild_eq_none (hfind : findCachedChild s p name = none) (d : ℕ)
    (hd : s.parentOf d = some p) : s.nameOf d ≠ name := by
  unfold findCachedChild at hfind
  rw [Option.or_eq_none_iff] at hfind
  intro hname
  refine find?_eq_none.mp hfind.2 d ((h.link p d).mpr hd) ?_
  exact (nameMatches_iff h).mpr ⟨validNode_of_parentOf hd, hname⟩

theorem findCachedChild_of_child (hc : s.parentOf c = some p) :
    findCachedChild s p (s.nameOf c) = some c := by
  cases hfind : findCachedChild s p (s.nameOf c) with
  | none => exact absurd rfl (findCachedChild_eq_none h hfind c hc)
  | some d =>
    obtain ⟨hd, hname⟩ := findCachedChild_eq_some h hfind
    exact congrArg some (h.names p d c hd hc hname)

/-- Detaching by name unlinks the child that the search finds. -/
theorem detachCachedChild_eq (name : Name) : detachCachedChild s p name =
    match findCachedChild s p name with
    | none => (none, s)
    | some n => (some n, unlinkChild s p n) := by
  unfold detachCachedChild
  dsimp only
  have hsame : ((s.childrenOf p).find? fun n =>
      childHashFind s p name (hashName name) == some n ||
        ((childHashFind s p name (hashName name)).isNone && nameMatches s n name (hashName name))) =
      findCachedChild s p name := by
    unfold findCachedChild
    rcases hhash : childHashFind s p name (hashName name) with _ | t
    · congr 1
    -- the child that the table finds is on the list
    have hmem : t ∈ s.childrenOf p := (h.link p t).mpr (childHashFind_eq_some h hhash).1
    cases hfind : (s.childrenOf p).find? fun n => some t == some n || ((some t).isNone &&
        nameMatches s n name (hashName name)) with
    | none =>
      refine absurd ?_ (find?_eq_none.mp hfind t hmem)
      simp
    | some u =>
      have hu := find?_some hfind
      rw [Option.isNone_some, Bool.false_and, Bool.or_false, beq_iff_eq] at hu
      exact hu.symm
  cases hfind : findCachedChild s p name <;> rw [hfind] at hsame <;> rw [hsame]

omit h

/-! ### Attaching -/

theorem foldl_insertBucket (s : State) (l : List ℕ) (hl : l.Nodup) {table : ℕ → List ℕ}
    {held : ℕ → Prop} (ht : Buckets.Indexed table (fun c => childHashBucket (s.hashOf c)) held)
    (hfree : ∀ c ∈ l, ¬held c) :
    Buckets.Indexed (l.foldl (insertBucket s) table) (fun c => childHashBucket (s.hashOf c))
      fun c => held c ∨ c ∈ l := by
  induction l generalizing table held with
  | nil => exact ht.congr (fun c => by simp) fun _ => rfl
  | cons a l ih =>
    rw [nodup_cons] at hl
    have hnext := ht.insert (hfree a mem_cons_self) (fun _ => .rfl) fun _ => rfl
    refine (ih hl.2 hnext fun c hc => ?_).congr (fun c => ?_) fun _ => rfl
    · rintro (rfl | hc')
      · exact hl.1 hc
      · exact hfree c (mem_cons_of_mem _ hc) hc'
    · rw [mem_cons, ← or_assoc, or_comm (a := held c)]

/-- Two views that differ in their tables at most. -/
def SameTree (v v' : View) : Prop := ∃ tables, v' = { v with table := tables }

theorem SameTree.refl (v : View) : SameTree v v := ⟨v.table, rfl⟩

theorem childHashBuild_spec (h : Links s.view) (hp : s.validNode p = true) :
    Links (childHashBuild s p).view ∧ SameTree s.view (childHashBuild s p).view := by
  unfold childHashBuild
  rw [view_withChildHash hp]
  refine ⟨h.withTable fun b => ?_, _, rfl⟩
  have hempty : Buckets.Indexed (fun _ => []) (fun c => childHashBucket (s.hashOf c))
      fun _ => False := ⟨by simp, fun _ => nodup_nil⟩
  have hall := foldl_insertBucket s (s.childrenOf p) (h.nodup p) hempty fun _ _ => id
  refine ⟨hall.nodup b, fun c => ?_⟩
  rw [hall.mem, false_or]
  exact and_congr_left' (h.link p c)

/-- The search before a child is linked finds a child of its name, if there is one. -/
theorem sameChild_eq_none_iff (h : Links s.view) (hc : s.parentOf c = none)
    (hv : s.validNode c = true) :
    sameChild s p c = none ↔ ∀ d, s.parentOf d = some p → s.nameOf d ≠ s.nameOf c := by
  have hkey : s.hashOf c = hashName (s.nameOf c) := h.key c hv
  unfold sameChild
  rw [hkey, Option.or_eq_none_iff]
  constructor
  · rintro ⟨-, hlist⟩ d hd hname
    refine find?_eq_none.mp hlist d ((h.link p d).mpr hd) ?_
    rw [Bool.or_eq_true]
    exact .inr ((nameMatches_iff h).mpr ⟨validNode_of_parentOf hd, hname⟩)
  intro hno
  constructor
  · cases hhash : childHashFind s p (s.nameOf c) (hashName (s.nameOf c)) with
    | none => rfl
    | some d =>
      obtain ⟨hd, hname⟩ := childHashFind_eq_some h hhash
      exact absurd hname (hno d hd)
  · refine find?_eq_none.mpr fun d hd hmatch => ?_
    have hd' : s.parentOf d = some p := (h.link p d).mp hd
    rw [Bool.or_eq_true, beq_iff_eq] at hmatch
    rcases hmatch with rfl | hmatch
    · rw [hc] at hd'
      cases hd'
    · exact hno d hd' ((nameMatches_iff h).mp hmatch).2

theorem sameChild_parentOf (h : Links s.view) (hv : s.validNode c = true)
    (hfind : sameChild s p c = some d) : s.parentOf d = some p := by
  unfold sameChild at hfind
  have hkey : s.hashOf c = hashName (s.nameOf c) := h.key c hv
  rw [hkey] at hfind
  rcases Option.or_eq_some_iff.mp hfind with hhash | ⟨-, hlist⟩
  · exact (childHashFind_eq_some h hhash).1
  · exact (h.link p d).mp (mem_of_find?_eq_some hlist)

theorem hashName_ne_zero (name : Name) : hashName name ≠ 0 := by
  unfold hashName
  dsimp only
  split_ifs with hz
  · decide
  · exact hz

/-- What `attach_child_if_needed` does: nothing if a node is missing or the child has a parent;
otherwise it may build a table, and it links the child unless that has a namesake. -/
theorem attachChildIfNeeded_cases {env : Env} {ok : Bool} (h : Links s.view)
    (hx : attachChildIfNeeded env s p c = (ok, s')) :
    (s' = s ∧ (ok = true → s.parentOf c = some p) ∧
        (ok = false → s.validNode p = true → s.validNode c = true → s.parentOf c ≠ none)) ∨
      (s.validNode p = true ∧ s.validNode c = true ∧ s.parentOf c = none ∧
        ∃ s₁, (s₁ = s ∨ s₁ = childHashBuild s p) ∧ Links s₁.view ∧ SameTree s.view s₁.view ∧
          ((ok = false ∧ s' = s₁ ∧ ∃ d, s.parentOf d = some p ∧ s.nameOf d = s.nameOf c) ∨
            (ok = true ∧ s' = linkChild s₁ p c ∧
              ∀ d, s.parentOf d = some p → s.nameOf d ≠ s.nameOf c))) := by
  unfold attachChildIfNeeded at hx
  by_cases hvalid : (!s.validNode p || !s.validNode c) = true
  · rw [if_pos hvalid] at hx
    obtain ⟨rfl, rfl⟩ := Prod.mk.inj hx
    refine .inl ⟨rfl, nofun, fun _ hp hc => ?_⟩
    rw [hp, hc] at hvalid
    cases hvalid
  rw [if_neg hvalid] at hx
  rw [Bool.or_eq_true, not_or, Bool.not_eq_true', Bool.not_eq_true', Bool.not_eq_false,
    Bool.not_eq_false] at hvalid
  obtain ⟨hp, hc⟩ := hvalid
  by_cases hthere : s.parentOf c = some p
  · rw [if_pos hthere] at hx
    obtain ⟨rfl, rfl⟩ := Prod.mk.inj hx
    exact .inl ⟨rfl, fun _ => hthere, nofun⟩
  rw [if_neg hthere] at hx
  by_cases hother : (s.parentOf c).isSome = true
  · rw [if_pos hother] at hx
    obtain ⟨rfl, rfl⟩ := Prod.mk.inj hx
    refine .inl ⟨rfl, nofun, fun _ _ _ hnone => ?_⟩
    rw [hnone] at hother
    cases hother
  have hnone : s.parentOf c = none := Option.not_isSome_iff_eq_none.mp hother
  have hkey : s.hashOf c ≠ 0 := (h.key c hc).trans_ne (hashName_ne_zero _)
  rw [if_neg hother, if_neg hkey] at hx
  dsimp only at hx
  generalize hs1 : (if ((s.childHashOf p).isNone &&
      decide (vfsChildHashMin ≤ s.countOf p + 1) && env.hashAlloc p c) = true
    then childHashBuild s p else s) = s₁ at hx
  have hbuilt : (s₁ = s ∨ s₁ = childHashBuild s p) ∧ Links s₁.view ∧ SameTree s.view s₁.view := by
    rw [← hs1]
    split_ifs
    · exact ⟨.inr rfl, childHashBuild_spec h hp⟩
    · exact ⟨.inl rfl, h, .refl _⟩
  obtain ⟨hwhich, hlinks, hsame⟩ := hbuilt
  obtain ⟨tables, htree⟩ := hsame
  have hparent : s₁.parentOf = s.parentOf := congrArg View.parent htree
  have hname : s₁.nameOf = s.nameOf := congrArg View.name htree
  have hc1 : s₁.validNode c = true := (congrFun (congrArg View.valid htree) c).trans hc
  have hnone1 : s₁.parentOf c = none := by rw [hparent, hnone]
  have hfind := sameChild_eq_none_iff (p := p) hlinks hnone1 hc1
  rw [hparent, hname] at hfind
  refine .inr ⟨hp, hc, hnone, s₁, hwhich, hlinks, ⟨tables, htree⟩, ?_⟩
  cases hsearch : sameChild s₁ p c with
  | some same =>
    rw [hsearch] at hx hfind
    obtain ⟨rfl, rfl⟩ := Prod.mk.inj hx
    -- the one found is not the child, which is on no list
    refine .inl ⟨?_, rfl, ?_⟩
    · rw [beq_eq_false_iff_ne]
      rintro rfl
      have hmem := sameChild_parentOf hlinks hc1 hsearch
      rw [hnone1] at hmem
      cases hmem
    · by_contra hno
      cases hfind.mpr fun d hd hn => hno ⟨d, hd, hn⟩
  | none =>
    rw [hsearch] at hx
    obtain ⟨rfl, rfl⟩ := Prod.mk.inj hx
    exact .inr ⟨rfl, rfl, hfind.mp hsearch⟩

/-- Attaching keeps the links and names, and the child may come below the parent. -/
theorem attachChildIfNeeded_spec {env : Env} {ok : Bool} (h : Links s.view)
    (hx : attachChildIfNeeded env s p c = (ok, s')) :
    Links s'.view ∧ s'.nameOf = s.nameOf ∧ (s'.parentOf = s.parentOf ∨
      s.parentOf c = none ∧ s'.parentOf = update s.parentOf c (some p)) := by
  rcases attachChildIfNeeded_cases h hx with ⟨rfl, -, -⟩ |
    ⟨hp, hc, hnone, s₁, -, hlinks, ⟨tables, htree⟩, hcase⟩
  · exact ⟨h, rfl, .inl rfl⟩
  have hval : s₁.validNode = s.validNode := congrArg View.valid htree
  have hparent : s₁.parentOf = s.parentOf := congrArg View.parent htree
  have hname : s₁.nameOf = s.nameOf := congrArg View.name htree
  rcases hcase with ⟨-, rfl, -⟩ | ⟨-, rfl, hno⟩
  · exact ⟨hlinks, hname, .inl hparent⟩
  have hview : (linkChild s₁ p c).view = s₁.view.link p c :=
    view_linkChild (by rw [hval, hp]) (by rw [hval, hc])
  refine ⟨?_, (congrArg View.name hview).trans hname, .inr ⟨hnone, ?_⟩⟩
  · rw [hview]
    refine hlinks.linked ((congrFun hparent c).trans hnone) fun d hd => ?_
    have hne := hno d ((congrFun hparent d).symm.trans hd)
    rw [← hname] at hne
    exact hne
  · rw [← hparent]
    exact congrArg View.parent hview

/-- A child that could not be attached, and all others, are where they were. -/
theorem attachChildIfNeeded_false {env : Env} (h : Links s.view)
    (hx : attachChildIfNeeded env s p c = (false, s')) :
    s'.parentOf = s.parentOf ∧ s'.childrenOf = s.childrenOf := by
  rcases attachChildIfNeeded_cases h hx with ⟨rfl, -, -⟩ |
    ⟨-, -, -, s₁, -, -, ⟨tables, htree⟩, ⟨-, rfl, -⟩ | ⟨hok, -, -⟩⟩
  · exact ⟨rfl, rfl⟩
  · exact ⟨congrArg View.parent htree, congrArg View.children htree⟩
  · cases hok

/-! ### What linking leaves alone -/

/-- A property of a node that has nothing to do with its links and their number. -/
structure LinkFree {β : Type} (g : Node → β) : Prop where
  withHash : ∀ x hash, g (x.withHash hash) = g x
  withParent : ∀ x q, g (x.withParent q) = g x
  withChildHash : ∀ x table, g (x.withChildHash table) = g x
  pushChild : ∀ x c, g (x.pushChild c) = g x
  eraseChild : ∀ x c, g (x.eraseChild c) = g x

/-- Nodes, their number and the root stay, up to links. -/
structure Frame {β : Type} (g : Node → β) (s s' : State) : Prop where
  nodes : ∀ m, (s'.nodes m).map g = (s.nodes m).map g
  next : s'.next = s.next
  root : s'.root = s.root

section Frames

variable {β : Type} {g : Node → β} {s₁ s₂ s₃ : State}

theorem Frame.refl (g : Node → β) (s : State) : Frame g s s := ⟨fun _ => rfl, rfl, rfl⟩

theorem Frame.trans (h : Frame g s₁ s₂) (h' : Frame g s₂ s₃) : Frame g s₁ s₃ :=
  ⟨fun m => (h'.nodes m).trans (h.nodes m), h'.next.trans h.next, h'.root.trans h.root⟩

theorem frame_modify (s : State) (n : ℕ) (hf : ∀ x, g (f x) = g x) : Frame g s (s.modify n f) where
  nodes := by
    refine apply_update_of_eq (Option.map g) ?_
    rw [Option.map_map, show g ∘ f = g from funext hf]
  next := rfl
  root := rfl

theorem Frame.exists_node (h : Frame g s₁ s₂) (hy : s₂.nodes n = some y) :
    ∃ x, s₁.nodes n = some x ∧ g x = g y := by
  have hn := h.nodes n
  rw [hy, Option.map_some, eq_comm, Option.map_eq_some_iff] at hn
  exact hn

theorem Frame.validNode (h : Frame g s₁ s₂) (n : ℕ) : s₂.validNode n = s₁.validNode n := by
  unfold State.validNode
  rw [← Option.isSome_map (f := g), h.nodes n, Option.isSome_map]

theorem Frame.fresh (hf : Frame g s₁ s₂) (h : ∀ n, s₁.next ≤ n → s₁.nodes n = none) (n : ℕ)
    (hn : s₂.next ≤ n) : s₂.nodes n = none := by
  have hmap := hf.nodes n
  rw [h n (hf.next ▸ hn), Option.map_none, Option.map_eq_none_iff] at hmap
  exact hmap

theorem frame_linkChild (hg : LinkFree g) (s : State) (p c : ℕ) : Frame g s (linkChild s p c) := by
  unfold linkChild
  refine ((frame_modify s c fun x => hg.withParent x (some p)).trans
    (frame_modify _ p fun x => hg.pushChild x c)).trans ?_
  dsimp only [childHashInsert]
  split
  · exact .refl g _
  · exact frame_modify _ p fun x => hg.withChildHash x _

theorem frame_unlinkChild (hg : LinkFree g) (s : State) (p c : ℕ) :
    Frame g s (unlinkChild s p c) := by
  have hremove : Frame g s (childHashRemove s p c) := by
    unfold childHashRemove
    split
    · exact .refl g _
    · exact frame_modify _ p fun x => hg.withChildHash x _
  exact (hremove.trans (frame_modify _ c fun x => hg.withParent x _)).trans
    (frame_modify _ p fun x => hg.eraseChild x c)

theorem frame_attachChildIfNeeded {env : Env} {ok : Bool} (hg : LinkFree g)
    (h : Links s.view) (hx : attachChildIfNeeded env s p c = (ok, s')) : Frame g s s' := by
  rcases attachChildIfNeeded_cases h hx with ⟨rfl, -, -⟩ | ⟨-, -, -, s₁, hs1, -, -, hcase⟩
  · exact .refl g _
  have hframe : Frame g s s₁ := by
    rcases hs1 with rfl | rfl
    · exact .refl g _
    · exact frame_modify s p fun x => hg.withChildHash x _
  rcases hcase with ⟨-, rfl, -⟩ | ⟨-, rfl, -⟩
  · exact hframe
  · exact hframe.trans (frame_linkChild hg s₁ p c)

end Frames

/-! ### Looking a name up -/

/-- The ways a lookup can end. -/
inductive Lookup (env : Env) (s : State) (p : ℕ) (name : Name) : Option ℕ → State → Prop
  | invalid (h : s.validNode p = false ∨ name = []) : Lookup env s p name none s
  | cached {c : ℕ} (hp : s.validNode p = true) (hname : name ≠ [])
      (h : findCachedChild s p name = some c) : Lookup env s p name (some c) s
  | negative (hp : s.validNode p = true) (hname : name ≠ []) (h : findCachedChild s p name = none)
      (hneg : negCacheHit s p name (hashName name) = true) : Lookup env s p name none s
  | memory (hp : s.validNode p = true) (hname : name ≠ []) (h : findCachedChild s p name = none)
      (hdriver : hasDriverLookup s p = false) : Lookup env s p name none s
  | long (hp : s.validNode p = true) (h : findCachedChild s p name = none)
      (hlong : vfsStackComponent ≤ name.length) : Lookup env s p name none s
  | absent (hp : s.validNode p = true) (hname : name ≠ []) (h : findCachedChild s p name = none)
      (hdriver : hasDriverLookup s p = true) (hlen : name.length < vfsStackComponent)
      (hfind : env.finddir p name = none) :
      Lookup env s p name none (negCacheStore env s p name (hashName name))
  | found {info : FsNode} (hp : s.validNode p = true) (hname : name ≠ [])
      (h : findCachedChild s p name = none) (hdriver : hasDriverLookup s p = true)
      (hlen : name.length < vfsStackComponent) (hfind : env.finddir p name = some info) :
      Lookup env s p name (some s.next)
        (attachChildIfNeeded env (createFsNode s info).2 p s.next).2

theorem lookup_finddir (env : Env) (s : State) (p : ℕ) (name : Name) :
    Lookup env s p name (finddir env s p name).1 (finddir env s p name).2 := by
  unfold finddir
  by_cases hvalid : (!s.validNode p || name.isEmpty) = true
  · rw [if_pos hvalid]
    refine .invalid ?_
    rw [Bool.or_eq_true, Bool.not_eq_true', List.isEmpty_iff] at hvalid
    exact hvalid
  rw [if_neg hvalid]
  rw [Bool.or_eq_true, not_or, Bool.not_eq_true', Bool.not_eq_false, List.isEmpty_iff] at hvalid
  obtain ⟨hp, hname⟩ := hvalid
  rcases hcached : findCachedChild s p name with _ | c
  swap
  · exact .cached hp hname hcached
  by_cases hstop : (negCacheHit s p name (hashName name) || !hasDriverLookup s p) = true
  · rw [if_pos hstop]
    rw [Bool.or_eq_true, Bool.not_eq_true'] at hstop
    rcases hstop with hneg | hdriver
    · exact .negative hp hname hcached hneg
    · exact .memory hp hname hcached hdriver
  rw [if_neg hstop]
  rw [Bool.or_eq_true, not_or, Bool.not_eq_true', Bool.not_eq_false] at hstop
  by_cases hlong : vfsStackComponent ≤ name.length
  · rw [if_pos hlong]
    exact .long hp hcached hlong
  rw [if_neg hlong]
  cases hfind : env.finddir p name with
  | none => exact .absent hp hname hcached hstop.2 (Nat.lt_of_not_le hlong) hfind
  | some info => exact .found hp hname hcached hstop.2 (Nat.lt_of_not_le hlong) hfind

/-- A negative entry is stored in the directory, or nothing changes. -/
theorem negCacheStore_cases (env : Env) (s : State) (p : ℕ) (name : Name) (hash : UInt64) :
    negCacheStore env s p name hash = s ∨ ∃ x, s.nodes p = some x ∧
      negCacheStore env s p name hash = s.modify p (·.storeNegative ⟨hash, x.childSeq, name⟩) := by
  unfold negCacheStore
  by_cases hlen : name.length = 0 ∨ vfsNegCacheName < name.length
  · exact .inl (if_pos hlen)
  rw [if_neg hlen]
  cases s.nodes p with
  | none => exact .inl rfl
  | some x =>
    dsimp only
    split_ifs
    · exact .inl rfl
    · exact .inr ⟨x, rfl, rfl⟩

theorem view_negCacheStore (env : Env) (s : State) (p : ℕ) (name : Name) (hash : UInt64) :
    (negCacheStore env s p name hash).view = s.view := by
  obtain heq | ⟨x, -, heq⟩ := negCacheStore_cases env s p name hash <;> rw [heq]
  exact view_storeNegative s p _

theorem frame_negCacheStore {β : Type} {g : Node → β}
    (hg : ∀ x entry, g (x.storeNegative entry) = g x) (env : Env) (s : State) (p : ℕ)
    (name : Name) (hash : UInt64) : Frame g s (negCacheStore env s p name hash) := by
  obtain heq | ⟨x, -, heq⟩ := negCacheStore_cases env s p name hash <;> rw [heq]
  · exact .refl g s
  · exact frame_modify s p fun y => hg y _

section Paths

variable {env : Env}

theorem length_components_le (path : Name) :
    ((path.splitOn 47).filter (!·.isEmpty)).length ≤ path.length := by
  unfold List.splitOn
  induction path with
  | nil =>
    exact Nat.le_refl _
  | cons b path ih =>
    rw [splitOnP_cons_eq_if_modifyHead, length_cons]
    split_ifs
    · exact Nat.le_succ_of_le ih
    cases hsplit : path.splitOnP (· == 47) with
    | nil => exact Nat.zero_le _
    | cons component rest =>
      -- the byte may turn the empty first component into one that counts
      rw [hsplit] at ih
      cases component with
      | nil => exact Nat.succ_le_succ ih
      | cons => exact Nat.le_succ_of_le ih

section Counted

variable {I : ℕ → State → Prop} {k i j : ℕ}

variable (hdrop : ∀ k s, I (k + 1) s → I k s)

include hdrop

theorem counted_less (hij : i ≤ j) (h : I j s) : I i s := by
  induction j, hij using Nat.le_induction with
  | base => exact h
  | succ j _ ih => exact ih (hdrop _ _ h)

/-- A family of properties of which each lookup uses up one, along a path. -/
theorem traverseComponents_counted
    (hI : ∀ k s p name, I (k + 1) s → I k (finddir env s p name).2) {path : List Name}
    (hs : I (k + path.length) s) (curr : ℕ) : I k (traverseComponents env s curr path).2 := by
  have hless : ∀ j t, I (k + j) t → I k t := fun j t => counted_less hdrop (Nat.le_add_right k j)
  induction path generalizing s curr with
  | nil => exact hs
  | cons component rest ih =>
    rw [traverseComponents]
    split_ifs
    · exact hless _ _ hs
    · exact ih (hdrop _ _ hs) curr
    · exact ih (hdrop _ _ hs) _
    have hfind := hI _ s curr component hs
    generalize finddir env s curr component = r at hfind
    obtain ⟨o, t⟩ := r
    cases o with
    | none => exact hless _ _ hfind
    | some m => exact ih hfind m

theorem openAt_counted (hI : ∀ k s p name, I (k + 1) s → I k (finddir env s p name).2)
    (hs : I (k + path.length) s) (cwd : Option ℕ) : I k (openAt env s cwd path).2 := by
  have hless : ∀ {i j}, i ≤ j → I j s → I i s := fun hij => counted_less hdrop hij
  have hrel : ∀ start path', path'.length ≤ path.length →
      I k (traverseRelative env s start path').2 := by
    intro start path' hlen
    have hle := (length_components_le path').trans hlen
    unfold traverseRelative
    split_ifs
    · exact hless (Nat.le_add_right _ _) hs
    · exact traverseComponents_counted hdrop hI (hless (Nat.add_le_add_left hle k) hs) start
  unfold openAt
  split_ifs
  · exact hless (Nat.le_add_right _ _) hs
  · exact hless (Nat.le_add_right _ _) hs
  · exact hrel _ _ (by rw [length_tail]; exact Nat.sub_le _ _)
  · exact hrel _ _ le_rfl

omit hdrop

theorem length_trimTrailingSlashes_le (path : Name) :
    (trimTrailingSlashes path).length ≤ path.length := by
  unfold trimTrailingSlashes
  dsimp only
  split_ifs
  · exact length_take_le' _ _
  · rw [length_reverse]
    exact (dropWhile_sublist _).length_le.trans (length_reverse).le

theorem splitParentAt_counted (hdrop : ∀ k s, I (k + 1) s → I k s)
    (hI : ∀ k s p name, I (k + 1) s → I k (finddir env s p name).2)
    (hs : I (k + path.length) s) (cwd : ℕ) : I k (splitParentAt env s cwd path).2 := by
  have hless : ∀ {i j}, i ≤ j → I j s → I i s := fun hij => counted_less hdrop hij
  have hk : I k s := hless (Nat.le_add_right _ _) hs
  have hopen : ∀ dir : Name, dir.length ≤ path.length → I k (openParent env s cwd dir).2 := by
    intro dir hlen
    have htrim := (length_trimTrailingSlashes_le dir).trans hlen
    unfold openParent
    split_ifs
    · exact hk
    · exact hk
    · exact hk
    · exact openAt_counted hdrop hI (hless (Nat.add_le_add_left htrim k) hs) _
  unfold splitParentAt
  dsimp only
  split_ifs
  · exact hk
  · exact hk
  have hparent := hopen (parentPart (trimTrailingSlashes path))
    ((length_take_le' _ _).trans (length_trimTrailingSlashes_le path))
  generalize openParent env s cwd (parentPart (trimTrailingSlashes path)) = r at hparent
  obtain ⟨o, t⟩ := r
  cases o with
  | none => exact hparent
  | some parent =>
    dsimp only
    split_ifs
    · exact hparent
    · exact hparent

end Counted

variable {I : State → Prop}

theorem splitParentAt_invariant (hI : ∀ s p name, I s → I (finddir env s p name).2) (hs : I s)
    (cwd : ℕ) (path : Name) : I (splitParentAt env s cwd path).2 :=
  splitParentAt_counted (I := fun _ => I) (k := 0) (fun _ _ h => h) (fun _ => hI) hs cwd

/-- The last component of a path, trailing slashes aside. -/
def lastOf (path : Name) : Name := lastComponent (trimTrailingSlashes path)

/-- The text before the last component. -/
def dirOf (path : Name) : Name := parentPart (trimTrailingSlashes path)

/-- A name that a directory can list. -/
def Ordinary (name : Name) : Prop :=
  name ≠ [] ∧ name.length ≤ vfsMaxComponent ∧ name ≠ [46] ∧ name ≠ [46, 46]

theorem splitParentAt_iff :
    splitParentAt env s cwd path = (some (p, name), t) ↔
      Ordinary (lastOf path) ∧ name = lastOf path ∧
      openParent env s cwd (dirOf path) = (some p, t) ∧
      (t.nodes p).map Node.type = some .directory ∧ env.nameAlloc (lastOf path) = true := by
  have hname : (lastOf path = [] ∨ vfsMaxComponent < (lastOf path).length ∨ lastOf path = [46] ∨
      lastOf path = [46, 46]) ↔ ¬Ordinary (lastOf path) := by
    unfold Ordinary
    rw [← Nat.not_le]
    tauto
  unfold splitParentAt
  dsimp only
  split_ifs with hpath hbad
  · have hlast : lastOf path = [] := by
      unfold lastOf
      rcases hpath with h | h <;> rw [h] <;> rfl
    exact iff_of_false (by simp) fun h => h.1.1 hlast
  · exact iff_of_false (by simp) fun h => hname.mp hbad h.1
  have hord : Ordinary (lastOf path) := not_not.mp (hname.not.mp hbad)
  rw [show parentPart (trimTrailingSlashes path) = dirOf path from rfl,
    show lastComponent (trimTrailingSlashes path) = lastOf path from rfl]
  rcases openParent env s cwd (dirOf path) with ⟨_ | parent, t'⟩
  · exact iff_of_false (by simp) fun h => by cases h.2.2.1
  dsimp only
  split_ifs with hdir
  · rw [Bool.and_eq_true, decide_eq_true_eq] at hdir
    constructor
    · rintro ⟨⟩
      exact ⟨hord, rfl, rfl, hdir⟩
    · rintro ⟨-, rfl, ⟨⟩, -⟩
      rfl
  · refine iff_of_false (by simp) ?_
    rintro ⟨-, -, ⟨⟩, htype, halloc⟩
    exact hdir (by rw [htype, halloc]; rfl)

theorem splitParentAt_eq_some (h : splitParentAt env s cwd path = (some (parent, name), s')) :
    s'.validNode parent = true ∧ name ≠ [] ∧ name.length ≤ vfsMaxComponent := by
  obtain ⟨hord, rfl, -, hdir, -⟩ := splitParentAt_iff.mp h
  obtain ⟨x, hx, -⟩ := Option.map_eq_some_iff.mp hdir
  exact ⟨by rw [State.validNode, hx]; rfl, hord.1, hord.2.1⟩

end Paths

end Views

end RHKernel.Vfs
