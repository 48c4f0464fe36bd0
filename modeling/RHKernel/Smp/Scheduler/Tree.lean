import Mathlib.Data.List.Perm.Subperm
import RHKernel.Lib.Ends
import RHKernel.Smp.Scheduler.Family
import RHKernel.Smp.Scheduler.Runs

/-!
# The pointers of the family tree

A task holds a pointer to its parent, to its first child and to its next sibling. `spawn` and
`clone` put a new task in front of the children of its parent, `reparent_children` moves the
children of a task that ends to the init task one by one, and `wait` takes a zombie out of the
children of its caller and frees it.

`Rep` says that the pointers thread the lists of children that the scheduler's model keeps. A world
also counts how often a task structure has been linked, ended and reaped, and keeps the tasks that
were reaped while they were on a CPU. As in `Runs`, nothing waits for the CPU of a zombie to switch
away from it before `wait` frees the zombie.
-/

namespace RHKernel.Sched

open DList Forest Function List Option Relation Step

/-- The fields `parent`, `first_child` and `next_sibling` of the tasks. -/
structure Kin where
  parent : ℕ → Option ℕ
  firstChild : ℕ → Option ℕ
  nextSibling : ℕ → Option ℕ

namespace Kin

/-- How `spawn_internal` and `clone` set and link the fields of a new task. -/
def link (k : Kin) (parent child : ℕ) : Kin where
  parent := update k.parent child (some parent)
  firstChild := update (update k.firstChild child none) parent (some child)
  nextSibling := update k.nextSibling child (k.firstChild parent)

/-- A round of the loop of `reparent_children`. -/
def adopt (adopter : Option ℕ) (k : Kin) (child : ℕ) : Kin :=
  match adopter with
  | some a =>
    { parent := update k.parent child (some a)
      firstChild := update k.firstChild a (some child)
      nextSibling := update k.nextSibling child (k.firstChild a) }
  | none =>
    { parent := update k.parent child none
      firstChild := k.firstChild
      nextSibling := update k.nextSibling child none }

/-- The loop of `reparent_children`, if it ends within `n` rounds. -/
def adoptAll (adopter : Option ℕ) : ℕ → Kin → Option ℕ → Option Kin
  | _, k, none => some k
  | 0, _, some _ => none
  | n + 1, k, some child => adoptAll adopter n (k.adopt adopter child) (k.nextSibling child)

def reparentChildren (k : Kin) (n : ℕ) (initTask : Option ℕ) (oldParent : ℕ) : Option Kin :=
  if k.firstChild oldParent = none then some k
  else
    let adopter := if initTask = some oldParent then none else initTask
    adoptAll adopter n { k with firstChild := update k.firstChild oldParent none }
      (k.firstChild oldParent)

/-- `wait` takes `child`, which comes after `prevSibling`, out of the children of `current`. -/
def unlinkChild (k : Kin) (current : ℕ) (prevSibling : Option ℕ) (child : ℕ) : Kin :=
  match prevSibling with
  | some q => { k with nextSibling := update k.nextSibling q (k.nextSibling child) }
  | none => { k with firstChild := update k.firstChild current (k.nextSibling child) }

/-- The loop of `wait` over the children of `current`, if it ends within `n` rounds: the child that
it reaps, and the pointers after that. -/
def reap (k : Kin) (zombie : ℕ → Bool) (current : ℕ) :
    ℕ → Option ℕ → Option ℕ → Option (Option ℕ × Kin)
  | _, _, none => some (none, k)
  | 0, _, some _ => none
  | n + 1, prevSibling, some child =>
    if zombie child then some (some child, k.unlinkChild current prevSibling child)
    else k.reap zombie current n (some child) (k.nextSibling child)

end Kin

/-! ### The pointers thread the lists -/

/-- What handing over the children `kids` does to the pointers. -/
structure Kin.Adopted (k k' : Kin) (kids : List ℕ) (adopter : Option ℕ) : Prop where
  parent : ∀ x, k'.parent x = if x ∈ kids then adopter else k.parent x
  firstChild : ∀ {x}, adopter ≠ some x → k'.firstChild x = k.firstChild x
  nextSibling : ∀ {x}, x ∉ kids → k'.nextSibling x = k.nextSibling x
  chain : ∀ {a old}, adopter = some a → Chain k.nextSibling (k.firstChild a) old →
    kids.Disjoint old → Chain k'.nextSibling (k'.firstChild a) (kids.reverse ++ old)

theorem Kin.adopt_adopted (adopter : Option ℕ) (k : Kin) (child : ℕ) :
    Adopted k (k.adopt adopter child) [child] adopter := by
  have hupdate : ∀ {x : ℕ} (v : Option ℕ), x ∉ [child] →
      update k.nextSibling child v x = k.nextSibling x := fun v hx =>
    update_of_ne (fun he => hx (mem_singleton.mpr he)) _ _
  have hparent : ∀ x, update k.parent child adopter x =
      if x ∈ [child] then adopter else k.parent x := by
    intro x
    simp only [update_apply, mem_singleton]
  obtain _ | a := adopter
  · exact ⟨hparent, fun _ => rfl, hupdate _, fun he => nomatch he⟩
  refine ⟨hparent, fun hx => ?_, hupdate _, fun {a' old} ha hc hd => ?_⟩
  · exact update_of_ne (fun he => hx (congrArg some he.symm)) _ _
  obtain rfl := some.inj ha
  refine ⟨update_self _ _ _, ?_⟩
  have hnext : (k.adopt (some a) child).nextSibling child = k.firstChild a :=
    update_self _ _ _
  rw [hnext]
  exact hc.congr fun x hx => hupdate _ fun hx' => hd hx' hx

/-- **`reparent_children`**, the loop. -/
theorem Kin.adoptAll_adopted (adopter : Option ℕ) {n : ℕ} {k : Kin} {h : Option ℕ} {kids : List ℕ}
    (hc : Chain k.nextSibling h kids) (hnd : kids.Nodup) (hn : kids.length ≤ n) :
    ∃ k', adoptAll adopter n k h = some k' ∧ Adopted k k' kids adopter := by
  induction kids generalizing k h n with
  | nil =>
    obtain rfl : h = none := hc
    exact ⟨k, by cases n <;> rfl, fun _ => rfl, fun _ => rfl, fun _ => rfl, fun _ hc _ => hc⟩
  | cons child kids ih =>
    obtain ⟨rfl, hc⟩ := hc
    obtain ⟨hchild, hnd⟩ := nodup_cons.mp hnd
    obtain ⟨n, rfl⟩ := Nat.exists_eq_succ_of_ne_zero (ne_of_gt (lt_of_lt_of_le
      (Nat.succ_pos kids.length) hn))
    have h1 := adopt_adopted adopter k child
    -- the rest of the list is as it was when its next child is looked up
    have hrest : Chain (k.adopt adopter child).nextSibling (k.nextSibling child) kids :=
      hc.congr fun x hx => h1.nextSibling fun hx' => hchild (mem_singleton.mp hx' ▸ hx)
    obtain ⟨k', hk', h2⟩ := ih hrest hnd (Nat.le_of_succ_le_succ hn)
    refine ⟨k', hk', fun x => ?_, fun hx => (h2.firstChild hx).trans (h1.firstChild hx),
      fun hx => ?_, fun {a old} ha hold hd => ?_⟩
    · rw [h2.parent, h1.parent]
      by_cases hx : x ∈ kids
      · rw [if_pos hx, if_pos (mem_cons_of_mem _ hx)]
      · rw [if_neg hx]
        simp only [mem_cons, hx, or_false, not_mem_nil]
    · rw [mem_cons, not_or] at hx
      exact (h2.nextSibling hx.2).trans (h1.nextSibling (by simpa using hx.1))
    · rw [disjoint_cons_left] at hd
      rw [reverse_cons, append_assoc]
      exact h2.chain ha (h1.chain ha hold (by simpa using hd.1))
        (disjoint_cons_right.mpr ⟨hchild, hd.2⟩)

/-- A child has been taken out of the list `l` of the children of `p`. -/
structure Kin.Unlinked (k k' : Kin) (p : ℕ) (l l' : List ℕ) : Prop where
  parent : k'.parent = k.parent
  firstChild : ∀ {x}, x ≠ p → k'.firstChild x = k.firstChild x
  nextSibling : ∀ {x}, x ∉ l → k'.nextSibling x = k.nextSibling x
  chain : Chain k'.nextSibling (k'.firstChild p) l'

theorem Kin.unlinkChild_unlinked {k : Kin} {p a : ℕ} {l1 l2 : List ℕ}
    (hc : Chain k.nextSibling (k.firstChild p) (l1 ++ a :: l2)) (hnd : (l1 ++ a :: l2).Nodup) :
    Unlinked k (k.unlinkChild p l1.getLast? a) p (l1 ++ a :: l2) ((l1 ++ a :: l2).erase a) := by
  have ha : a ∉ l1 := fun h => (nodup_append.mp hnd).2.2 a h a mem_cons_self rfl
  rw [erase_append_right _ ha, erase_cons_head]
  rcases eq_nil_or_concat l1 with rfl | ⟨l0, q, rfl⟩
  · refine ⟨rfl, fun hx => update_of_ne hx _ _, fun _ => rfl, ?_⟩
    have hfirst : (k.unlinkChild p none a).firstChild p = k.nextSibling a :=
      update_self _ _ _
    rw [getLast?_nil, hfirst]
    exact hc.2
  · rw [concat_eq_append] at *
    rw [getLast?_concat]
    refine ⟨rfl, fun _ => rfl, fun hx => update_of_ne ?_ _ _, ?_⟩
    · rintro rfl
      exact hx (by simp)
    · rw [append_assoc, singleton_append] at hc hnd ⊢
      exact hc.skip hnd

/-- **`wait`**, the loop: it reaps the first zombie. -/
theorem Kin.reap_unlinked {k : Kin} (zombie : ℕ → Bool) {p n : ℕ} (l1 : List ℕ) {l2 : List ℕ}
    (hc : Chain k.nextSibling (k.firstChild p) (l1 ++ l2)) (hnd : (l1 ++ l2).Nodup)
    (hn : l2.length ≤ n) :
    ∃ k', k.reap zombie p n l1.getLast? l2.head? = some (l2.find? zombie, k') ∧
      Unlinked k k' p (l1 ++ l2) ((l2.find? zombie).elim (l1 ++ l2) (l1 ++ l2).erase) := by
  induction l2 generalizing l1 n with
  | nil => exact ⟨k, by cases n <;> rfl, rfl, fun _ => rfl, fun _ => rfl, hc⟩
  | cons a l2 ih =>
    obtain ⟨n, rfl⟩ := Nat.exists_eq_succ_of_ne_zero (ne_of_gt (lt_of_lt_of_le
      (Nat.succ_pos l2.length) hn))
    by_cases hz : zombie a = true
    · rw [find?_cons_of_pos hz]
      exact ⟨_, if_pos hz, unlinkChild_unlinked hc hnd⟩
    rw [find?_cons_of_neg hz]
    have hnext : k.nextSibling a = l2.head? := hc.next_eq
    have hl : l1 ++ a :: l2 = (l1 ++ [a]) ++ l2 := by simp
    rw [hl] at hc hnd ⊢
    obtain ⟨k', hk', hu⟩ := ih (l1 ++ [a]) hc hnd (Nat.le_of_succ_le_succ hn)
    refine ⟨k', (if_neg hz).trans ?_, hu⟩
    rw [hnext, ← hk', getLast?_concat]

/-- The pointers thread the lists of children. -/
structure Kin.Threads (k : Kin) (s : State) : Prop where
  parent : k.parent = s.parentOf
  children : ∀ {p}, p ∈ s.allTasks → Chain k.nextSibling (k.firstChild p) (s.task p).children

section Pointers

variable {k k' : Kin} {s s' : State} {t p child : ℕ}

open Kin

theorem Kin.Threads.of_tree (hk : k.Threads s) (h : SameTree s s') : k.Threads s' where
  parent := hk.parent.trans (funext fun x => (h.kin x).2.1.symm)
  children {p} hp := by
    rw [h.allTasks] at hp
    rw [(h.kin p).2.2]
    exact hk.children hp

theorem Kin.link_firstChild (k : Kin) (p child x : ℕ) : (k.link p child).firstChild x =
    if x = p then some child else if x = child then none else k.firstChild x := by
  simp only [Kin.link, update_apply]

theorem Kin.link_nextSibling (k : Kin) (p child x : ℕ) : (k.link p child).nextSibling x =
    if x = child then k.firstChild p else k.nextSibling x :=
  update_apply _ _ _ _

theorem Kin.Threads.joined (hk : k.Threads s) (hf : Family s)
    (h : Joined s s' p child) (hchild : child ∉ s.allTasks) (hp : p ∈ s.allTasks) :
    (k.link p child).Threads s' where
  parent := by
    funext x
    refine (update_apply _ _ _ _).trans ?_
    rw [hk.parent]
    split_ifs with hx
    · rw [State.parentOf, hx, h.above]
    · exact (h.fields hx).2.symm
  children {q} hq := by
    have hpc : child ≠ p := fun he => hchild (he ▸ hp)
    rw [h.allTasks, mem_cons] at hq
    rcases hq with rfl | hq
    · rw [h.childless, link_firstChild, if_neg hpc, if_pos rfl]
      rfl
    have hqc : q ≠ child := fun he => hchild (he ▸ hq)
    -- `child` is in none of the old lists
    have hold : Chain (k.link p child).nextSibling (k.firstChild q) (s.task q).children :=
      (hk.children hq).congr fun x hx => by
        have hne : x ≠ child := fun he => hchild (he ▸ (hf.child hq hx).1)
        rw [link_nextSibling, if_neg hne]
    rw [h.children hqc, link_firstChild, if_neg hqc]
    split_ifs with hqp
    · subst hqp
      refine ⟨rfl, ?_⟩
      rw [link_nextSibling, if_pos rfl]
      exact hold
    · exact hold

theorem Family.length_children_le (hf : Family s) (ht : t ∈ s.allTasks) :
    (s.task t).children.length ≤ s.allTasks.length :=
  (subperm_of_subset (hf.nodup ht) fun _ hx => (hf.child ht hx).1).length_le

/-- **`reparent_children`** ends, and the pointers follow. -/
theorem Kin.Threads.terminated (hk : k.Threads s) (hf : Family s) (h : Terminated s s' t)
    (ht : t ∈ s.allTasks) :
    ∃ k', k.reparentChildren s.allTasks.length s.initTask t = some k' ∧ k'.Threads s' := by
  have hc := hk.children ht
  unfold Kin.reparentChildren
  split
  · rename_i hnone
    have hnil : (s.task t).children = [] := by
      rw [hc.head_eq] at hnone
      exact head?_eq_none_iff.mp hnone
    refine ⟨k, rfl, ?_, fun {q} hq => ?_⟩
    · rw [hk.parent]
      funext x
      rw [State.parentOf, State.parentOf, h.parent, hnil, if_neg not_mem_nil]
    rw [h.allTasks] at hq
    have hq' := hk.children hq
    by_cases hqt : q = t
    · subst hqt
      rw [h.childless]
      exact hnil ▸ hq'
    · rw [h.children hqt, hnil]
      simpa using hq'
  · obtain ⟨k', hk', had⟩ := adoptAll_adopted (adopterOf s t)
      (k := { k with firstChild := update k.firstChild t none }) hc (hf.nodup ht)
      (hf.length_children_le ht)
    refine ⟨k', hk', ?_, fun {q} hq => ?_⟩
    · funext x
      rw [had.parent, State.parentOf, h.parent, hk.parent]
      rfl
    rw [h.allTasks] at hq
    by_cases hqt : q = t
    · subst hqt
      rw [h.childless, had.firstChild (adopterOf_ne s q)]
      exact update_self _ _ _
    have hfirst : update k.firstChild t none q = k.firstChild q :=
      update_of_ne hqt _ _
    have hd : (s.task t).children.Disjoint (s.task q).children := fun _ hx hx' =>
      hqt (hf.parent_unique hq ht hx' hx)
    rw [h.children hqt]
    split_ifs with ha
    · refine had.chain ha ?_ hd
      simp only [hfirst]
      exact hk.children hq
    · rw [had.firstChild ha]
      simp only [hfirst]
      exact (hk.children hq).congr fun x hx => had.nextSibling fun hx' => hd hx' hx

/-- **`wait`** finds the zombie that is reaped, and the pointers follow. -/
theorem Kin.Threads.wait (hk : k.Threads s) (hf : Family s) (ht : t ∈ s.allTasks) :
    ∃ k', k.reap (fun x => (s.task x).state = .zombie) t s.allTasks.length none (k.firstChild t) =
        some (zombieChild s t, k') ∧
      Unlinked k k' t (s.task t).children
        ((zombieChild s t).elim (s.task t).children (s.task t).children.erase) := by
  have hc := hk.children ht
  have h := reap_unlinked (fun x => (s.task x).state = .zombie) [] hc
    (hf.nodup ht) (hf.length_children_le ht)
  rw [← hc.head_eq] at h
  exact h

/-- A child is taken out of the list of its parent `t`, and the other lists stay. -/
theorem Kin.Unlinked.threads {l : List ℕ} (hk : k.Threads s) (hf : Family s)
    (ht : t ∈ s.allTasks) (hu : Unlinked k k' t (s.task t).children l)
    (hsub : ∀ {x}, x ∈ s'.allTasks → x ∈ s.allTasks)
    (hparent : ∀ x, (s'.task x).parent = (s.task x).parent)
    (hself : (s'.task t).children = l)
    (hother : ∀ {x}, x ≠ t → (s'.task x).children = (s.task x).children) : k'.Threads s' where
  parent := by
    rw [hu.parent, hk.parent]
    exact funext fun x => (hparent x).symm
  children {q} hq := by
    by_cases hqt : q = t
    · subst hqt
      rw [hself]
      exact hu.chain
    · rw [hother hqt, hu.firstChild hqt]
      exact (hk.children (hsub hq)).congr fun x hx => hu.nextSibling fun hx' =>
        hqt (hf.parent_unique (hsub hq) ht hx hx')

end Pointers

/-! ### Worlds -/

/-- The scheduler, the pointers, and what has happened to the task structures: how often each was
linked, ended and reaped, and which were reaped while they were on a CPU. -/
structure World where
  sched : State
  kin : Kin
  born : ℕ → ℕ
  ended : ℕ → ℕ
  reaped : ℕ → ℕ
  early : List ℕ

/-- A critical section of the scheduler, or the end of a task by a fatal fault or a forced kill,
which does not hold the `sched_lock`; both reach `terminate_current_locked`. -/
inductive TreeOp where
  | sched (op : Op)
  | terminate (c : ℕ) (code : ℤ)

/-- A step of the scheduler. Only the boot code, on the idle task of its CPU, calls
`spawn_init`. -/
inductive TreeOp.Step : TreeOp → State → State → Prop
  | sched {op : Op} {s s' : State} (h : SchedStep op s s')
      (hinit : ∀ {c child state}, op = .spawn c child state true →
        s.currentTask c = s.idleTask c) : TreeOp.Step (.sched op) s s'
  | terminate {s s' : State} {c : ℕ} {code : ℤ} (hrun : s.Runs c)
      (hidle : s.currentTask c ≠ s.idleTask c)
      (h : terminateCurrentLocked s c code = .ok s') : TreeOp.Step (.terminate c code) s s'

/-- The step wakes a task that is still on a CPU, or calls `wait` when a zombie child of the caller
still is. -/
def TreeOp.Bad (op : TreeOp) (s : State) : Prop :=
  match op with
  | .sched (.wait c) => ∃ z ∈ (s.task (s.currentTask c)).children,
      (s.task z).state = .zombie ∧ s.OnCpu z
  | .sched op => op.HitsCurrent s
  | .terminate c _ => (s.task (s.currentTask c)).children ≠ [] ∧
      ∃ a, s.initTask = some a ∧ s.Stopped a ∧ s.OnCpu a

/-- Counts one more. -/
def count (f : ℕ → ℕ) (t : ℕ) : ℕ → ℕ := update f t (f t + 1)

namespace World

/-- The task on CPU `c` ends. -/
def terminate (w : World) (s' : State) (c : ℕ) : Option World := do
  let current := w.sched.currentTask c
  let kin ← w.kin.reparentChildren w.sched.allTasks.length w.sched.initTask current
  pure { w with sched := s', kin := kin, ended := count w.ended current }

/-- `wait` on CPU `c`. -/
def wait (w : World) (s' : State) (c : ℕ) : Option World := do
  let current := w.sched.currentTask c
  let (child, kin) ← w.kin.reap (fun x => (w.sched.task x).state = .zombie) current
    w.sched.allTasks.length none (w.kin.firstChild current)
  pure { w with
    sched := s'
    kin := kin
    reaped := child.elim w.reaped (count w.reaped)
    early := (child.toList.filter fun z => w.sched.OnCpu z) ++ w.early }

/-- A new task is linked. -/
def join (w : World) (s' : State) (c child : ℕ) : World :=
  { w with
    sched := s'
    kin := w.kin.link (w.sched.currentTask c) child
    born := count w.born child }

/-- What a step that leaves the scheduler in `s'` does to the world. The loops over children are
cut off when they take more rounds than there are tasks. -/
def run (w : World) (s' : State) : TreeOp → Option World
  | .terminate c _ => w.terminate s' c
  | .sched (.exit c _) => w.terminate s' c
  | .sched (.wait c) => w.wait s' c
  | .sched (.clone c child) => some (w.join s' c child)
  | .sched (.spawn c child _ _) => some (w.join s' c child)
  | .sched _ => some { w with sched := s' }

def Step (op : TreeOp) (w w' : World) : Prop :=
  op.Step w.sched w'.sched ∧ w.run w'.sched op = some w'

/-- After `init_core` the idle tasks are there, without parents or children. -/
structure Booted (w : World) : Prop where
  sched : Sched.Booted w.sched
  parent : w.kin.parent = w.sched.parentOf
  root : ∀ t ∈ w.sched.allTasks, w.kin.firstChild t = none ∧ (w.sched.task t).children = []
  live : ∀ t ∈ w.sched.allTasks, (w.sched.task t).state ≠ .zombie
  born : ∀ t, w.born t = if t ∈ w.sched.allTasks then 1 else 0
  ended : ∀ t, w.ended t = 0
  reaped : ∀ t, w.reaped t = 0
  early : w.early = []

/-- The pointers describe a forest over the tasks. -/
structure Forest (w : World) : Prop where
  parent : ∀ {t p}, t ∈ w.sched.allTasks → w.kin.parent t = some p → p ∈ w.sched.allTasks
  children : ∀ {p}, p ∈ w.sched.allTasks → ∃ kids,
    Chain w.kin.nextSibling (w.kin.firstChild p) kids ∧ kids.Nodup ∧
      ∀ t, t ∈ kids ↔ t ∈ w.sched.allTasks ∧ w.kin.parent t = some p
  acyclic : ∀ {t p}, t ∈ w.sched.allTasks → w.kin.parent t = some p → ¬Reaches w.kin.parent p t

/-- Every reaping is of a task that had ended and has left every CPU, and a task structure is
linked again only after it was reaped. -/
structure ReapedOnce (w : World) : Prop where
  ended : ∀ t, w.reaped t ≤ w.ended t
  once : ∀ t, w.ended t ≤ w.born t ∧ w.born t ≤ w.reaped t + 1
  left : w.early = []

/-- What every step that is not bad keeps. -/
structure Account (w : World) : Prop where
  inv : Inv w.sched w.sched.on
  family : Family w.sched
  threads : w.kin.Threads w.sched
  born : ∀ t, w.born t = w.reaped t + if t ∈ w.sched.allTasks then 1 else 0
  ended : ∀ t, w.ended t = w.reaped t +
    if t ∈ w.sched.allTasks ∧ (w.sched.task t).state = .zombie then 1 else 0
  early : w.early = []

variable {w w' : World} {s' : State} {c t child : ℕ}

theorem Booted.account (hb : w.Booted) : w.Account where
  inv := hb.sched.inv
  family :=
    { parent := fun ht h => nomatch (hb.sched.parent _ ht).symm.trans h
      child := fun hp ht => absurd ((hb.root _ hp).2 ▸ ht) not_mem_nil
      nodup := fun hp => (hb.root _ hp).2 ▸ nodup_nil
      zombie := fun ht hz => absurd hz (hb.live _ ht)
      init := fun ha => nomatch hb.sched.init.symm.trans ha
      idle := fun hc => hb.sched.parent _ (hb.sched.idle _ hc).2
      root := fun ht => ⟨_, hb.sched.parent _ ht, .refl _ _⟩ }
  threads := ⟨hb.parent, fun hp => by
    obtain ⟨hfirst, hnil⟩ := hb.root _ hp
    rw [hfirst, hnil]
    rfl⟩
  born t := by rw [hb.born, hb.reaped, zero_add]
  ended t := by
    rw [hb.ended, hb.reaped, if_neg fun h => hb.live t h.1 h.2]
  early := hb.early

variable (ha : w.Account)

include ha

theorem Account.forest : w.Forest where
  parent {t p} ht hp := by
    rw [ha.threads.parent] at hp
    exact (ha.family.parent ht hp).1
  children {p} hp := by
    refine ⟨_, ha.threads.children hp, ha.family.nodup hp, fun t => ⟨fun ht => ?_, fun ht => ?_⟩⟩
    · rw [ha.threads.parent]
      exact ha.family.child hp ht
    · rw [ha.threads.parent] at ht
      exact (ha.family.parent ht.1 ht.2).2
  acyclic {t p} ht hp := by
    obtain ⟨r, hr, hreach⟩ := ha.family.root ht
    rw [ha.threads.parent] at hp ⊢
    exact hreach.acyclic hr hp

theorem Account.reapedOnce : w.ReapedOnce where
  ended t := by
    rw [ha.ended]
    exact Nat.le_add_right _ _
  once t := by
    rw [ha.ended, ha.born]
    split_ifs with h1 h2 h2
    · exact ⟨le_rfl, le_rfl⟩
    · exact absurd h1.1 h2
    · exact ⟨Nat.le_succ _, le_rfl⟩
    · exact ⟨le_rfl, Nat.le_succ _⟩
  left := ha.early

theorem Account.of_tree (hi : Inv s' s'.on) (h : SameTree w.sched s') :
    Account { w with sched := s' } where
  inv := hi
  family := ha.family.of_tree h
  threads := ha.threads.of_tree h
  born t := by
    rw [h.allTasks]
    exact ha.born t
  ended t := by
    simp only [h.allTasks, h.zombie]
    exact ha.ended t
  early := ha.early

theorem Account.running (hrun : w.sched.Runs c)
    (hidle : w.sched.currentTask c ≠ w.sched.idleTask c) :
    w.sched.currentTask c ∈ w.sched.allTasks ∧
      ∀ c' < w.sched.cores, w.sched.currentTask c ≠ w.sched.idleTask c' :=
  ⟨(ha.inv.on_state (on_of_lt hrun.1)).2,
    fun _ hc => ha.inv.not_idle (on_of_lt hrun.1) hidle hc⟩

variable (hi : Inv s' s'.on) (hrun : w.sched.Runs c)

include hi hrun

theorem Account.terminate (hidle : w.sched.currentTask c ≠ w.sched.idleTask c)
    (h : Terminated w.sched s' (w.sched.currentTask c)) :
    ∃ w', w.terminate s' c = some w' ∧ w'.Account ∧ w'.sched = s' := by
  obtain ⟨hmem, hnot⟩ := ha.running hrun hidle
  obtain ⟨k', hk', hthreads⟩ := ha.threads.terminated ha.family h hmem
  refine ⟨{ w with sched := s', kin := k', ended := count w.ended (w.sched.currentTask c) },
    by rw [World.terminate, hk']; rfl, ⟨hi, ha.family.terminated h hmem hnot, hthreads,
      fun t => ?_, fun t => ?_, ha.early⟩, rfl⟩
  · simp only [h.allTasks]
    exact ha.born t
  simp only [h.allTasks, count]
  by_cases ht : t = w.sched.currentTask c
  · subst ht
    have hlive : (w.sched.task (w.sched.currentTask c)).state ≠ .zombie := by
      rw [hrun.2]
      nofun
    rw [update_self, ha.ended, if_neg fun hz => hlive hz.2, if_pos ⟨hmem, h.self⟩]
  · simp only [update_of_ne ht, h.zombie ht]
    exact ha.ended t

theorem Account.join (hchild : child ∉ w.sched.allTasks)
    (h : Joined w.sched s' (w.sched.currentTask c) child)
    (hinit : s'.initTask = w.sched.initTask ∨
      w.sched.initTask = none ∧ w.sched.currentTask c = w.sched.idleTask c) :
    (w.join s' c child).Account := by
  have hmem : w.sched.currentTask c ∈ w.sched.allTasks := (ha.inv.on_state (on_of_lt hrun.1)).2
  refine ⟨hi, ?_, ha.threads.joined ha.family h hchild hmem, fun t => ?_, fun t => ?_, ha.early⟩
  · exact ha.family.joined h hchild hmem (by rw [hrun.2]; nofun)
      (fun c hc => (ha.inv.idle hc).2) (hinit.imp_right fun hi => ⟨hi.1, c, hrun.1, hi.2⟩)
  · simp only [World.join, count, h.allTasks, mem_cons]
    by_cases ht : t = child
    · subst ht
      rw [update_self, ha.born, if_neg hchild, if_pos (.inl rfl)]
    · simp only [update_of_ne ht, ht, false_or]
      exact ha.born t
  · simp only [World.join, h.allTasks, mem_cons]
    by_cases ht : t = child
    · subst ht
      rw [ha.ended, if_neg fun hz => hchild hz.1, if_neg fun hz => h.live hz.2]
    · simp only [ht, false_or, h.zombie ht]
      exact ha.ended t

theorem Account.wait (hidle : w.sched.currentTask c ≠ w.sched.idleTask c)
    (hsafe : ∀ z ∈ (w.sched.task (w.sched.currentTask c)).children,
      (w.sched.task z).state = .zombie → ¬w.sched.OnCpu z)
    (h : (Op.wait c).Effect w.sched s') :
    ∃ w', w.wait s' c = some w' ∧ w'.Account ∧ w'.sched = s' := by
  obtain ⟨hmem, hnot⟩ := ha.running hrun hidle
  obtain ⟨k', hk', hu⟩ := ha.threads.wait ha.family hmem
  refine ⟨_, by rw [World.wait, hk']; rfl, ?_, rfl⟩
  rcases h with ⟨z, hz, hr⟩ | ⟨hnone, htree⟩
  · obtain ⟨hchild, hzombie⟩ := zombieChild_some hz
    have hlive := (ha.family.child hmem hchild).1
    rw [hz] at hu
    simp only [hz]
    refine ⟨hi, ha.family.reaped ha.inv.nodup hr hmem hnot hchild hzombie, ?_, fun t => ?_,
      fun t => ?_, ?_⟩
    · exact hu.threads ha.threads ha.family hmem
        (fun hx => mem_of_mem_erase (hr.allTasks ▸ hx)) (fun x => (hr.fields x).2.2)
        (by rw [hr.children, if_pos rfl]; rfl) fun hx => by rw [hr.children, if_neg hx]
    · simp only [elim_some, count, hr.allTasks, ha.inv.nodup.mem_erase_iff]
      by_cases ht : t = z
      · subst ht
        simp [ha.born, hlive]
      · simp only [update_of_ne ht, ne_eq, ht, not_false_eq_true, true_and]
        exact ha.born t
    · simp only [elim_some, count, hr.allTasks, ha.inv.nodup.mem_erase_iff,
        (hr.fields t).1]
      by_cases ht : t = z
      · subst ht
        simp [ha.ended, hlive, hzombie]
      · simp only [update_of_ne ht, ne_eq, ht, not_false_eq_true, true_and]
        exact ha.ended t
    · simp only [toList_some, filter_cons, decide_eq_true_eq,
        hsafe z hchild hzombie, if_false, filter_nil, nil_append]
      exact ha.early
  · rw [hnone] at hu
    simp only [hnone]
    have hb := ha.of_tree hi htree
    refine { hb with inv := hi, threads := ?_ }
    exact hu.threads ha.threads ha.family hmem (fun hx => htree.allTasks ▸ hx)
      (fun x => (htree.kin x).2.1) ((htree.kin _).2.2) fun _ => (htree.kin _).2.2

omit hi hrun

/-- **Step lemma**: a step that is not bad ends and keeps the account. -/
theorem Account.step {op : TreeOp} (hsafe : ¬op.Bad w.sched)
    (h : op.Step w.sched s') : ∃ w', w.run s' op = some w' ∧ w'.Account ∧ w'.sched = s' := by
  have hinit : ∀ {a}, w.sched.initTask = some a → a ∈ w.sched.allTasks := fun h =>
    (ha.family.init h).1
  cases h with
  | terminate hrun hidle h =>
    obtain ⟨hi, ht, -⟩ := ha.inv.terminateCurrentLocked (on_of_lt hrun.1) hidle hrun.2
      (fun _ => hinit) (fun p hne hp hs _ hon => hsafe ⟨hne, p, hp, hs, onCpu_of_on hon⟩) h
    exact ha.terminate (on_congr ht.cores ht.currentTask ▸ hi) hrun hidle ht
  | @sched op _ _ h hfirst =>
    have hhits : ¬op.HitsCurrent w.sched := by
      cases op with
      | wait c =>
        rintro ⟨z, hz, hon⟩
        exact hsafe ⟨z, (zombieChild_some hz).1, (zombieChild_some hz).2, hon⟩
      | _ => exact hsafe
    obtain ⟨hi, he⟩ := h.inv hhits ha.inv hinit fun ht hp => (ha.family.parent ht hp).1
    cases h with
    | exit hrun hidle => exact ha.terminate hi hrun hidle he.1
    | wait hrun hidle =>
      exact ha.wait hi hrun hidle (fun z hz hs hon => hsafe ⟨z, hz, hs, hon⟩) he
    | clone hrun _ hchild =>
      exact ⟨_, rfl, ha.join hi hrun hchild he.1 (.inl he.2), rfl⟩
    | @spawn _ _ c child state init _ hrun hchild =>
      refine ⟨_, rfl, ha.join hi hrun hchild he.1 ?_, rfl⟩
      cases init with
      | false => exact .inl (he.2.1 rfl)
      | true => exact .inr ⟨he.2.2 rfl, hfirst rfl⟩
    | _ => exact ⟨_, rfl, ha.of_tree hi he, rfl⟩

omit ha

/-- **The family tree.** In every run in which no step wakes a task that is still on a CPU, and no
task calls `wait` while a zombie child of it still is, the pointers describe a forest, no zombie
was reaped twice or before it had left every CPU, and the loops over children end. -/
theorem forest_of_run {w₀ : World} (hb : w₀.Booted)
    (hrun : ReflTransGen (fun a b => ∃ op, World.Step op a b ∧ ¬op.Bad a.sched) w₀ w) :
    w.Forest ∧ w.ReapedOnce ∧
      ∀ op s', op.Step w.sched s' → ¬op.Bad w.sched → (w.run s' op).isSome = true := by
  have ha : w.Account := by
    refine run_invariant (I := Account) hrun hb.account ?_
    rintro a b hi ⟨op, ⟨hstep, hb⟩, hsafe⟩
    obtain ⟨b', hb', hacc, -⟩ := hi.step hsafe hstep
    exact some.inj (hb'.symm.trans hb) ▸ hacc
  refine ⟨ha.forest, ha.reapedOnce, fun op s' hstep hsafe => ?_⟩
  obtain ⟨w', hw', -⟩ := ha.step hsafe hstep
  rw [hw']
  rfl

theorem run_sched {op : Op} (h : w.run s' (.sched op) = some w') : w'.sched = s' := by
  cases op with
  | exit | wait =>
    obtain ⟨_, -, h⟩ := bind_eq_some_iff.mp h
    exact some.inj h ▸ rfl
  | _ => exact some.inj h ▸ rfl

/-- A critical section that is evaluated. -/
def exec (w : World) (op : Op) : Option World := do
  let s' ← op.exec w.sched
  w.run s' (.sched op)

theorem exec_step {op : Op} (hop : ∀ c child state, op ≠ .spawn c child state true)
    (h : w.exec op = some w') : Step (.sched op) w w' := by
  obtain ⟨s', hs, h⟩ := bind_eq_some_iff.mp h
  obtain rfl := run_sched h
  exact ⟨.sched (Op.exec_step hs) fun he => absurd he (hop _ _ _), h⟩

end World

/-- Two CPUs after boot. -/
def bootedWorld : World where
  sched := twoCpus
  kin := ⟨fun _ => none, fun _ => none, fun _ => none⟩
  born t := if t ∈ [101, 100] then 1 else 0
  ended _ := 0
  reaped _ := 0
  early := []

theorem booted_bootedWorld : bootedWorld.Booted :=
  ⟨booted_twoCpus, rfl, fun _ _ => ⟨rfl, rfl⟩, fun _ _ => nofun, fun _ => rfl, fun _ => rfl,
    fun _ => rfl, rfl⟩

/-- Task `7` on CPU `0` clones task `8`, which CPU `1` takes over and which exits there. `wait` can
reap it at once, or after CPU `1` has switched to its idle task. -/
theorem exited_child : ∃ w w1 w2 w3,
    ReflTransGen (fun a b => ∃ op, World.Step op a b ∧ ¬op.Bad a.sched) bootedWorld w ∧
      World.Step (.sched (.wait 0)) w w1 ∧ w1.early = [8] ∧
      World.Step (.sched (.schedule 1 false)) w w2 ∧ World.Step (.sched (.wait 0)) w2 w3 ∧
      (∀ c < w2.sched.cores, (w2.sched.task (w2.sched.currentTask c)).state ≠ .zombie) ∧
      w3.reaped 8 = 1 := by
  obtain ⟨w, hrun, ⟨hp, hinit, hst⟩, hexit⟩ := exists_run (f := World.exec) (s := bootedWorld)
    (r := fun a b => ∃ op, World.Step op a b ∧ ¬op.Bad a.sched)
    (l := [.spawn 0 7 .ready false, .schedule 0 false, .clone 0 8, .schedule 1 false])
    (Q := fun w => ((w.sched.task (w.sched.currentTask 1)).parent = some 7 ∧
        w.sched.initTask = none ∧ (w.sched.task 7).state = .running) ∧
      (w.exec (.exit 1 0)).any (fun w => (w.exec (.wait 0)).any (fun w => w.early = [8]) &&
        (w.exec (.schedule 1 false)).any fun w => decide (∀ c < w.sched.cores,
          (w.sched.task (w.sched.currentTask c)).state ≠ .zombie) &&
          (w.exec (.wait 0)).any fun w => w.reaped 8 = 1) = true)
    (fun op hop a b h => by
      simp only [mem_cons, not_mem_nil, or_false] at hop
      rcases hop with rfl | rfl | rfl | rfl <;> exact ⟨_, World.exec_step (by simp) h, id⟩)
    (by decide)
  simp only [Option.any_eq_true, Bool.and_eq_true, decide_eq_true_eq] at hexit
  obtain ⟨w0, h0, ⟨w1, h1, hearly⟩, w2, h2, hlive, w3, h3, hreaped⟩ := hexit
  have hsafe : ¬(TreeOp.sched (.exit 1 0)).Bad w.sched := by
    rintro ⟨p, hp' | ⟨-, hp'⟩, hs, -⟩
    · obtain rfl := some.inj (hp.symm.trans hp')
      rw [State.Stopped, hst] at hs
      exact absurd hs (by decide)
    · exact absurd (hinit.symm.trans hp') (some_ne_none p).symm
  exact ⟨w0, w1, w2, w3, hrun.tail ⟨_, World.exec_step (by simp) h0, hsafe⟩,
    World.exec_step (by simp) h1, hearly, World.exec_step (by simp) h2,
    World.exec_step (by simp) h3, hlive, hreaped⟩

/-- The child is reaped after its CPU has switched. -/
theorem forest_of_run_reaped : ∃ w, ReflTransGen
    (fun a b => ∃ op, World.Step op a b ∧ ¬op.Bad a.sched) bootedWorld w ∧
      w.reaped 8 = 1 ∧ w.Forest ∧ w.ReapedOnce := by
  obtain ⟨w, -, w₂, w₃, hrun, -, -, h2, h3, hlive, hreaped⟩ := exited_child
  have hsafe : ¬(TreeOp.sched (.wait 0)).Bad w₂.sched := by
    rintro ⟨z, -, hz, c, hc, rfl⟩
    exact hlive c hc hz
  have hrun' := ReflTransGen.tail (hrun.tail ⟨_, h2, id⟩) ⟨_, h3, hsafe⟩
  have h := World.forest_of_run booted_bootedWorld hrun'
  exact ⟨w₃, hrun', hreaped, h.1, h.2.1⟩

/-- The child is reaped while its CPU is still on its stack. -/
theorem zombie_reaped_on_cpu :
    ¬∀ w₀ w : World, w₀.Booted →
      ReflTransGen (fun a b => ∃ op, World.Step op a b) w₀ w →
        w.Forest ∧ w.ReapedOnce := by
  intro hall
  obtain ⟨w, w₁, -, -, hrun, h1, hearly, -⟩ := exited_child
  have hany : ReflTransGen (fun a b => ∃ op, World.Step op a b) bootedWorld w :=
    ReflTransGen.mono (fun _ _ ⟨op, hstep, _⟩ => ⟨op, hstep⟩) _ _ hrun
  have hrun' := hany.tail ⟨_, h1⟩
  have hnil := (hall _ _ booted_bootedWorld hrun').2.left
  rw [hearly] at hnil
  exact cons_ne_nil _ _ hnil

end RHKernel.Sched
