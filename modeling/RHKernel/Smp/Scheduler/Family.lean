import RHKernel.Lib.Forest
import RHKernel.Smp.Scheduler.Process

/-!
# The family tree

Every task but the roots is in the list of children of its parent, once, and in no other list; the
parent is a task, and following the parents leads to a root. A zombie has no children, so reaping
it leaves no pointer behind. The init task is the exception: a killed init task stays, and goes on
to adopt orphans. Nothing reaps it, because its parent is the idle task that spawned it at boot.
-/

namespace RHKernel.Sched

open Forest List

def State.parentOf (s : State) (t : ℕ) : Option ℕ := (s.task t).parent

/-- The family tree of the tasks. -/
structure Family (s : State) : Prop where
  parent : ∀ {t p}, t ∈ s.allTasks → (s.task t).parent = some p →
    p ∈ s.allTasks ∧ t ∈ (s.task p).children
  child : ∀ {t p}, p ∈ s.allTasks → t ∈ (s.task p).children →
    t ∈ s.allTasks ∧ (s.task t).parent = some p
  nodup : ∀ {p}, p ∈ s.allTasks → (s.task p).children.Nodup
  zombie : ∀ {t}, t ∈ s.allTasks → (s.task t).state = .zombie →
    (s.task t).children = [] ∨ s.initTask = some t
  init : ∀ {a}, s.initTask = some a → a ∈ s.allTasks ∧ (s.task a).id = 1 ∧
    ∀ p, (s.task a).parent = some p → ∃ c < s.cores, p = s.idleTask c
  idle : ∀ {c}, c < s.cores → (s.task (s.idleTask c)).parent = none
  root : ∀ {t}, t ∈ s.allTasks → ∃ r, (s.task r).parent = none ∧ Reaches s.parentOf t r

section Tree

variable {s s' : State} {t p q x a z child : ℕ}

theorem Family.of_tree (hf : Family s) (h : SameTree s s') : Family s' := by
  have hparent : ∀ x, (s'.task x).parent = (s.task x).parent := fun x => (h.kin x).2.1
  have hchildren : ∀ x, (s'.task x).children = (s.task x).children := fun x => (h.kin x).2.2
  have hof : s'.parentOf = s.parentOf := funext hparent
  have hid : ∀ x, (s'.task x).id = (s.task x).id := fun x => (h.kin x).1
  refine ⟨?_, ?_, ?_, ?_, ?_, ?_, ?_⟩ <;>
    simp only [h.allTasks, h.initTask, h.cores, h.idleTask, h.zombie, hparent, hchildren, hid, hof]
  exacts [hf.parent, hf.child, hf.nodup, hf.zombie, hf.init, hf.idle, hf.root]

theorem Family.parent_unique (hf : Family s) (hp : p ∈ s.allTasks)
    (hq : q ∈ s.allTasks) (hxp : x ∈ (s.task p).children) (hxq : x ∈ (s.task q).children) :
    p = q :=
  Option.some.inj ((hf.child hp hxp).2.symm.trans (hf.child hq hxq).2)

theorem Family.init_not_child (hf : Family s) (ht : t ∈ s.allTasks)
    (hidle : ∀ c < s.cores, t ≠ s.idleTask c) (ha : s.initTask = some a) :
    a ∉ (s.task t).children := by
  intro hmem
  obtain ⟨c, hc, he⟩ := (hf.init ha).2.2 t (hf.child ht hmem).2
  exact hidle c hc he

theorem Family.terminated (hf : Family s) (h : Terminated s s' t) (ht : t ∈ s.allTasks)
    (hidle : ∀ c < s.cores, t ≠ s.idleTask c) : Family s' := by
  have hkid : ∀ {x}, x ∈ (s.task t).children → (s.task x).parent = some t := fun hx =>
    (hf.child ht hx).2
  have hkept : ∀ {x}, x ∉ (s.task t).children → (s'.task x).parent = (s.task x).parent :=
    fun hx => by rw [h.parent, if_neg hx]
  -- the init task is where it was, below an idle task or a root
  have hinit : ∀ {a}, s.initTask = some a → (s'.task a).parent = (s.task a).parent := fun ha =>
    hkept (hf.init_not_child ht hidle ha)
  have hidle' : ∀ {c}, c < s.cores → (s'.task (s.idleTask c)).parent = none := by
    intro c hc
    rw [hkept fun hmem => ?_]
    · exact hf.idle hc
    · exact nomatch (hf.idle hc).symm.trans (hkid hmem)
  refine ⟨fun {x q} hx hq => ?_, fun {x q} hq hx => ?_, fun {q} hq => ?_, fun {x} hx hz => ?_,
    fun {a} ha => ?_, fun {c} hc => ?_, fun {x} hx => ?_⟩
  · rw [h.allTasks] at hx ⊢
    rw [h.parent] at hq
    by_cases hk : x ∈ (s.task t).children
    · rw [if_pos hk] at hq
      obtain ⟨ha, hqt⟩ := adopterOf_some hq
      exact ⟨(hf.init ha).1, (h.mem_children hqt).mpr (.inl ⟨hq, hk⟩)⟩
    · rw [if_neg hk] at hq
      obtain ⟨h1, h2⟩ := hf.parent hx hq
      have hqt : q ≠ t := fun he => hk (he ▸ h2)
      exact ⟨h1, (h.mem_children hqt).mpr (.inr h2)⟩
  · rw [h.allTasks] at hq ⊢
    by_cases hqt : q = t
    · subst hqt
      rw [h.childless] at hx
      exact absurd hx not_mem_nil
    rcases (h.mem_children hqt).mp hx with ⟨ha, hx⟩ | hxq
    · exact ⟨(hf.child ht hx).1, by rw [h.parent, if_pos hx, ha]⟩
    · obtain ⟨h1, h2⟩ := hf.child hq hxq
      exact ⟨h1, (hkept fun hk => hqt (hf.parent_unique hq ht hxq hk)).trans h2⟩
  · rw [h.allTasks] at hq
    by_cases hqt : q = t
    · subst hqt
      rw [h.childless]
      exact nodup_nil
    rw [h.children hqt]
    split
    · refine nodup_append.mpr ⟨nodup_reverse.mpr (hf.nodup ht), hf.nodup hq, ?_⟩
      rintro x hx y hy rfl
      exact hqt (hf.parent_unique hq ht hy (mem_reverse.mp hx))
    · exact hf.nodup hq
  · rw [h.allTasks] at hx
    rw [h.initTask]
    by_cases hxt : x = t
    · subst hxt
      exact .inl h.childless
    · rw [h.children hxt]
      split_ifs with ha
      · exact .inr (adopterOf_some ha).1
      · exact hf.zombie hx ((h.zombie hxt).mp hz)
  · rw [h.initTask] at ha
    rw [h.allTasks, h.id, hinit ha, h.cores, h.idleTask]
    exact hf.init ha
  · rw [h.cores] at hc
    rw [h.idleTask]
    exact hidle' hc
  · rw [h.allTasks] at hx
    obtain ⟨r, hr, hreach⟩ := hf.root hx
    -- climb as before, until a child of `t` turns off to the adopter
    induction hreach using Relation.ReflTransGen.head_induction_on with
    | refl =>
      refine ⟨r, ?_, .refl _ _⟩
      rw [hkept fun hk => ?_]
      · exact hr
      · exact nomatch hr.symm.trans (hkid hk)
    | @head x y hxy _ ih =>
      by_cases hk : x ∈ (s.task t).children
      · have hpx : (s'.task x).parent = adopterOf s t := by rw [h.parent, if_pos hk]
        rcases ha : adopterOf s t with _ | a
        · exact ⟨x, hpx.trans ha, .refl _ _⟩
        have hx' : s'.parentOf x = some a := hpx.trans ha
        obtain ⟨hinita, -⟩ := adopterOf_some ha
        cases hpa : (s.task a).parent with
        | none => exact ⟨a, (hinit hinita).trans hpa, .head hx' (.refl _ _)⟩
        | some p =>
          obtain ⟨c, hc, rfl⟩ := (hf.init hinita).2.2 p hpa
          exact ⟨_, hidle' hc, .head hx' (.head ((hinit hinita).trans hpa) (.refl _ _))⟩
      · obtain ⟨r', hr', hreach'⟩ := ih (hf.parent hx hxy).1
        exact ⟨r', hr', .head ((hkept hk).trans hxy) hreach'⟩

/-- A zombie child of a task that is not idle is reaped. -/
theorem Family.reaped (hf : Family s) (hnodup : s.allTasks.Nodup)
    (h : Reaped s s' t z) (ht : t ∈ s.allTasks) (hidle : ∀ c < s.cores, t ≠ s.idleTask c)
    (hz : z ∈ (s.task t).children) (hzombie : (s.task z).state = .zombie) : Family s' := by
  have hchildless : (s.task z).children = [] := by
    refine (hf.zombie (hf.child ht hz).1 hzombie).resolve_right fun ha => ?_
    exact hf.init_not_child ht hidle ha hz
  have hparent : ∀ x, (s'.task x).parent = (s.task x).parent := fun x => (h.fields x).2.2
  have hmem : ∀ {x}, x ∈ s'.allTasks ↔ x ≠ z ∧ x ∈ s.allTasks := by
    intro x
    rw [h.allTasks]
    exact hnodup.mem_erase_iff
  have hkids : ∀ {x p}, p ∈ s.allTasks →
      (x ∈ (s'.task p).children ↔ x ≠ z ∧ x ∈ (s.task p).children) := by
    intro x p hp
    rw [h.children]
    split_ifs with hpt
    · subst hpt
      exact (hf.nodup hp).mem_erase_iff
    · refine ⟨fun hx => ⟨?_, hx⟩, And.right⟩
      rintro rfl
      exact hpt (hf.parent_unique hp ht hx hz)
  refine ⟨fun {x q} hx hq => ?_, fun {x q} hq hx => ?_, fun {q} hq => ?_, fun {x} hx hs => ?_,
    fun {a} ha => ?_, fun {c} hc => ?_, fun {x} hx => ?_⟩
  · rw [hparent] at hq
    obtain ⟨hxz, hx⟩ := hmem.mp hx
    obtain ⟨h1, h2⟩ := hf.parent hx hq
    refine ⟨hmem.mpr ⟨?_, h1⟩, (hkids h1).mpr ⟨hxz, h2⟩⟩
    rintro rfl
    rw [hchildless] at h2
    exact absurd h2 not_mem_nil
  · obtain ⟨-, hq⟩ := hmem.mp hq
    obtain ⟨hxz, hx⟩ := (hkids hq).mp hx
    rw [hparent]
    exact ⟨hmem.mpr ⟨hxz, (hf.child hq hx).1⟩, (hf.child hq hx).2⟩
  · obtain ⟨-, hq⟩ := hmem.mp hq
    rw [h.children]
    split
    · exact (hf.nodup ht).erase z
    · exact hf.nodup hq
  · obtain ⟨-, hx⟩ := hmem.mp hx
    rw [(h.fields x).1] at hs
    rw [h.initTask]
    refine (hf.zombie hx hs).imp_left fun hnil => ?_
    rw [h.children]
    split_ifs with hxt
    · subst hxt
      rw [hnil]
      rfl
    · exact hnil
  · rw [h.initTask] at ha
    obtain ⟨h1, h2, h3⟩ := hf.init ha
    rw [(h.fields a).2.1, hparent, h.cores, h.idleTask]
    refine ⟨hmem.mpr ⟨?_, h1⟩, h2, h3⟩
    rintro rfl
    exact hf.init_not_child ht hidle ha hz
  · rw [h.cores] at hc
    rw [h.idleTask, hparent]
    exact hf.idle hc
  · obtain ⟨r, hr, hreach⟩ := hf.root (hmem.mp hx).2
    have hof : s'.parentOf = s.parentOf := funext hparent
    exact ⟨r, (hparent r).trans hr, hof ▸ hreach⟩

/-- A task that is live gets a child that is new; the first init task is a child of an idle
task. -/
theorem Family.joined (hf : Family s) (h : Joined s s' p child)
    (hchild : child ∉ s.allTasks) (hp : p ∈ s.allTasks) (hlive : (s.task p).state ≠ .zombie)
    (hidle : ∀ c < s.cores, s.idleTask c ∈ s.allTasks)
    (hinit : s'.initTask = s.initTask ∨ s.initTask = none ∧ ∃ c < s.cores, p = s.idleTask c) :
    Family s' := by
  have hne : ∀ {x}, x ∈ s.allTasks → x ≠ child := fun hx he => hchild (he ▸ hx)
  have hmem : ∀ {x}, x ∈ s'.allTasks ↔ x = child ∨ x ∈ s.allTasks := by
    intro x
    rw [h.allTasks, mem_cons]
  have hparent : ∀ {x}, x ∈ s.allTasks → (s'.task x).parent = (s.task x).parent := fun hx =>
    (h.fields (hne hx)).2
  have hkids : ∀ {x q}, q ∈ s.allTasks →
      (x ∈ (s'.task q).children ↔ (x = child ∧ q = p) ∨ x ∈ (s.task q).children) :=
    fun hq => h.mem_children (hne hq)
  have hclimb : ∀ {x r}, x ∈ s.allTasks → Reaches s.parentOf x r →
      r ∈ s.allTasks ∧ Reaches s'.parentOf x r := by
    intro x r hx hreach
    induction hreach using Relation.ReflTransGen.head_induction_on with
    | refl => exact ⟨hx, .refl _ _⟩
    | @head a b hab _ ih =>
      obtain ⟨hr, hreach'⟩ := ih (hf.parent hx hab).1
      exact ⟨hr, .head ((hparent hx).trans hab) hreach'⟩
  have hroot : ∀ {x}, x ∈ s.allTasks → ∃ r, (s'.task r).parent = none ∧
      Reaches s'.parentOf x r := by
    intro x hx
    obtain ⟨r, hr, hreach⟩ := hf.root hx
    obtain ⟨hrmem, hreach'⟩ := hclimb hx hreach
    exact ⟨r, (hparent hrmem).trans hr, hreach'⟩
  refine ⟨fun {x q} hx hq => ?_, fun {x q} hq hx => ?_, fun {q} hq => ?_, fun {x} hx hs => ?_,
    fun {a} ha => ?_, fun {c} hc => ?_, fun {x} hx => ?_⟩
  · rcases hmem.mp hx with rfl | hx
    · rw [h.above] at hq
      obtain rfl := Option.some.inj hq
      exact ⟨hmem.mpr (.inr hp), (hkids hp).mpr (.inl ⟨rfl, rfl⟩)⟩
    · rw [hparent hx] at hq
      obtain ⟨h1, h2⟩ := hf.parent hx hq
      exact ⟨hmem.mpr (.inr h1), (hkids h1).mpr (.inr h2)⟩
  · rcases hmem.mp hq with rfl | hq
    · rw [h.childless] at hx
      exact absurd hx not_mem_nil
    · rcases (hkids hq).mp hx with ⟨rfl, rfl⟩ | hx
      · exact ⟨hmem.mpr (.inl rfl), h.above⟩
      · obtain ⟨h1, h2⟩ := hf.child hq hx
        exact ⟨hmem.mpr (.inr h1), (hparent h1).trans h2⟩
  · rcases hmem.mp hq with rfl | hq
    · rw [h.childless]
      exact nodup_nil
    · rw [h.children (hne hq)]
      split
      · exact nodup_cons.mpr ⟨fun hx => hchild (hf.child hq hx).1, hf.nodup hq⟩
      · exact hf.nodup hq
  · rcases hmem.mp hx with rfl | hx
    · exact absurd hs h.live
    have hzx := (h.zombie (hne hx)).mp hs
    have hxp : x ≠ p := fun he => hlive (he ▸ hzx)
    rw [h.children (hne hx), if_neg hxp]
    refine (hf.zombie hx hzx).imp_right fun ha => ?_
    rcases hinit with he | ⟨hnone, -⟩
    · exact he.trans ha
    · exact nomatch hnone.symm.trans ha
  · rw [h.cores, h.idleTask]
    rcases hinit with he | ⟨hnone, hfrom⟩
    · rw [he] at ha
      obtain ⟨h1, h2, h3⟩ := hf.init ha
      rw [(h.fields (hne h1)).1, hparent h1]
      exact ⟨hmem.mpr (.inr h1), h2, h3⟩
    · rcases h.initTask with he | ⟨he, hid⟩
      · exact nomatch (he.trans hnone).symm.trans ha
      · obtain rfl := Option.some.inj (he.symm.trans ha)
        refine ⟨hmem.mpr (.inl rfl), hid, fun q hq => ?_⟩
        obtain rfl := Option.some.inj (h.above.symm.trans hq)
        exact hfrom
  · rw [h.cores] at hc
    rw [h.idleTask, hparent (hidle c hc)]
    exact hf.idle hc
  · rcases hmem.mp hx with rfl | hx
    · obtain ⟨r, hr, hreach⟩ := hroot hp
      exact ⟨r, hr, .head h.above hreach⟩
    · exact hroot hx

end Tree

end RHKernel.Sched
