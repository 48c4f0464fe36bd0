import RHKernel.Lib.Queues

/-!
# Families of intrusive doubly linked lists

Nodes carry a `next` and a `prev` pointer; a list is a head pointer. `Linked L p h l` says that
following `next` from `h` visits exactly the nodes `l`, with matching `prev` pointers, the first
of which is `p`.

Several lists live on the same nodes' pointers. `Lists L head mem` says that the head pointers
`head i` represent the pairwise disjoint lists `mem i`. The two operations, unlinking a node
(`Links.remove`) and pushing one at the front (`Links.push`), rewrite the pointers of the node
and of its neighbours only, so all other lists of the family stay as they are.
-/

namespace RHKernel.DList

open Function List Option

variable {α ι : Type*} {p h : Option α} {l : List α} {a b : α}

/-- The two pointers of every node. -/
structure Links (α : Type*) where
  next : α → Option α
  prev : α → Option α

variable {L L' : Links α}

/-- Following `next` from `h` visits `l`; the node before the first one is `p`. -/
def Linked (L : Links α) : Option α → Option α → List α → Prop
  | _, h, [] => h = none
  | p, h, a :: l => h = some a ∧ L.prev a = p ∧ Linked L (some a) (L.next a) l

theorem Linked.congr (hl : Linked L p h l) (hnext : ∀ x ∈ l, L'.next x = L.next x)
    (hprev : ∀ x ∈ l, L'.prev x = L.prev x) : Linked L' p h l := by
  induction l generalizing p h with
  | nil => exact hl
  | cons a l ih =>
    obtain ⟨hh, hp, hrest⟩ := hl
    refine ⟨hh, (hprev a mem_cons_self).trans hp, ?_⟩
    rw [hnext a mem_cons_self]
    exact ih hrest (fun x hx => hnext x (mem_cons_of_mem _ hx))
      fun x hx => hprev x (mem_cons_of_mem _ hx)

theorem Linked.head_eq (hl : Linked L p h l) : h = l.head? := by
  cases l with
  | nil => exact hl
  | cons a l => exact hl.1

theorem Linked.next_mem (hl : Linked L p h l) (ha : a ∈ l) (hab : L.next a = some b) : b ∈ l := by
  induction l generalizing p h with
  | nil => exact absurd ha not_mem_nil
  | cons c l ih =>
    obtain ⟨-, -, hrest⟩ := hl
    rcases mem_cons.mp ha with rfl | ha
    · cases l with
      | nil => exact absurd (hrest.symm.trans hab) nofun
      | cons d l =>
        obtain rfl : d = b := some.inj (hrest.1.symm.trans hab)
        exact mem_cons_of_mem _ mem_cons_self
    · exact mem_cons_of_mem _ (ih hrest ha)

/-- The predecessor of a node of the list is in the list, or before it. -/
theorem Linked.prev_mem (hl : Linked L p h l) (ha : a ∈ l) (hab : L.prev a = some b) :
    p = some b ∨ b ∈ l := by
  induction l generalizing p h with
  | nil => exact absurd ha not_mem_nil
  | cons c l ih =>
    obtain ⟨-, hp, hrest⟩ := hl
    rcases mem_cons.mp ha with rfl | ha
    · exact .inl (hp.symm.trans hab)
    right
    rcases ih hrest ha with hc | hb
    · rw [some.inj hc]
      exact mem_cons_self
    · exact mem_cons_of_mem _ hb

/-- The heads represent pairwise disjoint lists. -/
structure Lists (L : Links α) (head : ι → Option α) (mem : ι → List α) : Prop where
  linked : ∀ i, Linked L none (head i) (mem i)
  nodup : ∀ i, (mem i).Nodup
  disjoint : ∀ {i j a}, a ∈ mem i → a ∈ mem j → i = j

theorem Lists.apart {head : ι → Option α} {mem : ι → List α} (h : Lists L head mem) :
    Queues.Apart mem := ⟨h.nodup, h.disjoint⟩

theorem Lists.head_eq {head : ι → Option α} {mem : ι → List α} (h : Lists L head mem) (i : ι) :
    head i = (mem i).head? := (h.linked i).head_eq

theorem Lists.head_mem {head : ι → Option α} {mem : ι → List α} (h : Lists L head mem) {i : ι}
    (ha : head i = some a) : a ∈ mem i := by
  rw [h.head_eq] at ha
  exact mem_of_head? ha

/-! ### Unlinking and pushing -/

variable [DecidableEq α]

/-- Unlinks a node: its neighbours point past it, its own pointers become null. -/
def Links.remove (L : Links α) (a : α) : Links α where
  next x := if x = a then none else if L.prev a = some x then L.next a else L.next x
  prev x := if x = a then none else if L.next a = some x then L.prev a else L.prev x

/-- Pushes a node in front of `head`. -/
def Links.push (L : Links α) (head : Option α) (a : α) : Links α where
  next x := if x = a then head else L.next x
  prev x := if x = a then none else if head = some x then some a else L.prev x

private theorem Linked.remove_head (hl : Linked L p (some a) (a :: l)) (hnd : (a :: l).Nodup)
    (hp : ∀ x, p = some x → x ∉ a :: l) : Linked (L.remove a) p (L.next a) l := by
  obtain ⟨-, hprev, hrest⟩ := hl
  cases l with
  | nil => exact hrest
  | cons b l =>
    obtain ⟨hnext, hbprev, hrest⟩ := hrest
    rw [nodup_cons, nodup_cons] at hnd
    have hba : b ≠ a := fun h => hnd.1 (h ▸ mem_cons_self)
    have hpb : L.prev a ≠ some b := fun h =>
      hp b (hprev.symm.trans h) (mem_cons_of_mem _ mem_cons_self)
    refine ⟨hnext, ?_, ?_⟩
    · simp only [Links.remove, hba, if_false, hnext, if_true, hprev]
    have hbnext : (L.remove a).next b = L.next b := by
      simp only [Links.remove, hba, if_false, hpb]
    rw [hbnext]
    -- the nodes behind the second one are not neighbours of `a`
    refine hrest.congr (fun x hx => ?_) fun x hx => ?_
    · have hxa : x ≠ a := fun h => hnd.1 (h ▸ mem_cons_of_mem _ hx)
      have hpx : L.prev a ≠ some x := fun h =>
        hp x (hprev.symm.trans h) (mem_cons_of_mem _ (mem_cons_of_mem _ hx))
      simp only [Links.remove, hxa, if_false, hpx]
    · have hxa : x ≠ a := fun h => hnd.1 (h ▸ mem_cons_of_mem _ hx)
      have hnx : L.next a ≠ some x := fun h =>
        hnd.2.1 (some.inj (hnext.symm.trans h) ▸ hx)
      simp only [Links.remove, hxa, if_false, hnx]

theorem Linked.remove (hl : Linked L p h l) (hnd : l.Nodup) (ha : a ∈ l)
    (hp : ∀ x, p = some x → x ∉ l) :
    Linked (L.remove a) p (if h = some a then L.next a else h) (l.erase a) := by
  induction l generalizing p h with
  | nil => exact absurd ha not_mem_nil
  | cons b l ih =>
    by_cases hba : b = a
    · subst hba
      have hhead := hl.1
      subst hhead
      rw [if_pos rfl, erase_cons_head]
      exact hl.remove_head hnd hp
    obtain ⟨hh, hprev, hrest⟩ := hl
    have hal : a ∈ l := (mem_cons.mp ha).resolve_left (Ne.symm hba)
    rw [nodup_cons] at hnd
    have hne : h ≠ some a := fun he => hba (some.inj (hh.symm.trans he))
    rw [if_neg hne, erase_cons_tail (by simpa using hba)]
    refine ⟨hh, ?_, ?_⟩
    · have hnb : L.next a ≠ some b := fun he => hnd.1 (hrest.next_mem hal he)
      simp only [Links.remove, hba, if_false, hnb, hprev]
    have hih := ih hrest hnd.2 hal fun x hx => some.inj hx ▸ hnd.1
    -- `b` precedes `a` exactly when `a` comes first behind `b`
    have hiff : L.prev a = some b ↔ L.next b = some a := by
      cases l with
      | nil => exact absurd hal not_mem_nil
      | cons c l =>
        obtain ⟨hc, hcprev, hrest⟩ := hrest
        rw [nodup_cons] at hnd
        rcases mem_cons.mp hal with rfl | hal
        · exact ⟨fun _ => hc, fun _ => hcprev⟩
        constructor
        · intro he
          rcases hrest.prev_mem hal he with hcb | hbl
          · exact absurd (some.inj hcb ▸ mem_cons_self) hnd.1
          · exact absurd (mem_cons_of_mem _ hbl) hnd.1
        · intro he
          obtain rfl : c = a := some.inj (hc.symm.trans he)
          exact absurd hal hnd.2.1
    have hnext : (L.remove a).next b = if L.next b = some a then L.next a else L.next b := by
      simp only [Links.remove, hba, if_false, hiff]
    rw [hnext]
    exact hih

/-! ### The operations on a family -/

namespace Lists

variable [DecidableEq ι] {head : ι → Option α} {mem : ι → List α} {i j : ι}

theorem remove (h : Lists L head mem) (ha : a ∈ mem i) :
    Lists (L.remove a) (update head i (if head i = some a then L.next a else head i))
      (update mem i ((mem i).erase a)) := by
  have hap := h.apart.shrink (erase_sublist (a := a) (l := mem i))
  refine ⟨fun j => ?_, hap.nodup, hap.disjoint⟩
  by_cases hj : j = i
  · subst hj
    rw [update_self, update_self]
    exact (h.linked j).remove (h.nodup j) ha fun x hx => by cases hx
  rw [update_of_ne hj, update_of_ne hj]
  refine (h.linked j).congr (fun x hx => ?_) fun x hx => ?_
  · have hxa : x ≠ a := fun he => hj (h.disjoint (he ▸ hx) ha)
    have hpx : L.prev a ≠ some x := fun he =>
      ((h.linked i).prev_mem ha he).elim nofun fun hxi => hj (h.disjoint hx hxi)
    simp only [Links.remove, hxa, if_false, hpx]
  · have hxa : x ≠ a := fun he => hj (h.disjoint (he ▸ hx) ha)
    have hnx : L.next a ≠ some x := fun he =>
      hj (h.disjoint hx ((h.linked i).next_mem ha he))
    simp only [Links.remove, hxa, if_false, hnx]

/-- A node that is not first is unlinked without its head: the head stays right. -/
theorem remove_of_not_head (h : Lists L head mem) (ha : a ∈ mem i) (hne : head i ≠ some a) :
    Lists (L.remove a) head (update mem i ((mem i).erase a)) := by
  have hr := h.remove ha
  rwa [if_neg hne, update_eq_self] at hr

theorem push (h : Lists L head mem) (i : ι) (ha : ∀ j, a ∉ mem j) :
    Lists (L.push (head i) a) (update head i (some a)) (update mem i (a :: mem i)) := by
  have hap := h.apart.insert (.refl (a :: mem i)) ha
  refine ⟨fun j => ?_, hap.nodup, hap.disjoint⟩
  by_cases hj : j = i
  · subst hj
    rw [update_self, update_self]
    refine ⟨rfl, by simp [Links.push], ?_⟩
    have hnext : (L.push (head j) a).next a = head j := by simp [Links.push]
    rw [hnext]
    have hl := h.linked j
    have hnd := h.nodup j
    cases hmem : mem j with
    | nil =>
      rw [hmem] at hl
      exact hl
    | cons b l =>
      rw [hmem] at hl hnd
      obtain ⟨hh, -, hrest⟩ := hl
      have hne : ∀ x ∈ b :: l, x ≠ a := fun x hx he => ha j (by rw [hmem, ← he]; exact hx)
      refine ⟨hh, ?_, ?_⟩
      · simp only [Links.push, hne b mem_cons_self, if_false, hh, if_true]
      have hbnext : (L.push (head j) a).next b = L.next b := by
        simp only [Links.push, hne b mem_cons_self, if_false]
      rw [hbnext]
      refine hrest.congr (fun x hx => ?_) fun x hx => ?_
      · simp only [Links.push, hne x (mem_cons_of_mem _ hx), if_false]
      · have hhx : head j ≠ some x := fun he =>
          (nodup_cons.mp hnd).1 (some.inj (hh.symm.trans he) ▸ hx)
        simp only [Links.push, hne x (mem_cons_of_mem _ hx), if_false, hhx]
  · rw [update_of_ne hj, update_of_ne hj]
    refine (h.linked j).congr (fun x hx => ?_) fun x hx => ?_
    · have hxa : x ≠ a := fun he => ha j (he ▸ hx)
      simp only [Links.push, hxa, if_false]
    · have hxa : x ≠ a := fun he => ha j (he ▸ hx)
      have hhx : head i ≠ some x := fun he => hj (h.disjoint hx (h.head_mem he))
      simp only [Links.push, hxa, if_false, hhx]

theorem mem_remove_iff (h : Lists L head mem) (ha : a ∈ mem i) :
    b ∈ update mem i ((mem i).erase a) j ↔ b ≠ a ∧ b ∈ mem j := h.apart.mem_erase_iff ha

omit [DecidableEq α] in
theorem mem_push_iff : b ∈ update mem i (a :: mem i) j ↔ (b = a ∧ j = i) ∨ b ∈ mem j :=
  Queues.mem_insert_iff (.refl _)

end Lists

end RHKernel.DList
