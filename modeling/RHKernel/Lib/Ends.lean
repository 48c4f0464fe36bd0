import RHKernel.Lib.DList

/-!
# Linked lists with both ends

A queue keeps a pointer to its last node beside the one to its first. `Links.append` links a node
behind the last one; together with `Links.remove` it moves the end pointers as the last entry of
the list moves. Nodes that are threaded by `next` alone, as on a stack, are a `Chain`.
-/

namespace RHKernel.DList

open Function List Option

variable {α ι : Type*}

/-- Following `next` from `h` visits `l`. -/
def Chain (next : α → Option α) : Option α → List α → Prop
  | h, [] => h = none
  | h, a :: l => h = some a ∧ Chain next (next a) l

/-- The node that `n` steps along `next` lead to. -/
def walk (next : α → Option α) (h : Option α) : ℕ → Option α
  | 0 => h
  | n + 1 => walk next (h.bind next) n

section Chains

variable {next next' : α → Option α} {h p : Option α} {l l₁ l₂ : List α}

theorem Linked.chain {L : Links α} (hl : Linked L p h l) : Chain L.next h l := by
  induction l generalizing p h with
  | nil => exact hl
  | cons a l ih => exact ⟨hl.1, ih hl.2.2⟩

theorem Chain.congr (hc : Chain next h l) (hnext : ∀ x ∈ l, next' x = next x) :
    Chain next' h l := by
  induction l generalizing h with
  | nil => exact hc
  | cons a l ih =>
    refine ⟨hc.1, ?_⟩
    rw [hnext a mem_cons_self]
    exact ih hc.2 fun x hx => hnext x (mem_cons_of_mem _ hx)

theorem Chain.head_eq (hc : Chain next h l) : h = l.head? := by
  cases l with
  | nil => exact hc
  | cons a l => exact hc.1

theorem Chain.walk_eq (hc : Chain next h l) (n : ℕ) : walk next h n = l[n]? := by
  induction l generalizing h n with
  | nil =>
    rw [show h = none from hc, getElem?_nil]
    induction n with
    | zero => rfl
    | succ n ih => exact ih
  | cons a l ih =>
    obtain ⟨rfl, hc⟩ := hc
    cases n with
    | zero => rfl
    | succ n =>
      exact ih hc n

/-- Walking along a chain leads to its entries and nowhere else. -/
theorem Chain.walk_iff (hc : Chain next h l) {a : α} : (∃ n, walk next h n = some a) ↔ a ∈ l := by
  simp only [hc.walk_eq, mem_iff_getElem?]

theorem Chain.next_eq {a : α} (hc : Chain next h (l₁ ++ a :: l₂)) : next a = l₂.head? := by
  induction l₁ generalizing h with
  | nil => exact hc.2.head_eq
  | cons b l₁ ih => exact ih hc.2

/-- A chain from which the node behind `q` is taken. -/
theorem Chain.skip [DecidableEq α] {l₁ l₂ : List α} {q a : α}
    (hc : Chain next h (l₁ ++ q :: a :: l₂)) (hnd : (l₁ ++ q :: a :: l₂).Nodup) :
    Chain (update next q (next a)) h (l₁ ++ q :: l₂) := by
  induction l₁ generalizing h with
  | nil =>
    obtain ⟨rfl, -, hc⟩ := hc
    refine ⟨rfl, ?_⟩
    rw [update_self]
    refine hc.congr fun x hx => update_of_ne ?_ _ _
    rintro rfl
    exact (nodup_cons.mp hnd).1 (mem_cons_of_mem _ hx)
  | cons b l₁ ih =>
    obtain ⟨rfl, hc⟩ := hc
    rw [cons_append, nodup_cons] at hnd
    have hbq : b ≠ q := by
      rintro rfl
      exact hnd.1 (mem_append_right _ mem_cons_self)
    refine ⟨rfl, ?_⟩
    rw [update_of_ne hbq]
    exact ih hc hnd.2

end Chains

section Ends

variable {L L' : Links α} {p h tail : Option α} {l l₁ l₂ : List α} {a : α}

theorem Linked.split (hl : Linked L p h (l₁ ++ a :: l₂)) :
    L.prev a = l₁.getLast?.or p ∧ L.next a = l₂.head? := by
  refine ⟨?_, hl.chain.next_eq⟩
  induction l₁ generalizing p h with
  | nil => exact hl.2.1
  | cons b l₁ ih =>
    rw [ih hl.2.2, getLast?_cons]
    cases l₁.getLast? <;> rfl

theorem Linked.alone_iff (hl : Linked L none h l) (ha : a ∈ l) :
    L.next a = none ∧ L.prev a = none ↔ l = [a] := by
  obtain ⟨l₁, l₂, rfl⟩ := append_of_mem ha
  obtain ⟨hprev, hnext⟩ := hl.split
  rw [hprev, hnext, or_none, head?_eq_none_iff, getLast?_eq_none_iff]
  constructor
  · rintro ⟨rfl, rfl⟩
    rfl
  · intro he
    have hlen := congrArg List.length he
    simp only [length_append, length_cons, length_nil] at hlen
    exact ⟨eq_nil_of_length_eq_zero (by omega), eq_nil_of_length_eq_zero (by omega)⟩

theorem Linked.prev_eq_none_iff (hl : Linked L none h l) (hnd : l.Nodup) (ha : a ∈ l) :
    L.prev a = none ↔ h = some a := by
  obtain ⟨l₁, l₂, rfl⟩ := append_of_mem ha
  rw [hl.split.1, hl.head_eq, or_none, getLast?_eq_none_iff]
  cases l₁ with
  | nil => exact iff_of_true rfl rfl
  | cons b l₁ =>
    refine iff_of_false nofun fun he => ?_
    obtain rfl : b = a := some.inj he
    exact (nodup_cons.mp hnd).1 (mem_append_right _ mem_cons_self)

variable [DecidableEq α]

/-- The last entry after `a` has been unlinked. -/
theorem Linked.getLast?_erase (hl : Linked L none h l) (hnd : l.Nodup) (ha : a ∈ l) :
    (l.erase a).getLast? = if L.next a = none then L.prev a else l.getLast? := by
  obtain ⟨l₁, l₂, rfl⟩ := append_of_mem ha
  obtain ⟨hprev, hnext⟩ := hl.split
  have hal : a ∉ l₁ := fun h =>
    (nodup_append.mp hnd).2.2 a h a mem_cons_self rfl
  rw [erase_append_right _ hal, erase_cons_head, hprev, hnext, or_none]
  cases l₂ with
  | nil => rw [append_nil, head?_nil, if_pos rfl]
  | cons b l₂ => simp [getLast?_append]

/-- Links a node behind the last one. -/
def Links.append (L : Links α) (tail : Option α) (a : α) : Links α where
  next x := if x = a then none else if tail = some x then some a else L.next x
  prev x := if x = a then tail else L.prev x

theorem Linked.append (hl : Linked L p h l) (hnd : l.Nodup) (ha : a ∉ l)
    (htail : tail = l.getLast?.or p) :
    Linked (L.append tail a) p (if l = [] then some a else h) (l ++ [a]) := by
  induction l generalizing p h with
  | nil =>
    have hp : tail = p := htail
    refine ⟨rfl, ?_, ?_⟩
    · simp only [Links.append, if_true, hp]
    · simp only [Links.append, if_true, Linked]
  | cons b l ih =>
    obtain ⟨hh, hprev, hrest⟩ := hl
    obtain ⟨hbl, hnd⟩ := nodup_cons.mp hnd
    have hba : b ≠ a := fun he => ha (he ▸ mem_cons_self)
    have htail' : tail = l.getLast?.or (some b) := by
      rw [htail, getLast?_cons]
      cases l.getLast? <;> rfl
    have hih := ih hrest hnd (fun he => ha (mem_cons_of_mem _ he)) htail'
    refine ⟨hh, ?_, ?_⟩
    · simp only [Links.append, hba, if_false, hprev]
    -- `b` gets a new successor exactly when it was the last one
    have hnext : (L.append tail a).next b = if l = [] then some a else L.next b := by
      by_cases hl : l = []
      · subst hl
        have ht : tail = some b := htail'
        simp only [Links.append, hba, if_false, ht, if_true]
      have ht : tail ≠ some b := by
        rw [htail', getLast?_eq_some_getLast hl]
        intro he
        exact hbl (some.inj he ▸ getLast_mem hl)
      simp only [Links.append, hba, if_false, ht, hl]
    rw [hnext]
    exact hih

namespace Lists

variable [DecidableEq ι] {head : ι → Option α} {mem : ι → List α} {i : ι}

omit [DecidableEq α] [DecidableEq ι] in
theorem head_eq_none_iff (hl : Lists L head mem) : head i = none ↔ mem i = [] := by
  rw [hl.head_eq, head?_eq_none_iff]

omit [DecidableEq α] [DecidableEq ι] in
theorem congr (hl : Lists L head mem) (hnext : ∀ {i x}, x ∈ mem i → L'.next x = L.next x)
    (hprev : ∀ {i x}, x ∈ mem i → L'.prev x = L.prev x) : Lists L' head mem :=
  ⟨fun i => (hl.linked i).congr (fun _ hx => hnext hx) fun _ hx => hprev hx, hl.nodup, hl.disjoint⟩

/-- Unlinking a node moves the head if it has no predecessor. -/
theorem unlink (hl : Lists L head mem) (ha : a ∈ mem i) :
    Lists (L.remove a) (if L.prev a = none then update head i (L.next a) else head)
      (update mem i ((mem i).erase a)) := by
  have hiff := (hl.linked i).prev_eq_none_iff (hl.nodup i) ha
  by_cases hp : L.prev a = none
  · have hr := hl.remove ha
    rw [if_pos (hiff.mp hp)] at hr
    rwa [if_pos hp]
  · rw [if_neg hp]
    exact hl.remove_of_not_head ha (mt hiff.mpr hp)

/-- Unlinking a node moves the tail if it has no successor. -/
theorem unlink_tail (hl : Lists L head mem) (ha : a ∈ mem i) {tail : ι → Option α}
    (htail : ∀ j, tail j = (mem j).getLast?) (j : ι) :
    (if L.next a = none then update tail i (L.prev a) else tail) j =
      (update mem i ((mem i).erase a) j).getLast? := by
  have hlast := (hl.linked i).getLast?_erase (hl.nodup i) ha
  by_cases hj : j = i
  · subst hj
    rw [update_self, hlast]
    by_cases hn : L.next a = none
    · rw [if_pos hn, if_pos hn, update_self]
    · rw [if_neg hn, if_neg hn, htail]
  · rw [update_of_ne hj, ← htail]
    by_cases hn : L.next a = none
    · rw [if_pos hn, update_of_ne hj]
    · rw [if_neg hn]

theorem append (hl : Lists L head mem) (i : ι) (ha : ∀ j, a ∉ mem j) :
    Lists (L.append (mem i).getLast? a) (update head i (if head i = none then some a else head i))
      (update mem i (mem i ++ [a])) := by
  have hap := hl.apart.insert (perm_append_singleton a (mem i)) ha
  refine ⟨fun j => ?_, hap.nodup, hap.disjoint⟩
  by_cases hj : j = i
  · subst hj
    rw [update_self, update_self]
    have happ := (hl.linked j).append (hl.nodup j) (ha j) (or_none).symm
    simpa only [hl.head_eq_none_iff] using happ
  · rw [update_of_ne hj, update_of_ne hj]
    have hne : ∀ x ∈ mem j, x ≠ a := fun x hx he => ha j (he ▸ hx)
    refine (hl.linked j).congr (fun x hx => ?_) fun x hx => ?_
    · have hlast : (mem i).getLast? ≠ some x := fun he =>
        hj (hl.disjoint hx (mem_of_getLast? he))
      simp only [Links.append, hne x hx, if_false, hlast]
    · simp only [Links.append, hne x hx, if_false]

end Lists

end Ends

end RHKernel.DList
