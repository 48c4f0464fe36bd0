import Mathlib.Tactic.Common

/-!
# Doubly linked lists with data

A node has a value and two pointers. `Joined At prev next l` says that the pointers and values `l`
are the nodes of a segment of a doubly linked list, between the pointers `prev` and `next`, where
`At p nd` reads the node `nd` at the pointer `p`. The segment can be cut at any place, and a change
of the memory that keeps its nodes, or changes a pointer at one of its ends, keeps the segment.
-/

namespace RHKernel

/-- A value with the pointers to the neighbours. -/
structure Node (ι α : Type*) where
  val : α
  next : Option ι
  prev : Option ι
  deriving DecidableEq

namespace Chain

variable {ι α : Type*} {At At' : ι → Node ι α → Prop} {prev next p : Option ι}
  {l l' : List (ι × α)}

/-- The pointer to the first node, or the pointer behind an empty segment. -/
def first (l : List (ι × α)) (next : Option ι) : Option ι := (l.head?.map Prod.fst).or next

/-- The pointer to the last node, or the pointer before an empty segment. -/
def last : List (ι × α) → Option ι → Option ι
  | [], prev => prev
  | x :: l, _ => last l (some x.1)

@[simp] theorem first_nil (next : Option ι) : first ([] : List (ι × α)) next = next := rfl

@[simp] theorem first_cons (x : ι × α) (l : List (ι × α)) (next : Option ι) :
    first (x :: l) next = some x.1 := rfl

theorem first_append (l l' : List (ι × α)) (next : Option ι) :
    first (l ++ l') next = first l (first l' next) := by
  cases l <;> rfl

theorem last_concat (l : List (ι × α)) (x : ι × α) (prev : Option ι) :
    last (l ++ [x]) prev = some x.1 := by
  induction l generalizing prev with
  | nil => rfl
  | cons y l ih => exact ih (some y.1)

/-- The nodes of `l` are linked in this order. -/
def Joined (At : ι → Node ι α → Prop) : Option ι → Option ι → List (ι × α) → Prop
  | _, _, [] => True
  | prev, next, x :: l => At x.1 ⟨x.2, first l next, prev⟩ ∧ Joined At (some x.1) next l

theorem joined_append : Joined At prev next (l ++ l') ↔
    Joined At prev (first l' next) l ∧ Joined At (last l prev) next l' := by
  induction l generalizing prev with
  | nil => exact (and_iff_right trivial).symm
  | cons x l ih =>
    rw [List.cons_append, Joined, Joined, ih, first_append, last, and_assoc]

theorem Joined.exists_at (h : Joined At prev next l) {x : ι × α} (hx : x ∈ l) :
    ∃ nd, At x.1 nd ∧ nd.val = x.2 := by
  induction l generalizing prev with
  | nil => exact absurd hx List.not_mem_nil
  | cons y l ih =>
    rcases List.mem_cons.mp hx with rfl | hx
    · exact ⟨_, h.1, rfl⟩
    · exact ih h.2 hx

theorem Joined.mono (h : Joined At prev next l) (hk : ∀ x ∈ l, ∀ nd, At x.1 nd → At' x.1 nd) :
    Joined At' prev next l := by
  induction l generalizing prev with
  | nil => trivial
  | cons x l ih =>
    exact ⟨hk x List.mem_cons_self _ h.1, ih h.2 fun y hy => hk y (List.mem_cons_of_mem x hy)⟩

theorem Joined.reprev (h : Joined At prev next l)
    (hfirst : ∀ x ∈ l.head?, ∀ nd, At x.1 nd → At' x.1 { nd with prev := p })
    (hk : ∀ x ∈ l.tail, ∀ nd, At x.1 nd → At' x.1 nd) : Joined At' p next l := by
  cases l with
  | nil => trivial
  | cons x l => exact ⟨hfirst x rfl _ h.1, h.2.mono hk⟩

end Chain

end RHKernel
