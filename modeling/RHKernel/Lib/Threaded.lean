import Mathlib.Data.List.Nodup

/-!
# Lists in a table of links

A table says for every element whether it is followed by another one, is the last one of its list,
or belongs to no list. `Threaded t l` says that the table holds the list `l`. A list depends on the
links of its own elements only, so that elements of other lists can be linked at will; it can be
continued by an element that is in no list, and cut off behind any of its elements.
-/

namespace RHKernel

open List

variable {α : Type*} {t t' : α → Option (Option α)} {l : List α} {a b : α} {i : ℕ}

/-- The elements of the list follow each other in the table, and the last one is marked as such. -/
def Threaded (t : α → Option (Option α)) : List α → Prop
  | [] => True
  | [a] => t a = some none
  | a :: b :: l => t a = some (some b) ∧ Threaded t (b :: l)

namespace Threaded

theorem tail (h : Threaded t (a :: l)) : Threaded t l := by
  cases l with
  | nil => trivial
  | cons b l => exact h.2

variable (h : Threaded t l)

include h

theorem ne_none (ha : a ∈ l) : t a ≠ none := by
  induction l with
  | nil => exact absurd ha not_mem_nil
  | cons c l ih =>
    obtain rfl | ha := mem_cons.mp ha
    · cases l with
      | nil =>
        rw [show t a = some none from h]
        exact Option.some_ne_none _
      | cons b l =>
        rw [h.1]
        exact Option.some_ne_none _
    · exact ih h.tail ha

theorem get (ha : l[i]? = some a) : t a = some l[i + 1]? := by
  induction l generalizing i with
  | nil =>
    exact absurd ha (Option.some_ne_none a).symm
  | cons c l ih =>
    cases i with
    | zero =>
      rw [getElem?_cons_zero, Option.some.injEq] at ha
      obtain rfl := ha
      cases l with
      | nil => exact h
      | cons b l => exact h.1
    | succ i => exact ih h.tail ha

theorem congr (ht : ∀ a ∈ l, t' a = t a) : Threaded t' l := by
  induction l with
  | nil => trivial
  | cons a l ih =>
    have hl := ih h.tail fun b hb => ht b (mem_cons_of_mem a hb)
    cases l with
    | nil => exact (ht a mem_cons_self).trans h
    | cons b l => exact ⟨(ht a mem_cons_self).trans h.1, hl⟩

theorem take (ha : l[i]? = some a) (hlast : t' a = some none)
    (ht : ∀ b ∈ l.take i, t' b = t b) : Threaded t' (l.take (i + 1)) := by
  induction l generalizing i with
  | nil => trivial
  | cons c l ih =>
    cases i with
    | zero =>
      rw [getElem?_cons_zero, Option.some.injEq] at ha
      exact ha ▸ hlast
    | succ i =>
      have hc := ht c mem_cons_self
      have hrest := ih h.tail ha fun b hb => ht b (mem_cons_of_mem c hb)
      cases l with
      | nil =>
        exact absurd ha (Option.some_ne_none a).symm
      | cons b l => exact ⟨hc.trans h.1, hrest⟩

theorem drop (i : ℕ) : Threaded t (l.drop i) := by
  induction l generalizing i with
  | nil =>
    rw [drop_nil]
    trivial
  | cons a l ih =>
    cases i with
    | zero => exact h
    | succ i => exact ih h.tail i

theorem append (hl : l.Nodup) (hlast : ∀ a ∈ l.getLast?, t' a = some (some b))
    (hb : t' b = some none) (ht : ∀ a ∈ l, a ∉ l.getLast? → t' a = t a) :
    Threaded t' (l ++ [b]) := by
  induction l with
  | nil => exact hb
  | cons a l ih =>
    obtain ⟨hnot, hl'⟩ := nodup_cons.mp hl
    cases l with
    | nil => exact ⟨hlast a rfl, hb⟩
    | cons c l =>
      have hlast' : (a :: c :: l).getLast? = (c :: l).getLast? := rfl
      have ha : a ∉ (c :: l).getLast? := fun hm => hnot (mem_of_getLast? hm)
      exact ⟨(ht a mem_cons_self ha).trans h.1,
        ih h.tail hl' hlast fun x hx => ht x (mem_cons_of_mem a hx)⟩

end Threaded

end RHKernel
