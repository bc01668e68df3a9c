import Mathlib

/-! # Priority queues

A heap with a comparator `less` gives out its greatest element first; elements that are equally
great are equal here. So a queue is the list of its elements in the order in which they will come
out, and that this list is sorted is part of the type.
-/
namespace ItchIngestion.Library
set_option autoImplicit false

/-- `a` may come out before `b`. -/
def NotLess {α : Type} (less : α → α → Prop) (a b : α) : Prop := ¬ less a b

/-- The elements in an order in which they may come out. -/
structure PriorityQueue {α : Type} (less : α → α → Prop) where
  items : List α
  sorted : items.Pairwise (NotLess less)

namespace PriorityQueue
variable {α : Type} {less : α → α → Prop}

def empty : PriorityQueue less := ⟨[], List.Pairwise.nil⟩

/-- The greatest element. -/
def top (q : PriorityQueue less) : Option α := q.items.head?

def pop (q : PriorityQueue less) : PriorityQueue less := ⟨q.items.tail, q.sorted.tail⟩

def size (q : PriorityQueue less) : ℕ := q.items.length

instance : Membership α (PriorityQueue less) := ⟨fun q a => a ∈ q.items⟩

@[simp] theorem notMem_empty (a : α) : a ∉ (empty : PriorityQueue less) := List.not_mem_nil

theorem notMem_of_top_eq_none {q : PriorityQueue less} (h : q.top = none) (a : α) : a ∉ q := by
  have hnil : q.items = [] := List.head?_eq_none_iff.mp h
  intro ha
  have hmem : a ∈ q.items := ha
  rw [hnil] at hmem
  cases hmem

section Top
variable {q : PriorityQueue less} {a : α} (h : q.top = some a)
include h

theorem items_eq_cons : q.items = a :: q.pop.items := (List.cons_head?_tail h).symm

theorem mem_iff_top_or_pop {b : α} : b ∈ q ↔ b = a ∨ b ∈ q.pop := by
  have hitems : b ∈ q ↔ b ∈ a :: q.pop.items := by rw [← items_eq_cons h]; rfl
  rw [hitems, List.mem_cons]
  rfl

/-- The rule of the comparator: nothing in the queue is greater than its top. -/
theorem not_less_of_top {b : α} (hb : b ∈ q.pop) : ¬ less a b := by
  have hs := q.sorted
  rw [items_eq_cons h] at hs
  exact (List.pairwise_cons.mp hs).1 b hb

theorem size_pop_lt : q.pop.size < q.size := by
  rw [size, size, items_eq_cons h, List.length_cons]
  exact Nat.lt_succ_self _

end Top

section Push
variable [DecidableRel less] [IsStrictTotalOrder α less]

instance : DecidableRel (NotLess less) := fun a b => inferInstanceAs (Decidable (¬ less a b))

instance : IsTrans α (NotLess less) where
  trans a b c hab hbc hac := by
    rcases trichotomous_of less b c with h | h | h
    · exact hbc h
    · exact hab (h ▸ hac)
    · exact hab (IsTrans.trans _ _ _ hac h)

instance : Std.Total (NotLess less) where
  total a b := by
    by_cases h : less a b
    · exact Or.inr (asymm_of less h)
    · exact Or.inl h

/-- A new element, behind those that come out first. -/
def push (q : PriorityQueue less) (a : α) : PriorityQueue less :=
  ⟨q.items.orderedInsert (NotLess less) a, q.sorted.orderedInsert a _⟩

@[simp] theorem mem_push {q : PriorityQueue less} {a b : α} : b ∈ q.push a ↔ b = a ∨ b ∈ q :=
  List.mem_orderedInsert _

end Push

end PriorityQueue

end ItchIngestion.Library
