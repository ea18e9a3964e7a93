import Mathlib

/-!
A min-priority queue kept as its elements in nondecreasing order, so that the front is a
least element. This is the contract of a binary heap of `Reverse` entries: `push` adds an
element, `peek` shows a least one and `pop` removes it. The array layout of a heap is not
modelled; nothing that uses the queue can observe it.

Also the sorted list that repeated `peek` and `pop` produce, as an `insertionSort`.
-/

set_option autoImplicit false

structure MinQueue (α : Type*) [LinearOrder α] where
  items : List α
  sorted : items.Pairwise (· ≤ ·)

namespace MinQueue

open List

variable {α : Type*} [LinearOrder α]

def empty : MinQueue α := ⟨[],Pairwise.nil⟩

def push (x : α) (q : MinQueue α) : MinQueue α :=
  ⟨q.items.orderedInsert (· ≤ ·) x,q.sorted.orderedInsert x _⟩

def peek (q : MinQueue α) : Option α := q.items.head?

def pop (q : MinQueue α) : MinQueue α := ⟨q.items.tail,q.sorted.tail⟩

def size (q : MinQueue α) : ℕ := q.items.length

variable {q : MinQueue α} {x y top : α}

@[simp] theorem items_empty : (empty : MinQueue α).items = [] := rfl

@[simp] theorem mem_push : x ∈ (q.push y).items ↔ x = y ∨ x ∈ q.items :=
  mem_orderedInsert _

theorem peek_eq_some (h : q.peek = some top) : q.items = top :: q.pop.items := by
  obtain ⟨rest,hrest⟩ := head?_eq_some_iff.1 h
  simp [pop,hrest]

theorem peek_eq_none : q.peek = none ↔ q.items = [] := head?_eq_none_iff

theorem mem_of_peek (h : q.peek = some top) : top ∈ q.items := by
  rw [peek_eq_some h]
  exact mem_cons_self

/-- The front is a least element. -/
theorem peek_le (h : q.peek = some top) (hx : x ∈ q.items) : top ≤ x := by
  have hs := q.sorted
  rw [peek_eq_some h] at hs hx
  rcases mem_cons.1 hx with rfl | hx
  · exact le_rfl
  · exact rel_of_pairwise_cons hs hx

theorem mem_of_mem_pop (hx : x ∈ q.pop.items) : x ∈ q.items :=
  mem_of_mem_tail hx

/-- `pop` removes the front and nothing else. -/
theorem mem_pop (h : q.peek = some top) (hx : x ∈ q.items) (hne : x ≠ top) : x ∈ q.pop.items := by
  rw [peek_eq_some h] at hx
  exact (mem_cons.1 hx).resolve_left hne

theorem size_pop_lt (h : q.peek = some top) : q.pop.size < q.size := by
  simp only [size]
  rw [peek_eq_some h,length_cons]
  exact Nat.lt_succ_self _

/-! ### Sorting into the order of the queue -/

theorem insertionSort_eq_of_perm {l₁ l₂ : List α} (h : l₁.Perm l₂) :
    l₁.insertionSort (· ≤ ·) = l₂.insertionSort (· ≤ ·) :=
  Perm.eq_of_pairwise (fun _ _ _ _ => le_antisymm) (pairwise_insertionSort _ _)
    (pairwise_insertionSort _ _) ((perm_insertionSort _ _).trans (h.trans (perm_insertionSort _ _).symm))

/-- A least element sorts first. -/
theorem insertionSort_cons_of_le {l : List α} (h : ∀ y ∈ l, x ≤ y) :
    (x :: l).insertionSort (· ≤ ·) = x :: l.insertionSort (· ≤ ·) := by
  rw [insertionSort_cons]
  rcases hs : l.insertionSort (· ≤ ·) with _ | ⟨y,rest⟩
  · rfl
  · have hy : y ∈ l := (perm_insertionSort _ l).subset (by rw [hs]; exact mem_cons_self)
    simp [orderedInsert_cons,h y hy]

end MinQueue
