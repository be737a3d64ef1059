import Mathlib.Data.List.Basic

/-!
# Bounded queues

`Fifo α cap` is the abstract queue of at most `cap` elements: `deq` removes its head and `enq`
appends the longest prefix of its argument that fits. `exec` runs a list of operations and collects
what they remove and what they append, and `exec_conservation` says that nothing is lost, duplicated
or reordered: what was removed, followed by what is left, is what was there, followed by what was
appended.
-/

/-- A queue of at most `cap` elements, head first. -/
@[ext]
structure Fifo (α : Type*) (cap : ℕ) where
  /-- The elements, head first. -/
  items : List α
  /-- The queue is within its capacity. -/
  length_le : items.length ≤ cap

namespace Fifo

variable {α : Type*} {cap : ℕ}

/-- The queue without elements. -/
def empty : Fifo α cap := ⟨[], Nat.zero_le _⟩

/-- The number of elements that still fit. -/
def room (q : Fifo α cap) : ℕ := cap - q.items.length

/-- The head, with the queue that is left, when the queue is not empty. -/
def deq (q : Fifo α cap) : Option (α × Fifo α cap) :=
  match hq : q.items with
  | [] => none
  | x :: xs => some (x, ⟨xs, by have := q.length_le; rw [hq, List.length_cons] at this; omega⟩)

/-- The queue with the longest prefix of `xs` that fits appended. -/
def enq (q : Fifo α cap) (xs : List α) : Fifo α cap :=
  ⟨q.items ++ xs.take q.room, by
    have := q.length_le
    rw [List.length_append, List.length_take, room]
    omega⟩

/-- An operation on a queue. -/
inductive Op (α : Type*)
  /-- Remove the head. -/
  | deq
  /-- Append the longest prefix that fits. -/
  | enq (xs : List α)

/-- The queue after an operation, with the elements that it removed and those that it appended. -/
def step (q : Fifo α cap) : Op α → List α × List α × Fifo α cap
  | .deq =>
    match q.deq with
    | none => ([], [], q)
    | some (x, q') => ([x], [], q')
  | .enq xs => ([], xs.take q.room, q.enq xs)

/-- The queue after a list of operations, with all elements that they removed and appended. -/
def exec (q : Fifo α cap) : List (Op α) → List α × List α × Fifo α cap
  | [] => ([], [], q)
  | op :: ops =>
    let (out, inn, q') := q.step op
    let (outs, inns, q'') := q'.exec ops
    (out ++ outs, inn ++ inns, q'')

/-- An empty queue has no head. -/
theorem deq_of_nil {q : Fifo α cap} (h : q.items = []) : q.deq = none := by
  obtain ⟨items, hle⟩ := q
  cases h
  rfl

/-- The head of a nonempty queue, and the rest. -/
theorem deq_of_cons {q : Fifo α cap} {x : α} {xs : List α} (h : q.items = x :: xs) :
    ∃ q', q.deq = some (x, q') ∧ q'.items = xs := by
  obtain ⟨items, hle⟩ := q
  cases h
  exact ⟨_, rfl, rfl⟩

/-- One operation conserves the elements and their order. -/
theorem step_conservation (q : Fifo α cap) (op : Op α) :
    (q.step op).1 ++ (q.step op).2.2.items = q.items ++ (q.step op).2.1 := by
  cases op with
  | deq =>
    rcases hq : q.items with _ | ⟨x, xs⟩
    · simp [step, deq_of_nil hq, hq]
    · obtain ⟨q', hd, hitems⟩ := deq_of_cons hq
      simp [step, hd, hitems]
  | enq xs => simp [step, enq]

/-- Along any run, the elements removed, in order, followed by those left, are the elements at the
start followed by those appended, in order. -/
theorem exec_conservation (q : Fifo α cap) (ops : List (Op α)) :
    (q.exec ops).1 ++ (q.exec ops).2.2.items = q.items ++ (q.exec ops).2.1 := by
  induction ops generalizing q with
  | nil => simp [exec]
  | cons op ops ih =>
    -- The first operation, then the rest from the queue that it leaves.
    have hstep := q.step_conservation op
    have hrest := ih (q.step op).2.2
    simp only [exec]
    calc ((q.step op).1 ++ ((q.step op).2.2.exec ops).1) ++ ((q.step op).2.2.exec ops).2.2.items
        = (q.step op).1 ++ ((q.step op).2.2.items ++ ((q.step op).2.2.exec ops).2.1) := by
          rw [List.append_assoc, hrest]
      _ = (q.items ++ (q.step op).2.1) ++ ((q.step op).2.2.exec ops).2.1 := by
          rw [← List.append_assoc, hstep]
      _ = q.items ++ ((q.step op).2.1 ++ ((q.step op).2.2.exec ops).2.1) := List.append_assoc _ _ _

end Fifo
