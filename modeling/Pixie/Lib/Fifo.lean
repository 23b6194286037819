/-
  First in, first out.

  A `Fifo` is a queue with its history: all that was ever pushed, all that was ever popped, and what is
  left.  The law is a field of the structure, so whatever implements a `Fifo` step by step has put out,
  in order, what was put in (`Fifo.popped_prefix`).
-/
import Mathlib.Data.List.Infix

namespace Pixie.Queueing

structure Fifo (α : Type) where
  pushed : List α
  popped : List α
  queue : List α
  conserved : popped ++ queue = pushed

namespace Fifo

variable {α : Type}

def empty : Fifo α := ⟨[], [], [], rfl⟩

def push (q : Fifo α) (xs : List α) : Fifo α where
  pushed := q.pushed ++ xs
  popped := q.popped
  queue := q.queue ++ xs
  conserved := by rw [← List.append_assoc, q.conserved]

def pop (q : Fifo α) (n : Nat) : Fifo α where
  pushed := q.pushed
  popped := q.popped ++ q.queue.take n
  queue := q.queue.drop n
  conserved := by rw [List.append_assoc, List.take_append_drop, q.conserved]

/-- **What has come out is what went in**, from the first element on. -/
theorem popped_prefix (q : Fifo α) : q.popped <+: q.pushed := ⟨q.queue, q.conserved⟩

theorem length_pushed (q : Fifo α) : q.pushed.length = q.popped.length + q.queue.length := by
  rw [← q.conserved, List.length_append]

theorem queue_eq_drop (q : Fifo α) : q.queue = q.pushed.drop q.popped.length := by
  rw [← q.conserved, List.drop_left]

end Fifo

end Pixie.Queueing
