import Mathlib.Data.List.Basic
import Mathlib.Order.Lattice

/-! # Bounded first-in first-out queues

A queue of capacity `capacity` that accepts and gives back items in batches. A batch
that does not fit is either refused whole or cut down to what fits. -/

namespace Restore

/-- Batches move whole or not at all, or as far as there is room. -/
inductive Batching
  | allOrNone
  | upTo
  deriving DecidableEq, Repr

/-- How many of `n` requested items move when `limit` could. -/
def Batching.moved (b : Batching) (n limit : ℕ) : ℕ :=
  match b with
  | .allOrNone => if n ≤ limit then n else 0
  | .upTo => min n limit

theorem Batching.moved_le_limit (b : Batching) (n limit : ℕ) : b.moved n limit ≤ limit := by
  cases b with
  | allOrNone => simp only [moved]; split <;> omega
  | upTo => exact Nat.min_le_right n limit

theorem Batching.moved_le_request (b : Batching) (n limit : ℕ) : b.moved n limit ≤ n := by
  cases b with
  | allOrNone => simp only [moved]; split <;> omega
  | upTo => exact Nat.min_le_left n limit

theorem Batching.moved_of_le (b : Batching) {n limit : ℕ} (h : n ≤ limit) :
    b.moved n limit = n := by
  cases b with
  | allOrNone => simp [moved, h]
  | upTo => exact Nat.min_eq_left h

/-- At most `capacity` items, oldest first. -/
structure Fifo (α : Type*) (capacity : ℕ) where
  items : List α
  bounded : items.length ≤ capacity

namespace Fifo

variable {α : Type*} {capacity : ℕ}

def empty : Fifo α capacity := ⟨[], Nat.zero_le _⟩

def room (q : Fifo α capacity) : ℕ := capacity - q.items.length

theorem room_le (q : Fifo α capacity) : q.room ≤ capacity := Nat.sub_le _ _

/-- The accepted prefix of `xs` goes to the back. -/
def enqueue (b : Batching) (q : Fifo α capacity) (xs : List α) : Fifo α capacity where
  items := q.items ++ xs.take (b.moved xs.length q.room)
  bounded := by
    have h := b.moved_le_limit xs.length q.room
    have hq := q.bounded
    simp only [List.length_append, List.length_take, room] at h ⊢
    omega

/-- The oldest items leave. -/
def dequeue (b : Batching) (q : Fifo α capacity) (n : ℕ) : Fifo α capacity where
  items := q.items.drop (b.moved n q.items.length)
  bounded := by
    have hq := q.bounded
    simp only [List.length_drop]
    omega

/-- The items that `dequeue` hands out. -/
def front (b : Batching) (q : Fifo α capacity) (n : ℕ) : List α :=
  q.items.take (b.moved n q.items.length)

theorem length_enqueue (b : Batching) (q : Fifo α capacity) (xs : List α) :
    (q.enqueue b xs).items.length = q.items.length + b.moved xs.length q.room := by
  have h := b.moved_le_request xs.length q.room
  simp only [enqueue, List.length_append, List.length_take]
  omega

theorem room_enqueue (b : Batching) (q : Fifo α capacity) (xs : List α) :
    (q.enqueue b xs).room = q.room - b.moved xs.length q.room := by
  rw [room, length_enqueue, ← Nat.sub_sub]
  rfl

theorem length_dequeue (b : Batching) (q : Fifo α capacity) (n : ℕ) :
    (q.dequeue b n).items.length = q.items.length - b.moved n q.items.length := by
  simp [dequeue]

end Fifo

end Restore
