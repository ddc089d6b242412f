import Mathlib.Data.List.Basic

/-!
# Bounded queues with a non-blocking send

A `Fifo` holds at most `cap` items, and the bound is part of the value. A send
to a full queue fails and leaves the queue as it is, so the items that were
accepted come out complete and in order, and the ones that were refused are the
newest.
-/

/-- A first-in first-out queue of capacity `cap`. -/
structure Fifo (α : Type) where
  cap : Nat
  items : List α
  bounded : items.length ≤ cap

namespace Fifo

variable {α : Type}

def empty (cap : Nat) : Fifo α := ⟨cap, [], Nat.zero_le cap⟩

/-- The send that does not wait: `none` when the queue is full. -/
def trySend (q : Fifo α) (a : α) : Option (Fifo α) :=
  if h : q.items.length < q.cap then
    some ⟨q.cap, q.items ++ [a], by rw [List.length_append]; exact h⟩
  else none

/-- The oldest item and the rest of the queue. -/
def next (q : Fifo α) : Option (α × Fifo α) :=
  match h : q.items with
  | [] => none
  | a :: rest => some (a, ⟨q.cap, rest, by
      have := q.bounded
      rw [h, List.length_cons] at this
      exact Nat.le_of_succ_le this⟩)

/-- A send that succeeds finds room, appends its item and keeps the capacity. -/
theorem trySend_eq_some {q q' : Fifo α} {a : α} (h : q.trySend a = some q') :
    q.items.length < q.cap ∧ q'.items = q.items ++ [a] ∧ q'.cap = q.cap := by
  unfold trySend at h
  split at h
  · next hlt =>
    cases h
    exact ⟨hlt, rfl, rfl⟩
  · cases h

theorem trySend_eq_none {q : Fifo α} {a : α} : q.trySend a = none ↔ q.cap ≤ q.items.length := by
  unfold trySend
  split
  · next hlt => exact ⟨(nomatch ·), fun h => absurd hlt (Nat.not_lt.mpr h)⟩
  · next hge => exact ⟨fun _ => Nat.not_lt.mp hge, fun _ => rfl⟩

theorem next_eq_some {q q' : Fifo α} {a : α} (h : q.next = some (a, q')) :
    q.items = a :: q'.items ∧ q'.cap = q.cap := by
  unfold next at h
  split at h
  · cases h
  · next b rest hq =>
    cases h
    exact ⟨hq, rfl⟩

theorem next_of_head {q : Fifo α} {a : α} (h : q.items.head? = some a) :
    ∃ q', q.next = some (a, q') := by
  unfold next
  split
  · next hq =>
    rw [hq] at h
    cases h
  · next b rest hq =>
    rw [hq] at h
    cases h
    exact ⟨_, rfl⟩

end Fifo
