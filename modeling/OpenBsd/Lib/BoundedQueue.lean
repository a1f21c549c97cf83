/-
  OpenBsd.Lib.BoundedQueue

  Queues that hold at most a fixed number of elements.
-/

import Mathlib.Data.List.Basic

namespace OpenBsd.Lib

/-- A queue of at most `cap` elements, the oldest one first. -/
@[ext] structure BoundedQueue (α : Type*) where
  cap : Nat
  items : List α
  fits : items.length ≤ cap

namespace BoundedQueue

variable {α : Type*} (q : BoundedQueue α)

def empty (cap : Nat) : BoundedQueue α := ⟨cap, [], Nat.zero_le _⟩

/-- The places that are free. -/
def room : Nat := q.cap - q.items.length

/-- As many of the elements as there is room for go in. -/
def pushAll (xs : List α) : BoundedQueue α where
  cap := q.cap
  items := q.items ++ xs.take q.room
  fits := by
    have := q.fits
    rw [List.length_append, List.length_take, room]
    omega

/-- The oldest `n` elements are taken out. -/
def drop (n : Nat) : BoundedQueue α where
  cap := q.cap
  items := q.items.drop n
  fits := by
    have := q.fits
    rw [List.length_drop]
    omega

/-- The newest element is taken out. -/
def dropLast : BoundedQueue α where
  cap := q.cap
  items := q.items.dropLast
  fits := by
    have := q.fits
    rw [List.length_dropLast]
    omega

variable {q}

theorem room_pushAll (xs : List α) : (q.pushAll xs).room = q.room - xs.length := by
  have := q.fits
  simp only [room, pushAll, List.length_append, List.length_take]
  omega

/-- Elements go in one at a time as they do together. -/
theorem pushAll_pushAll (xs ys : List α) : (q.pushAll xs).pushAll ys = q.pushAll (xs ++ ys) := by
  refine BoundedQueue.ext rfl ?_
  change q.items ++ xs.take q.room ++ ys.take (q.pushAll xs).room = q.items ++ (xs ++ ys).take q.room
  rw [room_pushAll, List.take_append, List.append_assoc]

theorem pushAll_nil : q.pushAll [] = q := by
  refine BoundedQueue.ext rfl ?_
  simp [pushAll]

theorem drop_zero : q.drop 0 = q := rfl

theorem drop_drop (m n : Nat) : (q.drop m).drop n = q.drop (m + n) :=
  BoundedQueue.ext rfl List.drop_drop

end BoundedQueue

end OpenBsd.Lib
