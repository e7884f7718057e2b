import Mathlib.Data.List.Basic

/-!
# Blocks that go out in pieces

A loop that hands a buffer to the system until all of it is through keeps an
offset into the buffer.  `Chunk` is such a buffer between two calls, when the
offset has not reached the end.
-/

namespace NetLab

/-- A block of which the first `off` elements are through and some are left. -/
structure Chunk (α : Type*) where
  data : List α
  off : Nat
  lt : off < data.length
  deriving DecidableEq, Repr

namespace Chunk

variable {α : Type*}

/-- A block none of which is through, when there is anything in it. -/
def ofData : List α → Option (Chunk α)
  | [] => none
  | a :: as => some { data := a :: as, off := 0, lt := Nat.succ_pos _ }

/-- What is left of the block. -/
def rest (c : Chunk α) : List α := c.data.drop c.off

/-- The offset moved on, unless nothing is left then. -/
def advance (c : Chunk α) (m : Nat) : Option (Chunk α) :=
  if h : c.off + m < c.data.length then some { c with off := c.off + m, lt := h } else none

/-- What is left when there may be no block any more. -/
def left : Option (Chunk α) → List α
  | none => []
  | some c => c.rest

theorem left_advance (c : Chunk α) (m : Nat) : left (c.advance m) = c.rest.drop m := by
  rw [advance, rest, List.drop_drop]
  split
  · rfl
  · rw [left, List.drop_eq_nil_of_le (by omega)]

/-- A call moves a piece of what is left and leaves the rest of it. -/
theorem take_append_left_advance (c : Chunk α) (m : Nat) :
    c.rest.take m ++ left (c.advance m) = c.rest := by
  rw [left_advance, List.take_append_drop]

end Chunk
end NetLab
