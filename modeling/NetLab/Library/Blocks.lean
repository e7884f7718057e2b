import Mathlib.Data.List.Basic

/-!
# Cutting a list into blocks

Block `k` of a list, counted from zero, holds the elements from `n * k` up to
the smaller of `n * (k + 1)` and the length.
-/

namespace NetLab
namespace Blocks

variable {α : Type*}

/-- Block `k` of `xs` at block size `n`. -/
def block (n : Nat) (xs : List α) (k : Nat) : List α := (xs.drop (n * k)).take n

/-- The first `m` blocks. -/
def blocks (n : Nat) (xs : List α) (m : Nat) : List (List α) :=
  (List.range m).map (block n xs)

theorem length_block (n : Nat) (xs : List α) (k : Nat) :
    (block n xs k).length = min n (xs.length - n * k) := by
  rw [block, List.length_take, List.length_drop]

theorem length_block_le (n : Nat) (xs : List α) (k : Nat) : (block n xs k).length ≤ n := by
  rw [length_block]
  exact Nat.min_le_left _ _

@[simp] theorem length_blocks (n : Nat) (xs : List α) (m : Nat) : (blocks n xs m).length = m := by
  rw [blocks, List.length_map, List.length_range]

theorem blocks_succ (n : Nat) (xs : List α) (m : Nat) :
    blocks n xs (m + 1) = blocks n xs m ++ [block n xs m] := by
  rw [blocks, List.range_succ, List.map_append]
  rfl

/-- The first `m` blocks hold the first `n * m` elements. -/
theorem flatten_blocks (n : Nat) (xs : List α) (m : Nat) :
    (blocks n xs m).flatten = xs.take (n * m) := by
  induction m with
  | zero => simp [blocks]
  | succ m ih =>
    rw [blocks_succ, List.flatten_append, ih, List.flatten_singleton, block, Nat.mul_succ,
      List.take_add]

theorem flatten_blocks_of_le {n m : Nat} {xs : List α} (h : xs.length ≤ n * m) :
    (blocks n xs m).flatten = xs := by
  rw [flatten_blocks, List.take_of_length_le h]

/-- A block is full when a whole block's worth of elements is left. -/
theorem length_block_eq_iff {n : Nat} (hn : 0 < n) (xs : List α) (k : Nat) :
    (block n xs k).length = n ↔ k < xs.length / n := by
  rw [length_block, ← Nat.succ_le_iff, Nat.le_div_iff_mul_le hn, Nat.succ_mul,
    Nat.mul_comm k n]
  omega

/-- The first short block is the one after all full ones. -/
theorem length_block_lt_iff {n : Nat} (hn : 0 < n) (xs : List α) (k : Nat) :
    (block n xs k).length < n ↔ xs.length / n ≤ k := by
  have hfull := length_block_eq_iff hn xs k
  have hle := length_block_le n xs k
  omega

end Blocks
end NetLab
