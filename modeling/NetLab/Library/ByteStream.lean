import NetLab.Library.Bytes

/-!
# Byte streams that are cut anywhere

One call on a stream socket moves some of the bytes it could move, at least one
when there is any.  How many is up to the network: a schedule gives a number for
each call, and `part` clamps it to what is possible, so that all schedules
together are all ways to cut the stream.
-/

namespace NetLab
namespace ByteStream

/-- How many of `n` bytes a call moves when the schedule says `k`. -/
def part (k n : Nat) : Nat := min n (max 1 k)

/-- `recv` for up to `want` bytes: what it returns and what is left. -/
def recv (k want : Nat) (stream : Bytes) : Bytes × Bytes :=
  (stream.take (part k (min want stream.length)), stream.drop (part k (min want stream.length)))

theorem part_le (k n : Nat) : part k n ≤ n := Nat.min_le_left _ _

theorem part_pos {k n : Nat} (h : 0 < n) : 0 < part k n := by
  rw [part]
  omega

/-- Every amount that is possible is the one some schedule gives. -/
theorem part_self {k n : Nat} (hk : 0 < k) (hn : k ≤ n) : part k n = k := by
  rw [part]
  omega

@[simp] theorem part_zero (k : Nat) : part k 0 = 0 := Nat.zero_min _

theorem length_recv (k want : Nat) (stream : Bytes) :
    (recv k want stream).1.length = part k (min want stream.length) := by
  have := part_le k (min want stream.length)
  rw [recv, List.length_take]
  omega

theorem length_recv_add (k want : Nat) (stream : Bytes) :
    (recv k want stream).1.length + (recv k want stream).2.length = stream.length := by
  have := part_le k (min want stream.length)
  rw [length_recv, recv, List.length_drop]
  omega

end ByteStream
end NetLab
