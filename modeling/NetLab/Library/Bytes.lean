import Mathlib.Data.List.Induction
import Mathlib.Tactic.Ring

/-!
# Byte strings and numbers in network order
-/

namespace NetLab

abbrev Bytes := List UInt8

/-- The bytes of an ASCII literal. -/
def ascii (s : String) : Bytes := s.toList.map fun c => c.toNat.toUInt8

/-- The low `k` bytes of `v`, most significant first. -/
def toBytes : Nat → Nat → Bytes
  | 0, _ => []
  | k + 1, v => toBytes k (v / 256) ++ [UInt8.ofNat v]

/-- The number whose bytes, most significant first, are `bs`. -/
def fromBytes (bs : Bytes) : Nat := bs.foldl (fun acc b => acc * 256 + b.toNat) 0

/-- Bytes written over the start of a buffer. -/
def store (data buf : Bytes) : Bytes := data ++ buf.drop data.length

/-- One byte written into an array, `none` outside it. -/
def writeAt (mem : Bytes) (i : Nat) (b : UInt8) : Option Bytes :=
  if i < mem.length then some (mem.set i b) else none

/-- The bytes of a literal from its characters.  Rewriting with this before
`decide` spares the kernel the encoding of the text. -/
theorem ascii_ofList (l : List Char) :
    ascii (String.ofList l) = l.map fun c => c.toNat.toUInt8 := by
  rw [ascii, String.toList_ofList]

@[simp] theorem length_toBytes (k v : Nat) : (toBytes k v).length = k := by
  induction k generalizing v with
  | zero => rfl
  | succ k ih => rw [toBytes, List.length_append, ih, List.length_singleton]

theorem fromBytes_concat (bs : Bytes) (b : UInt8) :
    fromBytes (bs ++ [b]) = fromBytes bs * 256 + b.toNat := by
  unfold fromBytes
  rw [List.foldl_append]
  rfl

theorem fromBytes_append (as bs : Bytes) :
    fromBytes (as ++ bs) = fromBytes as * 256 ^ bs.length + fromBytes bs := by
  induction bs using List.reverseRecOn with
  | nil => simp [fromBytes]
  | append_singleton bs b ih =>
    rw [← List.append_assoc, fromBytes_concat, fromBytes_concat, ih, List.length_append,
      List.length_singleton, Nat.pow_succ]
    ring

theorem fromBytes_lt (bs : Bytes) : fromBytes bs < 256 ^ bs.length := by
  induction bs using List.reverseRecOn with
  | nil => simp [fromBytes]
  | append_singleton bs b ih =>
    have hb : b.toNat < 256 := b.toNat_lt
    rw [fromBytes_concat, List.length_append, List.length_singleton, Nat.pow_succ]
    omega

/-- Reading back what was written keeps the low bytes of the number. -/
theorem fromBytes_toBytes (k v : Nat) : fromBytes (toBytes k v) = v % 256 ^ k := by
  induction k generalizing v with
  | zero =>
    rw [Nat.pow_zero, Nat.mod_one]
    rfl
  | succ k ih =>
    have hb : (UInt8.ofNat v).toNat = v % 256 := UInt8.toNat_ofNat'
    rw [toBytes, fromBytes_concat, ih, hb, Nat.pow_succ', Nat.mod_mul, Nat.mul_comm]
    exact Nat.add_comm _ _

theorem fromBytes_toBytes_of_lt {k v : Nat} (h : v < 256 ^ k) :
    fromBytes (toBytes k v) = v := by
  rw [fromBytes_toBytes, Nat.mod_eq_of_lt h]

/-- What the leading `r` of `k` bytes say about the number. -/
theorem fromBytes_take_toBytes {k r v : Nat} (hr : r ≤ k) :
    fromBytes ((toBytes k v).take r) = v / 256 ^ (k - r) % 256 ^ r := by
  induction k generalizing v with
  | zero =>
    obtain rfl : r = 0 := by omega
    rw [Nat.pow_zero, Nat.mod_one]
    rfl
  | succ k ih =>
    rcases Nat.lt_or_ge r (k + 1) with hlt | hge
    · have hle : r ≤ k := by omega
      have hsub : k + 1 - r = (k - r) + 1 := by omega
      rw [toBytes, List.take_append_of_le_length (by rw [length_toBytes]; exact hle), ih hle, hsub,
        Nat.pow_succ', Nat.div_div_eq_div_mul]
    · have hrk : r = k + 1 := by omega
      subst hrk
      rw [List.take_of_length_le (by rw [length_toBytes]), fromBytes_toBytes, Nat.sub_self,
        Nat.pow_zero, Nat.div_one]

/-- A property of all bytes is decided by going through them. -/
theorem forall_byte {P : UInt8 → Prop} (h : ∀ n < 256, P (UInt8.ofNat n)) (b : UInt8) : P b := by
  have hb := h b.toNat b.toNat_lt
  rwa [UInt8.ofNat_toNat] at hb

/-- An array that was filled up to a position, filled by one more byte. -/
theorem writeAt_store {done mem : Bytes} (h : done.length < mem.length) (b : UInt8) :
    writeAt (store done mem) done.length b = some (store (done ++ [b]) mem) := by
  have hdrop : mem.drop done.length = mem[done.length] :: mem.drop (done.length + 1) :=
    List.drop_eq_getElem_cons h
  have hlen : done.length < (store done mem).length := by
    rw [store, List.length_append, List.length_drop]
    omega
  rw [writeAt, if_pos hlen, store, store, List.set_append_right _ _ (Nat.le_refl _), Nat.sub_self,
    hdrop, List.set_cons_zero, List.append_assoc, List.singleton_append, List.length_append,
    List.length_singleton]

end NetLab
