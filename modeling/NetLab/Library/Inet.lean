import NetLab.Library.CString

/-!
# Internet addresses as text, and the size of a datagram
-/

namespace NetLab
namespace Inet

open CString

/-- The most bytes that `sendto` puts into one UDP datagram over IPv4. -/
def maxDatagram : Nat := 65507

/-- `inet_ntop(AF_INET, ...)` on the number that `ntohl` gives. -/
def inetNtop (sAddr : UInt32) : Bytes :=
  List.intercalate (ascii ".") ((toBytes 4 sAddr.toNat).map fun b => decimal b.toNat)

/-- The text is four numerals with a dot between each and the next. -/
theorem inetNtop_eq (sAddr : UInt32) : ∃ a b c d : Nat,
    inetNtop sAddr = decimal a ++ ascii "." ++ decimal b ++ ascii "." ++ decimal c
      ++ ascii "." ++ decimal d := by
  have hlen := length_toBytes 4 sAddr.toNat
  match h : toBytes 4 sAddr.toNat, hlen with
  | [a, b, c, d], _ =>
    refine ⟨a.toNat, b.toNat, c.toNat, d.toNat, ?_⟩
    rw [inetNtop, h]
    simp [List.intercalate]

theorem inetNtop_ne_nil (sAddr : UInt32) : inetNtop sAddr ≠ [] := by
  obtain ⟨a, b, c, d, h⟩ := inetNtop_eq sAddr
  rw [h]
  simp [decimal_ne_nil]

theorem isWord_inetNtop (sAddr : UInt32) : IsWord (inetNtop sAddr) := by
  have hdot : IsWord (ascii ".") := by decide
  obtain ⟨a, b, c, d, h⟩ := inetNtop_eq sAddr
  rw [h]
  exact isWord_append (isWord_append (isWord_append (isWord_append (isWord_append
    (isWord_append (isWord_decimal a) hdot) (isWord_decimal b)) hdot) (isWord_decimal c)) hdot)
    (isWord_decimal d)

theorem zero_notMem_inetNtop (sAddr : UInt32) : 0 ∉ inetNtop sAddr := by
  have hdigits : ∀ n : Nat, 0 ∉ decimal n := by
    intro n h
    have hdigit := isdigit_of_mem_decimal h
    contradiction
  have hdot : 0 ∉ ascii "." := by decide
  obtain ⟨a, b, c, d, h⟩ := inetNtop_eq sAddr
  rw [h]
  simp [hdigits, hdot]

theorem inetNtop_of_bytes {sAddr : UInt32} {a b c d : UInt8}
    (h : toBytes 4 sAddr.toNat = [a, b, c, d]) (s : Bytes) :
    inetNtop sAddr ++ s = decimal a.toNat ++ 46 :: (decimal b.toNat ++
      46 :: (decimal c.toNat ++ 46 :: (decimal d.toNat ++ s))) := by
  have hdot : ascii "." = [46] := rfl
  rw [inetNtop, h, hdot]
  simp [List.intercalate]

/-- `INET_ADDRSTRLEN` leaves room for the NUL. -/
theorem length_inetNtop_le (sAddr : UInt32) : (inetNtop sAddr).length ≤ 15 := by
  have hdigits : ∀ b : UInt8, (decimal b.toNat).length ≤ 3 := fun b =>
    length_decimal_le (by decide) (Nat.lt_trans b.toNat_lt (by decide))
  match h : toBytes 4 sAddr.toNat, length_toBytes 4 sAddr.toNat with
  | [a, b, c, d], _ =>
    have htext := inetNtop_of_bytes h []
    rw [List.append_nil, List.append_nil] at htext
    rw [htext]
    simp only [List.length_append, List.length_cons]
    have ha := hdigits a
    have hb := hdigits b
    have hc := hdigits c
    have hd := hdigits d
    omega

/-- An address can be told from what follows it, unless that is a digit. -/
theorem inetNtop_append_inj {sAddr sAddr' : UInt32} {s t : Bytes}
    (hs : ∀ c ∈ s.head?, isdigit c = false) (ht : ∀ c ∈ t.head?, isdigit c = false)
    (h : inetNtop sAddr ++ s = inetNtop sAddr' ++ t) : sAddr = sAddr' ∧ s = t := by
  have hdot : ∀ r : Bytes, ∀ c ∈ (46 :: r).head?, isdigit c = false := by
    rintro r c hc
    obtain rfl := Option.some.inj hc
    decide
  match hb : toBytes 4 sAddr.toNat, length_toBytes 4 sAddr.toNat,
    hb' : toBytes 4 sAddr'.toNat, length_toBytes 4 sAddr'.toNat with
  | [a, b, c, d], _, [a', b', c', d'], _ =>
    rw [inetNtop_of_bytes hb, inetNtop_of_bytes hb'] at h
    obtain ⟨ha, h⟩ := decimal_append_inj (hdot _) (hdot _) h
    obtain ⟨hb₂, h⟩ := decimal_append_inj (hdot _) (hdot _) (List.cons.inj h).2
    obtain ⟨hc, h⟩ := decimal_append_inj (hdot _) (hdot _) (List.cons.inj h).2
    obtain ⟨hd, h⟩ := decimal_append_inj hs ht (List.cons.inj h).2
    have hbytes : toBytes 4 sAddr.toNat = toBytes 4 sAddr'.toNat := by
      rw [hb, hb', UInt8.toNat_inj.mp ha, UInt8.toNat_inj.mp hb₂, UInt8.toNat_inj.mp hc,
        UInt8.toNat_inj.mp hd]
    have hvalue := congrArg fromBytes hbytes
    rw [fromBytes_toBytes_of_lt sAddr.toNat_lt, fromBytes_toBytes_of_lt sAddr'.toNat_lt] at hvalue
    exact ⟨UInt32.toNat_inj.mp hvalue, h⟩

end Inet
end NetLab
