import NetLab.Library.CString

/-!
# Percent encoding

A text is encoded byte by byte, a byte as itself or as `%` and two hexadecimal
digits.  A decoder that takes off the code of one byte whatever follows takes off
the code of a whole text.  Forms are read by a grammar that also has `+` for a
blank; it reads every text in one way.
-/

namespace NetLab
namespace Percent

open CString

/-- The value of a hexadecimal digit of either case. -/
def digitValue (digit : UInt8) : UInt8 :=
  if 97 ≤ digit then digit - 87 else if 65 ≤ digit then digit - 55 else digit - 48

/-- Each `%` with two hexadecimal digits behind it is read as a byte. -/
def decode : Bytes → Bytes
  | c :: a :: b :: s =>
    if c = 37 ∧ isxdigit a ∧ isxdigit b then (16 * digitValue a + digitValue b) :: decode s
    else c :: decode (a :: b :: s)
  | c :: s => c :: decode s
  | [] => []

/-- The decoder reads the code of one byte whatever follows. -/
def Reads (decode : Bytes → Bytes) (code : UInt8 → Bytes) : Prop :=
  ∀ b s, decode (code b ++ s) = b :: decode s

theorem Reads.flatMap {decode : Bytes → Bytes} {code : UInt8 → Bytes} (h : Reads decode code)
    (s t : Bytes) : decode (s.flatMap code ++ t) = s ++ decode t := by
  induction s with
  | nil => rfl
  | cons b s ih => rw [List.flatMap_cons, List.append_assoc, h, ih, List.cons_append]

theorem Reads.decode_flatMap {decode : Bytes → Bytes} {code : UInt8 → Bytes} (h : Reads decode code)
    (hnil : decode [] = []) (s : Bytes) : decode (s.flatMap code) = s := by
  rw [← List.append_nil (s.flatMap code), h.flatMap, hnil, List.append_nil]

theorem decode_plain {c : UInt8} (h : c ≠ 37) (s : Bytes) : decode (c :: s) = c :: decode s := by
  match s with
  | [] => rfl
  | [_] => rfl
  | a :: b :: s => rw [decode, if_neg fun hc => h hc.1]

theorem decode_escape {a b : UInt8} (ha : isxdigit a = true) (hb : isxdigit b = true) (s : Bytes) :
    decode (37 :: a :: b :: s) = (16 * digitValue a + digitValue b) :: decode s := by
  rw [decode, if_pos ⟨rfl, ha, hb⟩]

/-! ## The code of a text -/

def upperDigits : Bytes := ascii "0123456789ABCDEF"

def lowerDigits : Bytes := ascii "0123456789abcdef"

/-- The code of a byte: the byte itself if it is plain, else an escape with upper
case digits. -/
def codeOf (plain : UInt8 → Bool) (b : UInt8) : Bytes :=
  if plain b then [b]
  else [37, upperDigits.getD (b.toNat / 16) 0, upperDigits.getD (b.toNat % 16) 0]

def encode (plain : UInt8 → Bool) (s : Bytes) : Bytes := s.flatMap (codeOf plain)

/-- The digit, of either case, has the value. -/
def Denotes (digit : UInt8) (value : Nat) : Prop :=
  upperDigits[value]? = some digit ∨ lowerDigits[value]? = some digit

/-- The text starts with a `%` and two hexadecimal digits. -/
def StartsEscape (s : Bytes) : Prop :=
  ∃ a b v w rest, Denotes a v ∧ Denotes b w ∧ s = 37 :: a :: b :: rest

/-- How the text of a form is read, from left to right: an escape is the byte that
its digits denote, `+` is a blank, and every other byte is itself. -/
inductive FormDecodes : Bytes → Bytes → Prop
  | nil : FormDecodes [] []
  | escape {a b : UInt8} {v w : Nat} {s t : Bytes} : Denotes a v → Denotes b w → FormDecodes s t →
      FormDecodes (37 :: a :: b :: s) (UInt8.ofNat (16 * v + w) :: t)
  | plus {s t : Bytes} : FormDecodes s t → FormDecodes (43 :: s) (32 :: t)
  | copy {c : UInt8} {s t : Bytes} : c ≠ 43 → ¬ StartsEscape (c :: s) → FormDecodes s t →
      FormDecodes (c :: s) (c :: t)

theorem denotes_upper {value : Nat} (h : value < 16) :
    Denotes (upperDigits.getD value 0) value := by
  left
  have hlen : upperDigits.length = 16 := by decide +kernel
  rw [List.getD_eq_getElem?_getD, List.getElem?_eq_getElem (by omega), Option.getD_some]

/-- The digits are those that `isxdigit` knows, with one value each. -/
theorem denotes_iff (digit : UInt8) (value : Nat) :
    Denotes digit value ↔ isxdigit digit = true ∧ value = (digitValue digit).toNat := by
  have hvalue : ∀ n < 16, ∀ d ∈ [upperDigits[n]?, lowerDigits[n]?],
      ∃ digit ∈ d, isxdigit digit = true ∧ n = (digitValue digit).toNat := by
    decide +kernel
  have hdigit : ∀ d : UInt8, isxdigit d = true →
      some d ∈ [upperDigits[(digitValue d).toNat]?, lowerDigits[(digitValue d).toNat]?] := by
    refine forall_byte ?_
    decide +kernel
  constructor
  · intro h
    have hmem : some digit ∈ [upperDigits[value]?, lowerDigits[value]?] := by
      simp only [List.mem_cons, List.not_mem_nil, or_false]
      exact h.imp Eq.symm Eq.symm
    have hlt : value < 16 := by
      have hupper : upperDigits.length = 16 := by decide +kernel
      have hlower : lowerDigits.length = 16 := by decide +kernel
      rcases h with h | h
      · exact hupper ▸ (List.getElem?_eq_some_iff.mp h).1
      · exact hlower ▸ (List.getElem?_eq_some_iff.mp h).1
    obtain ⟨_, hd, hfacts⟩ := hvalue value hlt _ hmem
    obtain rfl := Option.mem_some_iff.mp hd
    exact hfacts
  · rintro ⟨hx, rfl⟩
    have hmem := hdigit digit hx
    simp only [List.mem_cons, List.not_mem_nil, or_false] at hmem
    exact hmem.imp Eq.symm Eq.symm

theorem Denotes.unique {digit : UInt8} {v w : Nat} (hv : Denotes digit v) (hw : Denotes digit w) :
    v = w :=
  ((denotes_iff digit v).mp hv).2.trans ((denotes_iff digit w).mp hw).2.symm

/-- A text has one reading at most: the first byte, or the escape it starts,
decides which rule was used. -/
theorem FormDecodes.unique {s t t' : Bytes} (h : FormDecodes s t) (h' : FormDecodes s t') :
    t = t' := by
  induction h generalizing t' with
  | nil =>
    cases h'
    rfl
  | escape ha hb _ ih =>
    cases h' with
    | escape ha' hb' hrest => rw [ha.unique ha', hb.unique hb', ih hrest]
    | copy _ hno => exact absurd ⟨_, _, _, _, _, ha, hb, rfl⟩ hno
  | plus _ ih =>
    cases h' with
    | plus hrest => rw [ih hrest]
    | copy hne => exact absurd rfl hne
  | copy hne hno _ ih =>
    cases h' with
    | escape ha hb => exact absurd ⟨_, _, _, _, _, ha, hb, rfl⟩ hno
    | plus => exact absurd rfl hne
    | copy _ _ hrest => rw [ih hrest]

/-- The code of a text is read as the text, when `%` and `+` are not plain. -/
theorem formDecodes_encode {plain : UInt8 → Bool} (hpercent : plain 37 = false)
    (hplus : plain 43 = false) (s : Bytes) : FormDecodes (encode plain s) s := by
  induction s with
  | nil => exact .nil
  | cons b s ih =>
    rw [encode, List.flatMap_cons, codeOf]
    by_cases hb : plain b
    · have hne : ∀ c, plain c = false → b ≠ c := by
        rintro c hc rfl
        exact absurd hb (by rw [hc]; decide)
      rw [if_pos hb]
      refine .copy (hne 43 hplus) ?_ ih
      rintro ⟨_, _, _, _, _, -, -, hstart⟩
      exact hne 37 hpercent (List.cons.inj hstart).1
    · have hlt := b.toNat_lt
      have hvalue : UInt8.ofNat (16 * (b.toNat / 16) + b.toNat % 16) = b := by
        rw [Nat.div_add_mod, UInt8.ofNat_toNat]
      have hread := FormDecodes.escape (denotes_upper (show b.toNat / 16 < 16 by omega))
        (denotes_upper (Nat.mod_lt b.toNat (by decide))) ih
      rw [if_neg hb]
      rwa [hvalue] at hread

end Percent
end NetLab
