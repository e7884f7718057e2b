import NetLab.Library.CString

/-!
# Decoding of request targets
-/

namespace NetLab
namespace Np20

open CString

/-- The value of a hexadecimal digit of either case. -/
def hexValue (digit : UInt8) : UInt8 :=
  let upper := if 97 ≤ digit then digit - 32 else digit
  if 65 ≤ upper then upper - 55 else upper - 48

def urlDecode : Bytes → Bytes
  | c :: a :: b :: src =>
    if c = 37 ∧ isxdigit a ∧ isxdigit b then (16 * hexValue a + hexValue b) :: urlDecode src
    else (if c = 43 then 32 else c) :: urlDecode (a :: b :: src)
  | c :: src => (if c = 43 then 32 else c) :: urlDecode src
  | [] => []

/-- A `%` with two hexadecimal digits behind it. -/
def HasEscape (src : Bytes) : Prop :=
  ∃ a b, isxdigit a ∧ isxdigit b ∧ [37, a, b] <:+: src

/-- The text means itself: the decoder has nothing to replace. -/
def Literal (src : Bytes) : Prop := 43 ∉ src ∧ ¬ HasEscape src

theorem hasEscape_cons (c : UInt8) (src : Bytes) :
    HasEscape (c :: src) ↔
      (∃ a b, isxdigit a ∧ isxdigit b ∧ c = 37 ∧ [a, b] <+: src) ∨ HasEscape src := by
  constructor
  · rintro ⟨a, b, ha, hb, h⟩
    rcases List.infix_cons_iff.mp h with hp | hi
    · obtain ⟨hc, hp⟩ := List.cons_prefix_cons.mp hp
      exact Or.inl ⟨a, b, ha, hb, hc.symm, hp⟩
    · exact Or.inr ⟨a, b, ha, hb, hi⟩
  · rintro (⟨a, b, ha, hb, rfl, hp⟩ | ⟨a, b, ha, hb, hi⟩)
    · exact ⟨a, b, ha, hb, List.infix_cons_iff.mpr (Or.inl (List.cons_prefix_cons.mpr ⟨rfl, hp⟩))⟩
    · exact ⟨a, b, ha, hb, List.infix_cons_iff.mpr (Or.inr hi)⟩

theorem length_urlDecode_le (src : Bytes) : (urlDecode src).length ≤ src.length := by
  fun_induction urlDecode src with
  | case1 c a b src hesc ih =>
    simp only [List.length_cons]
    omega
  | case2 c a b src hesc ih =>
    simp only [List.length_cons] at ih ⊢
    omega
  | case3 c src hshort ih =>
    simp only [List.length_cons]
    omega
  | case4 => exact Nat.le_refl _

/-- One byte that is copied or turned into a blank. -/
theorem decode_byte_iff {c : UInt8} {src : Bytes} (hesc : HasEscape (c :: src) ↔ HasEscape src)
    (ih : urlDecode src = src ↔ Literal src) :
    (if c = 43 then 32 else c) :: urlDecode src = c :: src ↔ Literal (c :: src) := by
  have hlit : Literal (c :: src) ↔ c ≠ 43 ∧ Literal src := by
    rw [Literal, Literal, hesc, List.mem_cons, not_or, and_assoc, ne_comm]
  rw [List.cons.injEq, ih, hlit]
  by_cases hc : c = 43
  · subst hc
    exact iff_of_false (fun h => absurd h.1 (by decide)) fun h => h.1 rfl
  · rw [if_neg hc]
    exact and_congr_left fun _ => iff_of_true rfl hc

/-- Decoding keeps exactly the literal texts. -/
theorem urlDecode_eq_self_iff (src : Bytes) : urlDecode src = src ↔ Literal src := by
  fun_induction urlDecode src with
  | case1 c a b src hesc ih =>
    obtain ⟨rfl, ha, hb⟩ := hesc
    have hlen := length_urlDecode_le src
    refine iff_of_false (fun h => ?_) fun h => h.2 ⟨a, b, ha, hb, [], src, rfl⟩
    have := congrArg List.length h
    simp only [List.length_cons] at this
    omega
  | case2 c a b src hesc ih =>
    have hcons : HasEscape (c :: a :: b :: src) ↔ HasEscape (a :: b :: src) := by
      rw [hasEscape_cons]
      refine or_iff_right ?_
      rintro ⟨a', b', ha, hb, hc, hp⟩
      obtain ⟨heqa, hp⟩ := List.cons_prefix_cons.mp hp
      obtain ⟨heqb, -⟩ := List.cons_prefix_cons.mp hp
      exact hesc ⟨hc, heqa ▸ ha, heqb ▸ hb⟩
    exact decode_byte_iff hcons ih
  | case3 c src hshort ih =>
    have hcons : HasEscape (c :: src) ↔ HasEscape src := by
      rw [hasEscape_cons]
      refine or_iff_right ?_
      rintro ⟨a, b, -, -, -, t, rfl⟩
      exact hshort a b t rfl
    exact decode_byte_iff hcons ih
  | case4 =>
    refine iff_of_true rfl ⟨List.not_mem_nil, ?_⟩
    rintro ⟨a, b, -, -, h⟩
    exact absurd (List.infix_nil.mp h) (List.cons_ne_nil _ _)

/-- What the decoder leaves of a target before the first NUL is the target
itself only where the target is literal. -/
theorem cstr_urlDecode_eq_iff {src : Bytes} (hnul : 0 ∉ src) :
    cstr (urlDecode src) = src ↔ Literal src := by
  rw [← urlDecode_eq_self_iff]
  constructor
  · intro h
    have hlen : (urlDecode src).length ≤ (cstr (urlDecode src)).length := by
      rw [h]
      exact length_urlDecode_le src
    rw [← cstr_eq_of_length_le hlen, h]
  · intro h
    rw [h, cstr_eq_self hnul]

/-- A question mark at the end is no part of an escape. -/
theorem urlDecode_question (src : Bytes) : urlDecode (src ++ [63]) = urlDecode src ++ [63] := by
  fun_induction urlDecode src with
  | case1 c a b src hesc ih =>
    simp only [List.cons_append, urlDecode, if_pos hesc, ih]
  | case2 c a b src hesc ih =>
    rw [List.cons_append, List.cons_append] at ih
    simp only [List.cons_append, urlDecode, if_neg hesc, ih]
  | case3 c src hshort ih =>
    cases src with
    | nil => rfl
    | cons a src =>
      cases src with
      | nil =>
        have hesc : ¬ (c = 37 ∧ isxdigit a ∧ isxdigit 63) := fun h => absurd h.2.2 (by decide)
        simp only [List.cons_append, List.nil_append] at ih ⊢
        rw [urlDecode, if_neg hesc, ih]
      | cons b src => exact absurd rfl (hshort a b src)
  | case4 => rfl

example : urlDecode (ascii "/a%2Bb+c%2") = ascii "/a+b c%2" := by decide

end Np20
end NetLab
