import NetLab.Library.CString

/-!
# Formatted input from a string

An `std::istringstream` is the text it has not read yet, or `none` once an
extraction has failed: every later one fails then.
-/

namespace NetLab
namespace IStream

open CString

/-- `iss >> s` for an empty string `s`. -/
def getString : Option Bytes → Bytes × Option Bytes
  | none => ([], none)
  | some text =>
    if (scanToken text).1 = [] then ([], none)
    else ((scanToken text).1, some (scanToken text).2)

/-- `iss >> n` for an `int` that has no value.  A failed stream gives it none, nor
does a text with nothing but white space: the extraction then ends before it
looks for a number. -/
def getInt : Option Bytes → Option Int × Option Bytes
  | none => (none, none)
  | some text =>
    if text.dropWhile isspace = [] then (none, none)
    else
      match scanInt text with
      | none => (some 0, none)
      | some n =>
        if n < -2 ^ 31 then (some (-2 ^ 31), none)
        else if 2 ^ 31 ≤ n then (some (2 ^ 31 - 1), none)
        else (some n, some (afterInt text))

theorem isWord_getString (iss : Option Bytes) : IsWord (getString iss).1 := by
  cases iss with
  | none => exact fun _ h => absurd h List.not_mem_nil
  | some text =>
    rw [getString]
    split
    · exact fun _ h => absurd h List.not_mem_nil
    · exact fun _ h => isspace_of_mem_scanToken h

/-- An extraction that reads nothing is the end of the stream. -/
theorem getString_snd_of_nil {iss : Option Bytes} (h : (getString iss).1 = []) :
    (getString iss).2 = none := by
  cases iss with
  | none => rfl
  | some text =>
    by_cases htoken : (scanToken text).1 = []
    · rw [getString, if_pos htoken]
    · rw [getString, if_neg htoken] at h
      exact absurd h htoken

theorem getString_word {w t : Bytes} (hne : w ≠ []) (hw : IsWord w)
    (ht : ∀ c ∈ t.head?, isspace c = true) : getString (some (w ++ t)) = (w, some t) := by
  rw [getString, scanToken_word_append hne hw ht, if_neg hne]

theorem getString_cons_space {c : UInt8} (hc : isspace c = true) (t : Bytes) :
    getString (some (c :: t)) = getString (some t) := by
  rw [getString, getString, scanToken_cons_space hc]

theorem getInt_decimal {n : Nat} (hn : n < 2 ^ 31) {t : Bytes}
    (ht : ∀ c ∈ t.head?, isdigit c = false) :
    getInt (some (decimal n ++ t)) = (some (n : Int), some t) := by
  have hlow : ¬ (n : Int) < -2 ^ 31 := by omega
  have hhigh : ¬ (2 : Int) ^ 31 ≤ n := by omega
  have hdigits : ∀ b ∈ decimal n, isdigit b = true := fun b hb => isdigit_of_mem_decimal hb
  have hstart : (decimal n ++ t).dropWhile isspace ≠ [] := by
    rw [(digits_append_start (decimal_ne_nil n) hdigits t).1]
    exact List.append_ne_nil_of_left_ne_nil (decimal_ne_nil n) t
  simp only [getInt, if_neg hstart, scanInt_decimal_append n ht, afterInt_decimal_append n ht]
  rw [if_neg hlow, if_neg hhigh]

theorem getInt_cons_space {c : UInt8} (hc : isspace c = true) (t : Bytes) :
    getInt (some (c :: t)) = getInt (some t) := by
  have hskip : (c :: t).dropWhile isspace = t.dropWhile isspace :=
    List.dropWhile_cons_of_pos hc
  simp only [getInt, hskip, scanInt_cons_space hc, afterInt_cons_space hc]

end IStream
end NetLab
