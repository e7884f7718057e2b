import Mathlib.Data.List.Infix
import Mathlib.Data.List.DropRight
import NetLab.Library.Bytes

/-!
# Strings of C

A buffer is a byte string; the text in it is what stands before the first NUL.
A buffer without a NUL is read as if one followed it.
-/

namespace NetLab
namespace CString

/-- The text in a buffer. -/
def cstr (buf : Bytes) : Bytes := buf.takeWhile (· ≠ 0)

/-- What is left of a text from the first occurrence of `needle` on. -/
def find (needle : Bytes) : Bytes → Option Bytes
  | [] => if needle = [] then some [] else none
  | b :: s => if needle <+: b :: s then some (b :: s) else find needle s

def strstr (hay needle : Bytes) : Option Bytes := find needle (cstr hay)

/-- The sign tells which text comes first. -/
def strcmp : Bytes → Bytes → Int
  | [], [] => 0
  | [], _ :: _ => -1
  | _ :: _, [] => 1
  | a :: s, b :: t => if a = b then strcmp s t else (a.toNat : Int) - b.toNat

/-- White space of the C locale. -/
def isspace (b : UInt8) : Bool := b = 32 ∨ 9 ≤ b ∧ b ≤ 13

def isdigit (b : UInt8) : Bool := 48 ≤ b ∧ b ≤ 57

def isxdigit (b : UInt8) : Bool := isdigit b ∨ 65 ≤ b ∧ b ≤ 70 ∨ 97 ≤ b ∧ b ≤ 102

/-- `%s` of `scanf`: the token and the rest of the text. -/
def scanToken (s : Bytes) : Bytes × Bytes :=
  let t := s.dropWhile isspace
  (t.takeWhile fun b => !isspace b, t.dropWhile fun b => !isspace b)

/-- `%s` of `scanf` with a width: `none` at the end of the text. -/
def scanWord (width : Nat) (s : Bytes) : Option (Bytes × Bytes) :=
  let t := s.dropWhile isspace
  let token := (t.takeWhile fun b => !isspace b).take width
  if t = [] then none else some (token, t.drop token.length)

/-- Text without white space. -/
def IsWord (s : Bytes) : Prop := ∀ b ∈ s, isspace b = false

instance : DecidablePred IsWord := fun s =>
  decidable_of_iff (s.all fun b => !isspace b) (by simp [IsWord])

/-- The value of a string of decimal digits. -/
def digitsValue (digits : Bytes) : Nat :=
  digits.foldl (fun value b => 10 * value + (b.toNat - 48)) 0

/-- `%d` of `scanf`: `none` where the text does not start with a number. -/
def scanInt (s : Bytes) : Option Int :=
  let t := s.dropWhile isspace
  let negative := t.head? = some 45
  let unsigned := if negative ∨ t.head? = some 43 then t.drop 1 else t
  let digits := unsigned.takeWhile isdigit
  if digits = [] then none
  else some (if negative then -(digitsValue digits : Int) else digitsValue digits)

/-- `%d` of `printf`. -/
def decimal (n : Int) : Bytes :=
  let digits := (Nat.toDigits 10 n.natAbs).map fun c => c.toNat.toUInt8
  if n < 0 then 45 :: digits else digits

/-! ## Comparison -/

theorem strcmp_self (s : Bytes) : strcmp s s = 0 := by
  induction s with
  | nil => rfl
  | cons a s ih => rw [strcmp, if_pos rfl, ih]

theorem strcmp_swap (s t : Bytes) : strcmp t s = -strcmp s t := by
  fun_induction strcmp s t with
  | case1 => rfl
  | case2 => rfl
  | case3 => rfl
  | case4 s b t ih => rw [strcmp, if_pos rfl, ih]
  | case5 a s b t hne =>
    rw [strcmp, if_neg (Ne.symm hne)]
    omega

theorem eq_of_strcmp_eq_zero {s t : Bytes} (h : strcmp s t = 0) : s = t := by
  fun_induction strcmp s t with
  | case1 => rfl
  | case2 => cases h
  | case3 => cases h
  | case4 s b t ih => rw [ih h]
  | case5 a s b t hne => exact absurd (UInt8.toNat_inj.mp (by omega)) hne

/-- Nothing comes before the empty text. -/
theorem not_strcmp_nil_neg (s : Bytes) : ¬ strcmp s [] < 0 := by
  cases s with
  | nil => exact Int.lt_irrefl 0
  | cons a s =>
    show ¬ (1 : Int) < 0
    omega

/-- At the first byte where two of the texts part, the third is on one side of
it. -/
theorem strcmp_trans {s t u : Bytes} (hst : strcmp s t < 0) (htu : strcmp t u < 0) :
    strcmp s u < 0 := by
  induction s generalizing t u with
  | nil =>
    cases u with
    | nil => exact absurd htu (not_strcmp_nil_neg t)
    | cons c u =>
      show (-1 : Int) < 0
      omega
  | cons a s ih =>
    cases t with
    | nil => exact absurd hst (not_strcmp_nil_neg (a :: s))
    | cons b t =>
      cases u with
      | nil => exact absurd htu (not_strcmp_nil_neg (b :: t))
      | cons c u =>
        rw [strcmp] at hst htu ⊢
        by_cases hab : a = b
        · by_cases hbc : b = c
          · rw [if_pos hab] at hst
            rw [if_pos hbc] at htu
            rw [if_pos (hab.trans hbc)]
            exact ih hst htu
          · rw [if_neg hbc] at htu
            rw [if_neg (hab ▸ hbc), hab]
            exact htu
        · rw [if_neg hab] at hst
          by_cases hbc : b = c
          · rw [if_neg (hbc ▸ hab), ← hbc]
            exact hst
          · rw [if_neg hbc] at htu
            have hac : a ≠ c := by
              rintro rfl
              omega
            rw [if_neg hac]
            omega

/-! ## Texts without NUL -/

theorem cstr_eq_self {buf : Bytes} (h : 0 ∉ buf) : cstr buf = buf := by
  rw [cstr, List.takeWhile_eq_self_iff]
  intro b hb
  have hne : b ≠ 0 := fun heq => h (heq ▸ hb)
  simpa using hne

theorem zero_notMem_cstr (buf : Bytes) : 0 ∉ cstr buf := by
  intro h
  simpa using List.mem_takeWhile_imp h

theorem length_cstr_le (buf : Bytes) : (cstr buf).length ≤ buf.length :=
  (List.takeWhile_prefix _).length_le

/-- A text is not shorter than its buffer only if it is the whole buffer. -/
theorem cstr_eq_of_length_le {buf : Bytes} (h : buf.length ≤ (cstr buf).length) :
    cstr buf = buf :=
  (List.takeWhile_prefix _).eq_of_length_le h

theorem length_cstr_lt {buf : Bytes} (h : 0 ∈ buf) : (cstr buf).length < buf.length := by
  by_contra hle
  rw [← cstr_eq_of_length_le (Nat.not_lt.mp hle)] at h
  exact zero_notMem_cstr buf h

theorem cstr_append_of_mem {buf : Bytes} (h : 0 ∈ buf) (more : Bytes) :
    cstr (buf ++ more) = cstr buf := by
  have hne : (buf.takeWhile (· ≠ 0)).length ≠ buf.length := Nat.ne_of_lt (length_cstr_lt h)
  rw [cstr, List.takeWhile_append, if_neg hne]
  rfl

theorem cstr_concat_nul {s : Bytes} (h : 0 ∉ s) : cstr (s ++ [0]) = s := by
  have hall : ∀ b ∈ s, decide (b ≠ 0) = true := fun b hb =>
    decide_eq_true fun heq => h (heq ▸ hb)
  rw [cstr, List.takeWhile_append_of_pos hall]
  exact List.append_nil s

theorem cstr_append_zeros (buf : Bytes) (n : Nat) :
    cstr (buf ++ List.replicate n 0) = cstr buf := by
  by_cases h : 0 ∈ buf
  · exact cstr_append_of_mem h _
  · cases n with
    | zero => rw [List.replicate_zero, List.append_nil]
    | succ n =>
      rw [List.replicate_succ, List.append_cons, cstr_append_of_mem (by simp), cstr_concat_nul h,
        cstr_eq_self h]

/-! ## Searching -/

theorem find_cons_of_not {needle s : Bytes} {b : UInt8} (h : ¬ needle <+: b :: s) :
    find needle (b :: s) = find needle s := by
  rw [find, if_neg h]

theorem find_append_self {needle : Bytes} (s : Bytes) :
    find needle (needle ++ s) = some (needle ++ s) := by
  have hp : needle <+: needle ++ s := List.prefix_append needle s
  revert hp
  cases needle ++ s with
  | nil =>
    intro hp
    rw [find, if_pos (List.prefix_nil.mp hp)]
  | cons b t =>
    intro hp
    rw [find, if_pos hp]

/-- Whatever is found stands in the text and starts with the needle. -/
theorem find_spec {needle s t : Bytes} (h : find needle s = some t) :
    needle <+: t ∧ t <:+ s := by
  induction s with
  | nil =>
    rw [find] at h
    split at h
    · rename_i hnil
      rw [hnil]
      exact ⟨List.nil_prefix, (Option.some.inj h) ▸ List.suffix_rfl⟩
    · contradiction
  | cons b s ih =>
    rw [find] at h
    split at h
    · rename_i hp
      rw [← Option.some.inj h]
      exact ⟨hp, List.suffix_rfl⟩
    · exact ⟨(ih h).1, (ih h).2.trans (List.suffix_cons b s)⟩

theorem find_isSome_iff {needle s : Bytes} : (find needle s).isSome ↔ needle <:+: s := by
  induction s with
  | nil =>
    rw [find, List.infix_nil]
    split
    · exact iff_of_true rfl ‹_›
    · exact iff_of_false nofun ‹_›
  | cons b s ih =>
    rw [find, List.infix_cons_iff]
    split
    · exact iff_of_true rfl (Or.inl ‹_›)
    · rename_i hp
      rw [ih]
      exact ⟨Or.inr, fun h => h.resolve_left hp⟩

/-- The first occurrence stays the first one when the text grows. -/
theorem find_append {needle s t : Bytes} (h : find needle s = some t) (u : Bytes) :
    find needle (s ++ u) = some (t ++ u) := by
  induction s with
  | nil =>
    rw [find] at h
    split at h
    · rename_i hnil
      obtain rfl := Option.some.inj h
      rw [hnil]
      exact find_append_self u
    · contradiction
  | cons b s ih =>
    rw [find] at h
    split at h
    · rename_i hp
      have hpre : needle <+: b :: (s ++ u) := hp.trans (List.prefix_append (b :: s) u)
      rw [← Option.some.inj h, List.cons_append, find, if_pos hpre]
    · rename_i hp
      have hinfix : needle <:+: s := find_isSome_iff.mp (by rw [h]; rfl)
      have hlen : needle.length ≤ (b :: s).length := by
        have := hinfix.length_le
        rw [List.length_cons]
        omega
      have hnot : ¬ needle <+: b :: (s ++ u) := by
        intro hpre
        exact hp (List.prefix_of_prefix_length_le hpre (List.prefix_append (b :: s) u) hlen)
      rw [List.cons_append, find_cons_of_not hnot, ih h]

/-- Bytes in which one byte of the needle is missing are passed over: `a` and
the next `u.length` bytes do not hold the byte `c`. -/
theorem find_skip {u v a s : Bytes} {c : UInt8} (h : c ∉ a ++ s.take u.length) :
    find (u ++ c :: v) (a ++ s) = find (u ++ c :: v) s := by
  induction a with
  | nil => rfl
  | cons b a ih =>
    have hnot : ¬ (u ++ c :: v) <+: b :: (a ++ s) := by
      rintro ⟨w, hw⟩
      have hget : (b :: (a ++ s))[u.length]? = some c := by
        rw [← hw]
        simp
      have htake : ((b :: (a ++ s)).take (u.length + 1))[u.length]? = some c := by
        rw [List.getElem?_take_of_lt (Nat.lt_succ_self _), hget]
      have hmem := List.mem_of_getElem? htake
      rw [List.take_succ_cons, List.take_append] at hmem
      rcases List.mem_cons.mp hmem with heq | hmem
      · exact h (heq ▸ List.mem_cons_self)
      · rcases List.mem_append.mp hmem with hmem | hmem
        · exact h (List.mem_append_left _ (List.mem_cons_of_mem b (List.mem_of_mem_take hmem)))
        · have hle : u.length - a.length ≤ u.length := Nat.sub_le _ _
          exact h (List.mem_append_right _ ((List.take_subset_take_left s hle) hmem))
    rw [List.cons_append, find_cons_of_not hnot]
    exact ih fun hmem => h (List.mem_cons_of_mem b hmem)

/-- A stretch without the needle is passed over up to a byte that is not in the
needle. -/
theorem find_skip_until {needle a : Bytes} {c : UInt8} (hne : needle ≠ []) (hc : c ∉ needle)
    (ha : ¬ needle <:+: a) (s : Bytes) : find needle (a ++ c :: s) = find needle s := by
  induction a with
  | nil =>
    refine find_cons_of_not fun hp => ?_
    obtain ⟨b, v, rfl⟩ := List.exists_cons_of_ne_nil hne
    have hb : b = c := (List.cons_prefix_cons.mp hp).1
    exact hc (hb ▸ List.mem_cons_self)
  | cons b a ih =>
    have hnot : ¬ needle <+: b :: (a ++ c :: s) := by
      intro hp
      rcases List.prefix_or_prefix_of_prefix hp (List.prefix_append (b :: a) (c :: s)) with
        hin | ⟨v, hv⟩
      · exact ha hin.isInfix
      · -- The needle reaches beyond the stretch, so it holds `c`.
        rw [← hv] at hp
        have hrest : v <+: c :: s := (List.prefix_append_right_inj (b :: a)).mp hp
        cases v with
        | nil =>
          rw [List.append_nil] at hv
          exact ha (hv ▸ List.infix_rfl)
        | cons d v =>
          have hd : d = c := (List.cons_prefix_cons.mp hrest).1
          refine hc ?_
          rw [← hv, hd]
          exact List.mem_append_right _ List.mem_cons_self
    rw [List.cons_append, find_cons_of_not hnot]
    exact ih fun h => ha (List.infix_cons h)

/-- A word is passed over with the byte after it when it does not end in what
the needle has before that byte. -/
theorem find_skip_word {v a : Bytes} {c : UInt8} (hv : c ∉ v) (ha : c ∉ a) (hsuffix : ¬ v <:+ a)
    (s : Bytes) : find (v ++ [c]) (a ++ c :: s) = find (v ++ [c]) s := by
  have htake : ∀ w t : Bytes, c ∉ w → (w ++ c :: t).takeWhile (· ≠ c) = w := by
    intro w t hw
    have hall : ∀ b ∈ w, decide (b ≠ c) = true := fun b hb =>
      decide_eq_true fun heq => hw (heq ▸ hb)
    rw [List.takeWhile_append_of_pos hall, List.takeWhile_cons_of_neg (by simp), List.append_nil]
  induction a with
  | nil =>
    refine find_cons_of_not fun hp => hsuffix ?_
    obtain ⟨t, ht⟩ := hp
    rw [List.append_assoc] at ht
    have heq := congrArg (List.takeWhile (· ≠ c)) ht
    rw [List.singleton_append, htake v t hv, List.takeWhile_cons_of_neg (by simp)] at heq
    rw [heq]
  | cons b a ih =>
    have hnot : ¬ v ++ [c] <+: b :: (a ++ c :: s) := by
      rintro ⟨t, ht⟩
      rw [List.append_assoc, List.singleton_append, ← List.cons_append] at ht
      have heq := congrArg (List.takeWhile (· ≠ c)) ht
      rw [htake v t hv, htake (b :: a) s ha] at heq
      exact hsuffix (heq ▸ List.suffix_rfl)
    rw [List.cons_append, find_cons_of_not hnot]
    exact ih (fun h => ha (List.mem_cons_of_mem b h)) fun h =>
      hsuffix (h.trans (List.suffix_cons b a))

/-! ## Tokens -/

theorem isWord_append {s t : Bytes} (hs : IsWord s) (ht : IsWord t) : IsWord (s ++ t) := by
  intro b hb
  rcases List.mem_append.mp hb with hb | hb
  · exact hs b hb
  · exact ht b hb

theorem length_scanToken_le (s : Bytes) : (scanToken s).1.length ≤ s.length :=
  ((List.takeWhile_prefix _).sublist.trans (List.dropWhile_sublist _)).length_le

theorem isspace_of_mem_scanToken {s : Bytes} {b : UInt8} (h : b ∈ (scanToken s).1) :
    isspace b = false := by
  simpa using List.mem_takeWhile_imp h

/-- A token is not shorter than its text only if it is the whole text. -/
theorem scanToken_eq_of_length_le {s : Bytes} (h : s.length ≤ (scanToken s).1.length) :
    (scanToken s).1 = s :=
  ((List.takeWhile_prefix _).sublist.trans (List.dropWhile_sublist _)).eq_of_length_le h

/-- A word after white space is read up to the next white space. -/
theorem scanToken_word {w : Bytes} {b c : UInt8} {s : Bytes} (hw : IsWord (b :: w))
    (hc : isspace c = true) :
    scanToken (b :: w ++ c :: s) = (b :: w, c :: s) := by
  have hb : isspace b = false := hw b List.mem_cons_self
  have hdrop : (b :: w ++ c :: s).dropWhile isspace = b :: w ++ c :: s := by
    simp [hb]
  have hall : ∀ x ∈ b :: w, (!isspace x) = true := fun x hx => by rw [hw x hx]; rfl
  simp only [scanToken, hdrop]
  rw [List.takeWhile_append_of_pos hall, List.dropWhile_append_of_pos hall,
    List.takeWhile_cons_of_neg (by simp [hc]), List.dropWhile_cons_of_neg (by simp [hc]),
    List.append_nil]

theorem scanToken_self {s : Bytes} (h : IsWord s) : (scanToken s).1 = s := by
  have hdrop : s.dropWhile isspace = s := by
    cases s with
    | nil => rfl
    | cons b s => rw [List.dropWhile_cons_of_neg (by simp [h b List.mem_cons_self])]
  show (s.dropWhile isspace).takeWhile _ = s
  rw [hdrop, List.takeWhile_eq_self_iff]
  intro b hb
  rw [h b hb]
  rfl

theorem scanToken_cons_space {c : UInt8} (hc : isspace c = true) (s : Bytes) :
    scanToken (c :: s) = scanToken s := by
  rw [scanToken, List.dropWhile_cons_of_pos hc]
  rfl

/-- No white space of the text is in its token. -/
theorem length_scanToken_add_countP_le (s : Bytes) :
    (scanToken s).1.length + s.countP isspace ≤ s.length := by
  have hsub : (scanToken s).1.Sublist s :=
    (List.takeWhile_prefix _).sublist.trans (List.dropWhile_sublist _)
  have hall : ((scanToken s).1.filter fun b => !isspace b) = (scanToken s).1 := by
    rw [List.filter_eq_self]
    intro b hb
    rw [isspace_of_mem_scanToken hb]
    rfl
  have hle : (scanToken s).1.length ≤ s.countP fun b => !isspace b := by
    rw [List.countP_eq_length_filter, ← hall]
    exact (hsub.filter _).length_le
  have hcount := List.length_eq_countP_add_countP isspace (l := s)
  have hneg : (s.countP fun b => decide ¬ isspace b = true) = s.countP fun b => !isspace b := by
    congr 1
    funext b
    cases isspace b <;> rfl
  rw [hneg] at hcount
  omega

/-- White space behind a text that is not blank ends the token at the latest
there. -/
theorem scanToken_append {s t : Bytes} (hs : ∃ b ∈ s, isspace b = false)
    (ht : ∀ c ∈ t.head?, isspace c = true) : (scanToken (s ++ t)).1 = (scanToken s).1 := by
  obtain ⟨b, hb, hblack⟩ := hs
  have hne : s.dropWhile isspace ≠ [] := by
    intro hnil
    have := List.dropWhile_eq_nil_iff.mp hnil b hb
    rw [hblack] at this
    contradiction
  have hdrop : (s ++ t).dropWhile isspace = s.dropWhile isspace ++ t := by
    rw [List.dropWhile_append, if_neg]
    rwa [List.isEmpty_iff]
  have htake : t.takeWhile (fun b => !isspace b) = [] := by
    cases t with
    | nil => rfl
    | cons c t => rw [List.takeWhile_cons_of_neg (by simp [ht c rfl])]
  show ((s ++ t).dropWhile isspace).takeWhile _ = (s.dropWhile isspace).takeWhile _
  rw [hdrop, List.takeWhile_append, htake, List.append_nil]
  split
  · rename_i hlen
    exact ((List.takeWhile_prefix _).eq_of_length hlen).symm
  · rfl

/-- A token that does not reach the last byte misses one more byte. -/
theorem scanToken_concat (s : Bytes) {c : UInt8} (hc : isspace c = false) :
    (∃ u, (scanToken (s ++ [c])).1 = u ++ [c]) ∨ (scanToken (s ++ [c])).1.length < s.length := by
  obtain ⟨rest, hrest⟩ : ∃ rest, rest = (s ++ [c]).dropWhile isspace := ⟨_, rfl⟩
  obtain ⟨tail, htail⟩ : ∃ tail, tail = rest.dropWhile fun b => !isspace b := ⟨_, rfl⟩
  have hsuffix : rest <:+ s ++ [c] := hrest ▸ List.dropWhile_suffix _
  have htoken : (scanToken (s ++ [c])).1 = rest.takeWhile fun b => !isspace b := by
    rw [hrest]
    rfl
  have hsplit : rest.takeWhile (fun b => !isspace b) ++ tail = rest := by
    rw [htail]
    exact List.takeWhile_append_dropWhile
  have hlen : rest.length ≤ s.length + 1 := by
    have := hsuffix.length_le
    rwa [List.length_append, List.length_singleton] at this
  rw [htoken]
  cases tail with
  | nil =>
    rw [List.append_nil] at hsplit
    rw [hsplit]
    rcases List.suffix_concat_iff.mp hsuffix with hnil | ⟨u, hu, -⟩
    · have hmem := List.dropWhile_eq_nil_iff.mp (hrest.symm.trans hnil) c (by simp)
      rw [hc] at hmem
      contradiction
    · exact Or.inl ⟨u, hu⟩
  | cons b tail =>
    have hb : isspace b = true := by
      have := List.head?_dropWhile_not (fun b => !isspace b) rest
      rw [← htail] at this
      simpa using this
    have htsuffix : b :: tail <:+ s ++ [c] := (htail ▸ List.dropWhile_suffix _).trans hsuffix
    have hlong : 2 ≤ (b :: tail).length := by
      cases tail with
      | cons d tail =>
        rw [List.length_cons, List.length_cons]
        omega
      | nil =>
        rcases List.suffix_concat_iff.mp htsuffix with hnil | ⟨u, hu, -⟩
        · contradiction
        · cases u with
          | nil =>
            rw [List.nil_append, List.cons.injEq] at hu
            rw [hu.1, hc] at hb
            contradiction
          | cons d u =>
            have := congrArg List.length hu
            simp at this
    have := congrArg List.length hsplit
    rw [List.length_append] at this
    omega

/-! ## Numbers -/

theorem decimal_of_nat (n : Nat) :
    decimal n = (Nat.toDigits 10 n).map fun c => c.toNat.toUInt8 := by
  have hneg : ¬ ((n : Int) < 0) := by omega
  simp only [decimal, if_neg hneg, Int.natAbs_natCast]

theorem toNat_digit {c : Char} (h : c.isDigit) : (c.toNat.toUInt8).toNat = c.toNat := by
  have hc : c.toNat ≤ 57 := by
    have := (Char.isDigit_iff_toNat.mp h).2
    exact this
  show c.toNat % 256 = c.toNat
  omega

theorem isdigit_digit {c : Char} (h : c.isDigit) : isdigit c.toNat.toUInt8 = true := by
  obtain ⟨h₁, h₂⟩ := Char.isDigit_iff_toNat.mp h
  have hb := toNat_digit h
  simp only [isdigit, UInt8.le_iff_toNat_le, decide_eq_true_eq, hb]
  exact ⟨h₁, h₂⟩

theorem isdigit_of_mem_decimal {n : Nat} {b : UInt8} (h : b ∈ decimal n) : isdigit b = true := by
  rw [decimal_of_nat] at h
  obtain ⟨c, hc, rfl⟩ := List.mem_map.mp h
  exact isdigit_digit (Nat.isDigit_of_mem_toDigits (by decide) (by decide) hc)

theorem decimal_ne_nil (n : Nat) : decimal n ≠ [] := by
  rw [decimal_of_nat]
  exact fun h => Nat.toDigits_ne_nil (List.map_eq_nil_iff.mp h)

theorem length_decimal_le_iff {n k : Nat} (hk : 0 < k) : (decimal n).length ≤ k ↔ n < 10 ^ k := by
  rw [decimal_of_nat, List.length_map]
  exact Nat.length_toDigits_le_iff (by decide) hk

theorem length_decimal_le {n k : Nat} (hk : 0 < k) (h : n < 10 ^ k) : (decimal n).length ≤ k :=
  (length_decimal_le_iff hk).mpr h

theorem digitsValue_decimal (n : Nat) : digitsValue (decimal n) = n := by
  have hfold : ∀ (l : List Char) (v : Nat), (∀ c ∈ l, c.isDigit) →
      (l.map fun c => c.toNat.toUInt8).foldl (fun value b => 10 * value + (b.toNat - 48)) v =
        Nat.ofDigitChars 10 l v := by
    intro l
    induction l with
    | nil =>
      intro v _
      rw [Nat.ofDigitChars_nil]
      rfl
    | cons c l ih =>
      intro v hl
      rw [List.map_cons, List.foldl_cons, toNat_digit (hl c List.mem_cons_self),
        ih _ fun d hd => hl d (List.mem_cons_of_mem c hd), Nat.ofDigitChars_cons]
      rfl
  rw [digitsValue, decimal_of_nat,
    hfold _ _ fun c hc => Nat.isDigit_of_mem_toDigits (by decide) (by decide) hc,
    Nat.ofDigitChars_ten_toDigits]

theorem isspace_of_isdigit {b : UInt8} (h : isdigit b = true) : isspace b = false := by
  revert h
  simp only [isdigit, isspace, UInt8.le_iff_toNat_le, ← UInt8.toNat_inj, decide_eq_true_eq,
    decide_eq_false_iff_not]
  intro h
  have h48 : (48 : UInt8).toNat = 48 := rfl
  have h32 : (32 : UInt8).toNat = 32 := rfl
  have h13 : (13 : UInt8).toNat = 13 := rfl
  omega

theorem isWord_decimal (n : Nat) : IsWord (decimal n) := fun _ hb =>
  isspace_of_isdigit (isdigit_of_mem_decimal hb)

/-- What is left behind the number that `%d` reads. -/
def afterInt (s : Bytes) : Bytes :=
  let t := s.dropWhile isspace
  let unsigned := if t.head? = some 45 ∨ t.head? = some 43 then t.drop 1 else t
  unsigned.dropWhile isdigit

/-- Digits are neither white space nor a sign. -/
theorem digits_append_start {digits : Bytes} (hne : digits ≠ [])
    (hdigits : ∀ b ∈ digits, isdigit b = true) (t : Bytes) :
    (digits ++ t).dropWhile isspace = digits ++ t ∧
      (digits ++ t).head? ≠ some 45 ∧ (digits ++ t).head? ≠ some 43 := by
  obtain ⟨b, w, rfl⟩ := List.exists_cons_of_ne_nil hne
  have hb : isdigit b = true := hdigits b List.mem_cons_self
  have hspace := isspace_of_isdigit hb
  rw [List.cons_append, List.dropWhile_cons_of_neg (by rw [hspace]; decide), List.head?_cons]
  refine ⟨rfl, fun h => ?_, fun h => ?_⟩
  · rw [Option.some.inj h] at hb
    contradiction
  · rw [Option.some.inj h] at hb
    contradiction

/-- The digits end where something else starts. -/
theorem digits_append_split {digits t : Bytes} (hdigits : ∀ b ∈ digits, isdigit b = true)
    (ht : ∀ c ∈ t.head?, isdigit c = false) :
    (digits ++ t).takeWhile isdigit = digits ∧ (digits ++ t).dropWhile isdigit = t := by
  rw [List.takeWhile_append_of_pos hdigits, List.dropWhile_append_of_pos hdigits]
  cases t with
  | nil => exact ⟨List.append_nil _, rfl⟩
  | cons c t =>
    have hc : ¬ isdigit c = true := by
      rw [ht c rfl]
      decide
    rw [List.takeWhile_cons_of_neg hc, List.dropWhile_cons_of_neg hc, List.append_nil]
    exact ⟨rfl, rfl⟩

/-- A text with a number behind white space and perhaps a sign. -/
def NumberAt (s : Bytes) (n : Int) : Prop :=
  ∃ space sign digits rest : Bytes, s = space ++ (sign ++ (digits ++ rest)) ∧
    (∀ b ∈ space, isspace b = true) ∧ digits ≠ [] ∧ (∀ b ∈ digits, isdigit b = true) ∧
      (∀ c ∈ rest.head?, isdigit c = false) ∧
        ((sign = [] ∨ sign = [43]) ∧ n = digitsValue digits ∨
          sign = [45] ∧ n = -(digitsValue digits : Int))

theorem scanInt_of_numberAt {s : Bytes} {n : Int} (h : NumberAt s n) : scanInt s = some n := by
  obtain ⟨space, sign, digits, rest, rfl, hspace, hne, hdigits, hrest, hsign⟩ := h
  obtain ⟨hskip, h45, h43⟩ := digits_append_start hne hdigits rest
  have hsplit := (digits_append_split hdigits hrest).1
  have hdrop : (space ++ (sign ++ (digits ++ rest))).dropWhile isspace =
      sign ++ (digits ++ rest) := by
    rw [List.dropWhile_append_of_pos hspace]
    rcases hsign with ⟨rfl | rfl, -⟩ | ⟨rfl, -⟩
    · exact hskip
    · exact List.dropWhile_cons_of_neg (by decide)
    · exact List.dropWhile_cons_of_neg (by decide)
  rcases hsign with ⟨rfl | rfl, rfl⟩ | ⟨rfl, rfl⟩
  · rw [List.nil_append] at hdrop ⊢
    simp only [scanInt, hdrop, h45, h43, or_self, if_false, hsplit, hne]
  · rw [List.singleton_append] at hdrop ⊢
    simp only [scanInt, hdrop, List.head?_cons, or_true, if_true, List.drop_one, List.tail_cons,
      hsplit, hne, if_false]
    rfl
  · rw [List.singleton_append] at hdrop ⊢
    simp only [scanInt, hdrop, List.head?_cons, true_or, if_true, List.drop_one, List.tail_cons,
      hsplit, hne, if_false]

theorem numberAt_of_scanInt {s : Bytes} {n : Int} (h : scanInt s = some n) : NumberAt s n := by
  have hspace := List.takeWhile_append_dropWhile (p := isspace) (l := s)
  obtain ⟨t, ht⟩ : ∃ t, t = s.dropWhile isspace := ⟨_, rfl⟩
  have hall : ∀ b ∈ s.takeWhile isspace, isspace b = true := fun b hb =>
    List.mem_takeWhile_imp hb
  have hend : ∀ u : Bytes, ∀ c ∈ (u.dropWhile isdigit).head?, isdigit c = false := by
    intro u c hc
    have hnot := List.head?_dropWhile_not isdigit u
    rw [Option.mem_def.mp hc] at hnot
    exact hnot
  have hdigits : ∀ u : Bytes, ∀ b ∈ u.takeWhile isdigit, isdigit b = true := fun u b hb =>
    List.mem_takeWhile_imp hb
  rw [← ht] at hspace
  simp only [scanInt, ← ht, Option.ite_none_left_eq_some, Option.some.injEq] at h
  obtain ⟨hne, hn⟩ := h
  by_cases hminus : t.head? = some 45
  · obtain ⟨u, rfl⟩ := List.head?_eq_some_iff.mp hminus
    simp only [List.head?_cons, true_or, if_true, List.drop_one, List.tail_cons] at hne hn
    refine ⟨_, [45], u.takeWhile isdigit, u.dropWhile isdigit, ?_, hall, hne, hdigits u, hend u,
      .inr ⟨rfl, hn.symm⟩⟩
    rw [List.takeWhile_append_dropWhile]
    exact hspace.symm
  · by_cases hplus : t.head? = some 43
    · obtain ⟨u, rfl⟩ := List.head?_eq_some_iff.mp hplus
      simp only [hplus, or_true, if_true, List.drop_one, List.tail_cons] at hne hn
      refine ⟨_, [43], u.takeWhile isdigit, u.dropWhile isdigit, ?_, hall, hne, hdigits u, hend u,
        .inl ⟨.inr rfl, hn.symm⟩⟩
      rw [List.takeWhile_append_dropWhile]
      exact hspace.symm
    · simp only [hminus, hplus, or_self, if_false] at hne hn
      refine ⟨_, [], t.takeWhile isdigit, t.dropWhile isdigit, ?_, hall, hne, hdigits t, hend t,
        .inl ⟨.inl rfl, hn.symm⟩⟩
      rw [List.nil_append, List.takeWhile_append_dropWhile]
      exact hspace.symm

/-- `%d` reads the number that stands there. -/
theorem scanInt_eq_some_iff {s : Bytes} {n : Int} : scanInt s = some n ↔ NumberAt s n :=
  ⟨numberAt_of_scanInt, scanInt_of_numberAt⟩

/-- A number is read back up to the first byte that is no digit. -/
theorem scanInt_decimal_append (n : Nat) {t : Bytes} (ht : ∀ c ∈ t.head?, isdigit c = false) :
    scanInt (decimal n ++ t) = some (n : Int) := by
  refine scanInt_of_numberAt ⟨[], [], decimal n, t, rfl, nofun, decimal_ne_nil n,
    fun b hb => isdigit_of_mem_decimal hb, ht, .inl ⟨.inl rfl, ?_⟩⟩
  rw [digitsValue_decimal]

theorem afterInt_decimal_append (n : Nat) {t : Bytes} (ht : ∀ c ∈ t.head?, isdigit c = false) :
    afterInt (decimal n ++ t) = t := by
  have hdigits : ∀ b ∈ decimal n, isdigit b = true := fun b hb => isdigit_of_mem_decimal hb
  obtain ⟨hskip, h45, h43⟩ := digits_append_start (decimal_ne_nil n) hdigits t
  simp only [afterInt, hskip, h45, h43, or_self, if_false, (digits_append_split hdigits ht).2]

/-- A numeral can be told from what follows it. -/
theorem decimal_append_inj {n m : Nat} {s t : Bytes} (hs : ∀ c ∈ s.head?, isdigit c = false)
    (ht : ∀ c ∈ t.head?, isdigit c = false) (h : decimal n ++ s = decimal m ++ t) :
    n = m ∧ s = t := by
  have hint := congrArg scanInt h
  rw [scanInt_decimal_append n hs, scanInt_decimal_append m ht, Option.some.injEq] at hint
  have hafter := congrArg afterInt h
  rw [afterInt_decimal_append n hs, afterInt_decimal_append m ht] at hafter
  exact ⟨Int.ofNat.inj hint, hafter⟩

theorem scanInt_decimal (n : Nat) {c : UInt8} (hc : isdigit c = false) (s : Bytes) :
    scanInt (decimal n ++ c :: s) = some (n : Int) := by
  refine scanInt_decimal_append n fun b hb => ?_
  cases hb
  exact hc

theorem scanInt_cons_space {c : UInt8} (hc : isspace c = true) (s : Bytes) :
    scanInt (c :: s) = scanInt s := by
  rw [scanInt, List.dropWhile_cons_of_pos hc]
  rfl

theorem afterInt_cons_space {c : UInt8} (hc : isspace c = true) (s : Bytes) :
    afterInt (c :: s) = afterInt s := by
  rw [afterInt, List.dropWhile_cons_of_pos hc]
  rfl

/-- A word after white space is read up to the end or to the next white space. -/
theorem scanToken_word_append {w t : Bytes} (hne : w ≠ []) (hw : IsWord w)
    (ht : ∀ c ∈ t.head?, isspace c = true) : scanToken (w ++ t) = (w, t) := by
  obtain ⟨b, w, rfl⟩ := List.exists_cons_of_ne_nil hne
  cases t with
  | nil =>
    have hall : ∀ x ∈ b :: w, (!isspace x) = true := fun x hx => by rw [hw x hx]; rfl
    have hdrop : (b :: w).dropWhile isspace = b :: w := by
      simp [hw b List.mem_cons_self]
    simp only [scanToken, List.append_nil, hdrop]
    rw [List.takeWhile_eq_self_iff.mpr hall, List.dropWhile_eq_nil_iff.mpr hall]
  | cons c t => exact scanToken_word hw (ht c rfl)

theorem scanWord_word {w t : Bytes} {width : Nat} (hne : w ≠ []) (hw : IsWord w)
    (hlen : w.length ≤ width) (ht : ∀ c ∈ t.head?, isspace c = true) :
    scanWord width (w ++ t) = some (w, t) := by
  have htoken := scanToken_word_append hne hw ht
  rw [scanToken, Prod.mk.injEq] at htoken
  have hskip : (w ++ t).dropWhile isspace ≠ [] := by
    intro hnil
    rw [hnil] at htoken
    exact hne htoken.1.symm
  have hsplit : (w ++ t).dropWhile isspace = w ++ t := by
    rw [← List.takeWhile_append_dropWhile (p := fun b => !isspace b)
      (l := (w ++ t).dropWhile isspace), htoken.1, htoken.2]
  simp only [scanWord]
  rw [if_neg hskip, htoken.1, hsplit, List.take_of_length_le hlen, List.drop_left]

theorem scanWord_cons_space {c : UInt8} (hc : isspace c = true) (width : Nat) (s : Bytes) :
    scanWord width (c :: s) = scanWord width s := by
  rw [scanWord, List.dropWhile_cons_of_pos hc]
  rfl

/-! ## Words between white space -/

/-- White space before a word is skipped. -/
theorem scanToken_skip {gap : Bytes} (hgap : ∀ b ∈ gap, isspace b = true) (s : Bytes) :
    scanToken (gap ++ s) = scanToken s := by
  induction gap with
  | nil => rfl
  | cons b gap ih =>
    rw [List.cons_append, scanToken_cons_space (hgap b List.mem_cons_self)]
    exact ih fun c hc => hgap c (List.mem_cons_of_mem _ hc)

theorem scanToken_eq_iff {s word rest : Bytes} (hne : word ≠ []) :
    scanToken s = (word, rest) ↔ ∃ gap, s = gap ++ (word ++ rest) ∧
      (∀ b ∈ gap, isspace b = true) ∧ IsWord word ∧ ∀ c ∈ rest.head?, isspace c = true := by
  constructor
  · intro h
    rw [scanToken, Prod.mk.injEq] at h
    obtain ⟨rfl, rfl⟩ := h
    refine ⟨s.takeWhile isspace, ?_, fun b hb => List.mem_takeWhile_imp hb, fun b hb => ?_,
      fun c hc => ?_⟩
    · rw [List.takeWhile_append_dropWhile, List.takeWhile_append_dropWhile]
    · have hword := List.mem_takeWhile_imp hb
      rwa [Bool.not_eq_true'] at hword
    · have hhead := List.head?_dropWhile_not (fun b => !isspace b) (s.dropWhile isspace)
      rw [Option.mem_def] at hc
      rw [hc] at hhead
      simpa using hhead
  · rintro ⟨gap, rfl, hgap, hword, hrest⟩
    rw [scanToken_skip hgap]
    exact scanToken_word_append hne hword hrest

/-- The text starts with two words. -/
def TwoWords (text first second : Bytes) : Prop :=
  ∃ gap gap' rest, text = gap ++ (first ++ (gap' ++ (second ++ rest))) ∧
    (∀ b ∈ gap, isspace b = true) ∧ (∀ b ∈ gap', isspace b = true) ∧ gap' ≠ [] ∧
    (first ≠ [] ∧ IsWord first) ∧ (second ≠ [] ∧ IsWord second) ∧
    ∀ c ∈ rest.head?, isspace c = true

/-- What `"%s %s"` reads when it reads both words. -/
theorem scanToken_twice_iff {s first second : Bytes} (hfirst : first ≠ []) (hsecond : second ≠ []) :
    ((scanToken s).1 = first ∧ (scanToken (scanToken s).2).1 = second) ↔
      TwoWords s first second := by
  constructor
  · rintro ⟨rfl, rfl⟩
    have hscan : ∀ t, scanToken t = ((scanToken t).1, (scanToken t).2) := fun _ => rfl
    obtain ⟨gap, hs, hgap, hword, hhead⟩ := (scanToken_eq_iff hfirst).mp (hscan s)
    obtain ⟨gap', hs', hgap', hword', hhead'⟩ :=
      (scanToken_eq_iff hsecond).mp (hscan (scanToken s).2)
    refine ⟨gap, gap', _, hs' ▸ hs, hgap, hgap', ?_, ⟨hfirst, hword⟩, ⟨hsecond, hword'⟩, hhead'⟩
    rintro rfl
    obtain ⟨b, w, hbw⟩ := List.exists_cons_of_ne_nil hsecond
    rw [List.nil_append, hbw] at hs'
    have hspace := hhead b (by rw [hs']; rfl)
    rw [hword' b (by rw [hbw]; exact List.mem_cons_self)] at hspace
    cases hspace
  · rintro ⟨gap, gap', rest, rfl, hgap, hgap', hne, ⟨-, hword⟩, ⟨-, hword'⟩, hrest⟩
    have hhead : ∀ c ∈ (gap' ++ (second ++ rest)).head?, isspace c = true := by
      obtain ⟨b, w, rfl⟩ := List.exists_cons_of_ne_nil hne
      intro c hc
      obtain rfl : b = c := Option.some.inj hc
      exact hgap' b List.mem_cons_self
    rw [scanToken_skip hgap, scanToken_word_append hfirst hword hhead, scanToken_skip hgap',
      scanToken_word_append hsecond hword' hrest]
    exact ⟨rfl, rfl⟩

end CString
end NetLab
