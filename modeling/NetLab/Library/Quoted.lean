import NetLab.Library.CString

/-!
# Values in quotes

A reader of marked-up text goes from mark to mark: a mark is a name and a quote,
and the value behind it reaches to the next quote.
-/

namespace NetLab
namespace Quoted

open CString

/-- The values behind the marks `name ++ [quote]`, in order. -/
def values (name : Bytes) (quote : UInt8) (text : Bytes) : List Bytes :=
  match h : find (name ++ [quote]) text with
  | none => []
  | some t =>
    let value := t.drop (name.length + 1)
    value.takeWhile (· ≠ quote) ::
      values name quote ((value.dropWhile (· ≠ quote)).drop 1)
termination_by text.length
decreasing_by
  have hlen := (find_spec h).1.length_le
  have hpos := (find_spec h).2.length_le
  have hrest := (List.dropWhile_sublist (· ≠ quote) (l := t.drop (name.length + 1))).length_le
  simp only [List.length_append, List.length_singleton, List.length_drop] at *
  omega

variable {name : Bytes} {quote : UInt8}

/-- Only the place of the first mark counts. -/
theorem values_congr {s t : Bytes} (h : find (name ++ [quote]) s = find (name ++ [quote]) t) :
    values name quote s = values name quote t := by
  rw [values.eq_def, values.eq_def name quote t]
  split <;> split <;> simp_all

theorem values_eq_nil_iff (text : Bytes) :
    values name quote text = [] ↔ ¬ name ++ [quote] <:+: text := by
  rw [← find_isSome_iff, values.eq_def]
  split
  · rename_i hnone
    simp [hnone]
  · rename_i hsome
    simp [hsome]

/-- The value behind a mark at the start reaches to the next quote. -/
theorem values_mark (text : Bytes) :
    values name quote (name ++ quote :: text) =
      text.takeWhile (· ≠ quote) ::
        values name quote ((text.dropWhile (· ≠ quote)).drop 1) := by
  have hmark : name ++ quote :: text = (name ++ [quote]) ++ text := by simp
  have hdrop : (name ++ quote :: text).drop (name.length + 1) = text := by
    rw [hmark]
    exact List.drop_left' (by simp)
  have hfind : find (name ++ [quote]) (name ++ quote :: text) = some (name ++ quote :: text) := by
    rw [hmark]
    exact find_append_self text
  rw [values.eq_def]
  split
  · rename_i hnone
    rw [hfind] at hnone
    contradiction
  · rename_i t hsome
    rw [hfind] at hsome
    rw [← Option.some.inj hsome, hdrop]

/-- A value without a quote is read whole. -/
theorem values_mark_value {value : Bytes} (h : quote ∉ value) (rest : Bytes) :
    values name quote (name ++ quote :: (value ++ quote :: rest)) =
      value :: values name quote rest := by
  have hall : ∀ b ∈ value, decide (b ≠ quote) = true := fun b hb =>
    decide_eq_true fun heq => h (heq ▸ hb)
  rw [values_mark, List.takeWhile_append_of_pos hall, List.dropWhile_append_of_pos hall,
    List.takeWhile_cons_of_neg (by simp), List.dropWhile_cons_of_neg (by simp), List.append_nil,
    List.drop_one, List.tail_cons]

theorem quote_notMem_of_mem_values {text value : Bytes} (h : value ∈ values name quote text) :
    quote ∉ value := by
  fun_induction values name quote text with
  | case1 => contradiction
  | case2 text t _ rest ih =>
    rcases List.mem_cons.mp h with rfl | h
    · intro hmem
      have hne := List.mem_takeWhile_imp hmem
      simp at hne
    · exact ih h

/-- Text without a mark is passed over up to a byte that no mark holds. -/
theorem values_skip {text : Bytes} {b : UInt8} (hb : b ∉ name ++ [quote])
    (h : ¬ name ++ [quote] <:+: text) (rest : Bytes) :
    values name quote (text ++ b :: rest) = values name quote rest :=
  values_congr (find_skip_until (by simp) hb h rest)

/-- A mark ends in its quote, so it does not reach into text without one. -/
theorem mark_infix_append_iff {text more : Bytes} (h : quote ∉ more) :
    name ++ [quote] <:+: text ++ more ↔ name ++ [quote] <:+: text := by
  rw [List.infix_append_iff_ne_nil]
  refine or_iff_left ?_
  rintro (hin | ⟨front, back, -, hne, heq, -, hback⟩)
  · exact h (hin.subset (by simp))
  · have hlast := congrArg List.getLast? heq
    rw [List.getLast?_concat, List.getLast?_append_of_ne_nil _ hne] at hlast
    exact h (hback.subset (List.mem_of_getLast? hlast.symm))

/-- A mark that starts with `b` does not start in text without it. -/
theorem mark_infix_append_iff_of_head {b : UInt8} {tail text more : Bytes}
    (hname : name = b :: tail) (h : b ∉ text) :
    name ++ [quote] <:+: text ++ more ↔ name ++ [quote] <:+: more := by
  induction text with
  | nil => rfl
  | cons c text ih =>
    rw [List.mem_cons, not_or] at h
    rw [List.cons_append, List.infix_cons_iff, ih h.2, hname]
    exact or_iff_right fun hp => h.1 (List.cons_prefix_cons.mp hp).1

/-! ## Links -/

/-- The tag and the name of the attribute that holds a link. -/
def linkName : Bytes := ascii "<a href="

/-- The links that a reader of a page finds. -/
def links (html : Bytes) : List Bytes := values linkName 34 html

theorem mark_notInfix {text : Bytes} (h : 34 ∉ text) : ¬ linkName ++ [34] <:+: text :=
  fun hmark => h (hmark.subset (by decide))

theorem links_eq_nil {text : Bytes} (h : 34 ∉ text) : links text = [] :=
  (values_eq_nil_iff text).mpr (mark_notInfix h)

/-- Text without a link, up to the end of a tag or of a line. -/
theorem links_skip {text : Bytes} {b : UInt8} (hb : b ∉ linkName ++ [34])
    (h : ¬ linkName ++ [34] <:+: text) (rest : Bytes) :
    links (text ++ b :: rest) = links rest := values_skip hb h rest

/-- A link, and text without quotes behind it. -/
theorem links_cons {link text : Bytes} {b : UInt8} (hlink : 34 ∉ link) (htext : 34 ∉ text)
    (hb : b ∉ linkName ++ [34]) (rest : Bytes) :
    links (linkName ++ 34 :: (link ++ 34 :: (text ++ b :: rest))) = link :: links rest := by
  rw [links, values_mark_value hlink, values_skip hb (mark_notInfix htext)]
  rfl

end Quoted
end NetLab
