import Mathlib.Data.List.Perm.Basic

/-!
# Streams in one list

A list of elements, each with the stream it belongs to, is a merge of its
restrictions to the streams.  These determine it up to the order between
streams.
-/

namespace NetLab
namespace Merge

variable {κ α : Type*} [DecidableEq κ]

/-- The elements of one stream. -/
def restrict (k : κ) (l : List (κ × α)) : List α := (l.filter fun p => p.1 = k).map Prod.snd

theorem restrict_append (k : κ) (l l' : List (κ × α)) :
    restrict k (l ++ l') = restrict k l ++ restrict k l' := by
  rw [restrict, List.filter_append, List.map_append]
  rfl

theorem restrict_concat_self (k : κ) (l : List (κ × α)) (a : α) :
    restrict k (l ++ [(k, a)]) = restrict k l ++ [a] := by
  rw [restrict_append]
  simp [restrict]

theorem restrict_concat_of_ne {k k' : κ} (h : k' ≠ k) (l : List (κ × α)) (a : α) :
    restrict k (l ++ [(k', a)]) = restrict k l := by
  rw [restrict_append]
  simp [restrict, h]

theorem count_restrict [DecidableEq α] (k : κ) (a : α) (l : List (κ × α)) :
    (restrict k l).count a = l.count (k, a) := by
  induction l with
  | nil => rfl
  | cons p l ih =>
    obtain ⟨k', b⟩ := p
    rw [List.count_cons, ← ih]
    by_cases hk : k' = k
    · simp [restrict, hk, List.count_cons]
    · simp [restrict, hk]

theorem perm_of_restrict [DecidableEq α] {l l' : List (κ × α)}
    (h : ∀ k, restrict k l = restrict k l') : l.Perm l' := by
  rw [List.perm_iff_count]
  rintro ⟨k, a⟩
  rw [← count_restrict, ← count_restrict, h]

end Merge
end NetLab
