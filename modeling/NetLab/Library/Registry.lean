import Mathlib.Data.List.Induction
import Mathlib.Data.List.Nodup

/-!
# A registry that keeps the order of first appearance

Entries are told apart by a key.  `register` appends an entry whose key is new
and keeps the registry otherwise, so the keys are the distinct keys seen so far,
each at the place of its first appearance.
-/

namespace NetLab
namespace Registry

variable {α κ : Type*} [DecidableEq κ]

/-! ## The distinct elements of a list -/

theorem eraseDups_concat (l : List κ) (a : κ) :
    (l ++ [a]).eraseDups = if a ∈ l then l.eraseDups else l.eraseDups ++ [a] := by
  rw [List.eraseDups_append, List.removeAll]
  by_cases h : a ∈ l
  · simp [h]
  · have hone : [a].eraseDups = [a] := rfl
    simp [h, hone]

theorem nodup_eraseDups (l : List κ) : l.eraseDups.Nodup := by
  induction l using List.reverseRecOn with
  | nil => exact List.nodup_nil
  | append_singleton l a ih =>
    rw [eraseDups_concat]
    by_cases h : a ∈ l
    · rw [if_pos h]
      exact ih
    · rw [if_neg h]
      refine List.nodup_append.mpr ⟨ih, List.nodup_singleton a, fun b hb c hc hbc => ?_⟩
      rw [List.mem_singleton] at hc
      exact h (List.mem_eraseDups.mp (hc ▸ hbc ▸ hb))

/-! ## Registration -/

/-- `entry` is appended unless its key is there. -/
def register (key : α → κ) (registry : List α) (entry : α) : List α :=
  if key entry ∈ registry.map key then registry else registry ++ [entry]

/-- The entries whose key is another one. -/
def others (key : α → κ) (k : κ) (registry : List α) : List α :=
  registry.filter fun entry => key entry ≠ k

variable {key : α → κ}

/-- The step that keeps the order of first appearance. -/
theorem map_register {registry : List α} {seen : List κ} (h : registry.map key = seen.eraseDups)
    (entry : α) : (register key registry entry).map key = (seen ++ [key entry]).eraseDups := by
  have hiff : key entry ∈ registry.map key ↔ key entry ∈ seen := by
    rw [h, List.mem_eraseDups]
  rw [register, eraseDups_concat]
  by_cases hmem : key entry ∈ seen
  · rw [if_pos (hiff.mpr hmem), if_pos hmem, h]
  · rw [if_neg (mt hiff.mp hmem), if_neg hmem, List.map_append, h]
    rfl

theorem map_others (k : κ) (registry : List α) :
    (others key k registry).map key = (registry.map key).filter (· ≠ k) := by
  rw [others, List.filter_map]
  rfl

/-- Each key but `k` is met once among the others. -/
theorem count_others {registry : List α} (h : (registry.map key).Nodup) (k p : κ) :
    ((others key k registry).map key).count p = if p ∈ registry.map key ∧ p ≠ k then 1 else 0 := by
  rw [map_others, List.Nodup.count (h.filter _)]
  simp [List.mem_filter]

/-- All but one of the entries are others, when `k` is a key of the registry. -/
theorem length_others {registry : List α} (h : (registry.map key).Nodup) {k : κ}
    (hk : k ∈ registry.map key) : (others key k registry).length + 1 = registry.length := by
  have hlen : (others key k registry).length = ((registry.map key).erase k).length := by
    rw [h.erase_eq_filter, ← List.length_map (f := key), map_others]
    refine congrArg List.length (List.filter_congr fun x _ => ?_)
    by_cases hx : x = k
    · simp [hx]
    · simp [hx, bne]
  have hpos : 0 < (registry.map key).length := List.length_pos_of_mem hk
  rw [List.length_erase_of_mem hk, List.length_map] at hlen
  rw [List.length_map] at hpos
  omega

end Registry
end NetLab
