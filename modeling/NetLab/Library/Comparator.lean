import Mathlib.Data.List.Sort

/-!
# Sorting with a comparison function

A comparison function returns a number whose sign says which of two elements
comes first.  A sort is asked for no more than an order in which no element
compares greater than a later one, and is defined only for a function that obeys
the laws on the elements at hand.  Then that order is unique.
-/

namespace NetLab
namespace Comparator

variable {α : Type*}

/-- The function is a strict total order on the elements of the list. -/
structure StrictOn (cmp : α → α → Int) (l : List α) : Prop where
  self : ∀ a ∈ l, cmp a a = 0
  opposite : ∀ a ∈ l, ∀ b ∈ l, a ≠ b →
    cmp a b < 0 ∧ 0 < cmp b a ∨ 0 < cmp a b ∧ cmp b a < 0
  trans : ∀ a ∈ l, ∀ b ∈ l, ∀ c ∈ l, cmp a b < 0 → cmp b c < 0 → cmp a c < 0

/-- `sorted` is what a sort may return for `l`. -/
structure Sorts (cmp : α → α → Int) (l sorted : List α) : Prop where
  perm : sorted.Perm l
  ordered : sorted.Pairwise fun a b => cmp a b ≤ 0

variable {cmp : α → α → Int} {l : List α}

theorem StrictOn.perm (h : StrictOn cmp l) {l' : List α} (hperm : l'.Perm l) : StrictOn cmp l' where
  self := fun a ha => h.self a (hperm.mem_iff.mp ha)
  opposite := fun a ha b hb => h.opposite a (hperm.mem_iff.mp ha) b (hperm.mem_iff.mp hb)
  trans := fun a ha b hb c hc =>
    h.trans a (hperm.mem_iff.mp ha) b (hperm.mem_iff.mp hb) c (hperm.mem_iff.mp hc)

theorem StrictOn.antisymm (h : StrictOn cmp l) {a b : α} (ha : a ∈ l) (hb : b ∈ l)
    (hab : cmp a b ≤ 0) (hba : cmp b a ≤ 0) : a = b := by
  by_contra hne
  rcases h.opposite a ha b hb hne with hlt | hgt
  · omega
  · omega

theorem StrictOn.le_trans (h : StrictOn cmp l) {a b c : α} (ha : a ∈ l) (hb : b ∈ l) (hc : c ∈ l)
    (hab : cmp a b ≤ 0) (hbc : cmp b c ≤ 0) : cmp a c ≤ 0 := by
  by_cases heq : a = b
  · exact heq ▸ hbc
  · by_cases heq' : b = c
    · exact heq' ▸ hab
    · have hlt : cmp a b < 0 := by
        rcases h.opposite a ha b hb heq with hlt | hgt
        · exact hlt.1
        · omega
      have hlt' : cmp b c < 0 := by
        rcases h.opposite b hb c hc heq' with hlt | hgt
        · exact hlt.1
        · omega
      exact Int.le_of_lt (h.trans a ha b hb c hc hlt hlt')

theorem StrictOn.total (h : StrictOn cmp l) {a b : α} (ha : a ∈ l) (hb : b ∈ l) :
    cmp a b ≤ 0 ∨ cmp b a ≤ 0 := by
  by_cases heq : a = b
  · exact .inl (heq ▸ Int.le_of_eq (h.self a ha))
  · rcases h.opposite a ha b hb heq with hlt | hgt
    · exact .inl (Int.le_of_lt hlt.1)
    · exact .inr (Int.le_of_lt hgt.2)

/-- The order in which the elements came does not matter. -/
theorem StrictOn.sorts_unique (h : StrictOn cmp l) {l₁ l₂ s₁ s₂ : List α} (hl₁ : l₁.Perm l)
    (hl₂ : l₂.Perm l) (hs₁ : Sorts cmp l₁ s₁) (hs₂ : Sorts cmp l₂ s₂) : s₁ = s₂ := by
  have hp₁ : s₁.Perm l := hs₁.perm.trans hl₁
  have hp₂ : s₂.Perm l := hs₂.perm.trans hl₂
  refine List.Perm.eq_of_pairwise ?_ hs₁.ordered hs₂.ordered (hp₁.trans hp₂.symm)
  intro a b ha hb hab hba
  exact h.antisymm (hp₁.mem_iff.mp ha) (hp₂.mem_iff.mp hb) hab hba

/-- Merge sort finds it.  The laws hold on the elements of the list alone, so
the sort is taken there. -/
theorem StrictOn.sorts_mergeSort (h : StrictOn cmp l) :
    Sorts cmp l (l.mergeSort fun a b => cmp a b ≤ 0) := by
  refine ⟨List.mergeSort_perm _ _, ?_⟩
  have hattach : (l.attach.mergeSort fun a b => decide (cmp a.1 b.1 ≤ 0)).map Subtype.val =
      l.mergeSort fun a b => decide (cmp a b ≤ 0) := by
    rw [List.map_mergeSort (s := fun a b => decide (cmp a b ≤ 0)) fun _ _ _ _ => rfl,
      List.attach_map_subtype_val]
  rw [← hattach, List.pairwise_map]
  refine (List.pairwise_mergeSort ?_ ?_ l.attach).imp of_decide_eq_true
  · intro a b c hab hbc
    exact decide_eq_true
      (h.le_trans a.2 b.2 c.2 (of_decide_eq_true hab) (of_decide_eq_true hbc))
  · intro a b
    rw [Bool.or_eq_true, decide_eq_true_iff, decide_eq_true_iff]
    exact h.total a.2 b.2

end Comparator
end NetLab
