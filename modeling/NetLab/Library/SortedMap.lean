import Mathlib.Data.List.Sort
import Mathlib.Logic.Function.Basic
import Mathlib.Order.Defs.Unbundled

/-!
# Maps that are iterated in key order

A map is the list of its entries, sorted by key, each key at most once.
-/

namespace NetLab

/-- A finite map with its entries in key order. -/
structure SortedMap (κ ν : Type*) [LT κ] where
  entries : List (κ × ν)
  sorted : entries.Pairwise fun a b => a.1 < b.1

namespace SortedMap

variable {κ ν : Type*} [LT κ]

def empty : SortedMap κ ν where
  entries := []
  sorted := .nil

/-- There is one way to list given entries in key order. -/
theorem sorted_unique [Std.Irrefl (α := κ) (· < ·)] [IsTrans κ (· < ·)] {l l' : List (κ × ν)}
    (hl : l.Pairwise fun a b => a.1 < b.1) (hl' : l'.Pairwise fun a b => a.1 < b.1)
    (h : ∀ e, e ∈ l ↔ e ∈ l') : l = l' := by
  have hirrefl : ∀ k : κ, ¬ k < k := fun k => Std.Irrefl.irrefl (r := (· < ·)) k
  have : Std.Irrefl fun a b : κ × ν => a.1 < b.1 := ⟨fun a => hirrefl a.1⟩
  have : Std.Antisymm fun a b : κ × ν => a.1 < b.1 :=
    ⟨fun a b hab hba => absurd (IsTrans.trans _ _ _ hab hba) (hirrefl a.1)⟩
  exact hl.eq_of_mem_iff hl' h

variable [DecidableLT κ] [DecidableEq κ]

/-- The entry for `k` is replaced, or a new one put at its place. -/
def insertEntry (k : κ) (v : ν) : List (κ × ν) → List (κ × ν)
  | [] => [(k, v)]
  | a :: l =>
    if k < a.1 then (k, v) :: a :: l
    else if k = a.1 then (k, v) :: l
    else a :: insertEntry k v l

/-- The value of the first entry for a key. -/
def lookupEntry (k : κ) : List (κ × ν) → Option ν
  | [] => none
  | a :: l => if k = a.1 then some a.2 else lookupEntry k l

theorem mem_insertEntry {k : κ} {v : ν} {l : List (κ × ν)} {e : κ × ν}
    (h : e ∈ insertEntry k v l) : e = (k, v) ∨ e ∈ l := by
  induction l with
  | nil => exact .inl (List.mem_singleton.mp h)
  | cons a l ih =>
    rw [insertEntry] at h
    by_cases hlt : k < a.1
    · rw [if_pos hlt] at h
      exact List.mem_cons.mp h
    · rw [if_neg hlt] at h
      by_cases heq : k = a.1
      · rw [if_pos heq] at h
        exact (List.mem_cons.mp h).imp id (List.mem_cons_of_mem a)
      · rw [if_neg heq] at h
        rcases List.mem_cons.mp h with rfl | h
        · exact .inr List.mem_cons_self
        · exact (ih h).imp id (List.mem_cons_of_mem a)

theorem sorted_insertEntry [IsTrans κ (· < ·)] [Std.Trichotomous (α := κ) (· < ·)] (k : κ) (v : ν)
    {l : List (κ × ν)} (h : l.Pairwise fun a b => a.1 < b.1) :
    (insertEntry k v l).Pairwise fun a b => a.1 < b.1 := by
  induction l with
  | nil => exact List.pairwise_singleton _ _
  | cons a l ih =>
    obtain ⟨ha, hl⟩ := List.pairwise_cons.mp h
    rw [insertEntry]
    by_cases hlt : k < a.1
    · rw [if_pos hlt]
      refine List.pairwise_cons.mpr ⟨fun b hb => ?_, h⟩
      rcases List.mem_cons.mp hb with rfl | hb
      · exact hlt
      · exact IsTrans.trans _ _ _ hlt (ha b hb)
    · rw [if_neg hlt]
      by_cases heq : k = a.1
      · rw [if_pos heq]
        exact List.pairwise_cons.mpr ⟨fun b hb => heq ▸ ha b hb, hl⟩
      · rw [if_neg heq]
        refine List.pairwise_cons.mpr ⟨fun b hb => ?_, ih hl⟩
        rcases mem_insertEntry hb with rfl | hb
        · rcases trichotomous_of (· < ·) k a.1 with h | h | h
          · exact absurd h hlt
          · exact absurd h heq
          · exact h
        · exact ha b hb

theorem mem_map_fst_insertEntry {k k' : κ} {v : ν} {l : List (κ × ν)} :
    k' ∈ (insertEntry k v l).map Prod.fst ↔ k' = k ∨ k' ∈ l.map Prod.fst := by
  induction l with
  | nil => simp [insertEntry]
  | cons a l ih =>
    rw [insertEntry]
    by_cases hlt : k < a.1
    · rw [if_pos hlt, List.map_cons, List.mem_cons]
    · rw [if_neg hlt]
      by_cases heq : k = a.1
      · rw [if_pos heq, List.map_cons, List.map_cons, List.mem_cons, List.mem_cons, ← heq]
        simp
      · rw [if_neg heq, List.map_cons, List.map_cons, List.mem_cons, List.mem_cons, ih]
        exact or_left_comm

theorem lookupEntry_insertEntry (k k' : κ) (v : ν) (l : List (κ × ν)) :
    lookupEntry k' (insertEntry k v l) = if k' = k then some v else lookupEntry k' l := by
  induction l with
  | nil => rfl
  | cons a l ih =>
    rw [insertEntry]
    by_cases hlt : k < a.1
    · rw [if_pos hlt, lookupEntry]
    · rw [if_neg hlt]
      by_cases heq : k = a.1
      · rw [if_pos heq, lookupEntry, lookupEntry, ← heq]
        by_cases hk : k' = k
        · rw [if_pos hk, if_pos hk]
        · rw [if_neg hk, if_neg hk, if_neg hk]
      · rw [if_neg heq, lookupEntry, lookupEntry, ih]
        by_cases hk : k' = a.1
        · rw [if_pos hk, if_pos hk, if_neg fun h => heq (h.symm.trans hk)]
        · rw [if_neg hk, if_neg hk]

variable [IsTrans κ (· < ·)] [Std.Trichotomous (α := κ) (· < ·)]

def insert (m : SortedMap κ ν) (k : κ) (v : ν) : SortedMap κ ν where
  entries := insertEntry k v m.entries
  sorted := sorted_insertEntry k v m.sorted

def lookup (m : SortedMap κ ν) (k : κ) : Option ν := lookupEntry k m.entries

def keys (m : SortedMap κ ν) : List κ := m.entries.map Prod.fst

theorem mem_keys_insert {m : SortedMap κ ν} {k k' : κ} {v : ν} :
    k' ∈ (m.insert k v).keys ↔ k' = k ∨ k' ∈ m.keys :=
  mem_map_fst_insertEntry

/-- As a function, the map is updated at the key. -/
theorem lookup_insert (m : SortedMap κ ν) (k : κ) (v : ν) :
    (m.insert k v).lookup = Function.update m.lookup k (some v) := by
  funext k'
  show lookupEntry k' (insertEntry k v m.entries) = _
  rw [lookupEntry_insertEntry, Function.update_apply]
  rfl

omit [DecidableLT κ] [IsTrans κ (· < ·)] [Std.Trichotomous (α := κ) (· < ·)] in
/-- The entries are what the map says as a function. -/
theorem mem_entries_iff [Std.Irrefl (α := κ) (· < ·)] {m : SortedMap κ ν} {k : κ} {v : ν} :
    (k, v) ∈ m.entries ↔ m.lookup k = some v := by
  obtain ⟨l, hl⟩ := m
  show (k, v) ∈ l ↔ lookupEntry k l = some v
  induction l with
  | nil => exact iff_of_false List.not_mem_nil (fun h => nomatch h)
  | cons a l ih =>
    obtain ⟨ha, hl⟩ := List.pairwise_cons.mp hl
    rw [List.mem_cons, lookupEntry, ih hl]
    by_cases hk : k = a.1
    · subst hk
      have hlater : lookupEntry a.1 l ≠ some v := fun h =>
        Std.Irrefl.irrefl (r := (· < ·)) a.1 (ha (a.1, v) ((ih hl).mpr h))
      rw [if_pos rfl, or_iff_left hlater, Option.some.injEq]
      exact ⟨fun h => (congrArg Prod.snd h).symm, fun h => Prod.ext rfl h.symm⟩
    · rw [if_neg hk]
      exact or_iff_right fun h => hk (congrArg Prod.fst h)

end SortedMap
end NetLab
