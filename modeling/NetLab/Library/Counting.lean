import NetLab.Library.Transition

/-!
# Counting the steps of one kind

A number that one kind of step raises by one, and that no other step changes,
counts the steps of that kind.  It stays below a bound at each of them exactly
if there are not too many, whatever happens in between.
-/

namespace NetLab
namespace Transition
namespace System

variable {σ α : Type*} {M : System σ α}

/-- The steps that `p` picks raise `f` by one, and the others keep it. -/
def Counts (M : System σ α) (p : α → Bool) (f : σ → Nat) : Prop :=
  ∀ s a s', M.step s a = some s' → f s' = f s + if p a then 1 else 0

/-- `P` holds of every state that the run visits, the last one included. -/
def Throughout (M : System σ α) (P : σ → Prop) : σ → List α → Prop
  | s, [] => P s
  | s, a :: as => P s ∧ ∀ s', M.step s a = some s' → Throughout M P s' as

theorem throughout_cons {P : σ → Prop} {s s' : σ} {a : α} (h : M.step s a = some s')
    (as : List α) : M.Throughout P s (a :: as) ↔ P s ∧ M.Throughout P s' as := by
  simp [Throughout, h]

theorem Throughout.append {P : σ → Prop} {s t : σ} {l l' : List α} (hl : M.Throughout P s l)
    (hrun : M.run s l = some t) (hl' : M.Throughout P t l') : M.Throughout P s (l ++ l') := by
  induction l generalizing s with
  | nil =>
    rw [run_nil, Option.some.injEq] at hrun
    exact hrun ▸ hl'
  | cons a l ih =>
    rw [run, Option.bind_eq_some_iff] at hrun
    obtain ⟨u, hstep, hrest⟩ := hrun
    rw [throughout_cons hstep] at hl
    rw [List.cons_append, throughout_cons hstep]
    exact ⟨hl.1, ih hl.2 hrest⟩

theorem Throughout.mono {P Q : σ → Prop} (h : ∀ s, P s → Q s) {s : σ} {l : List α}
    (hl : M.Throughout P s l) : M.Throughout Q s l := by
  induction l generalizing s with
  | nil => exact h s hl
  | cons a l ih => exact ⟨h s hl.1, fun t hstep => ih (hl.2 t hstep)⟩

theorem Throughout.first {P : σ → Prop} {s : σ} {l : List α} (hl : M.Throughout P s l) : P s := by
  cases l with
  | nil => exact hl
  | cons a l => exact hl.1

/-- What holds throughout a run holds where it ends. -/
theorem Throughout.last {P : σ → Prop} {s t : σ} {l : List α} (hl : M.Throughout P s l)
    (hrun : M.run s l = some t) : P t := by
  induction l generalizing s with
  | nil =>
    rw [run_nil, Option.some.injEq] at hrun
    exact hrun ▸ hl
  | cons a l ih =>
    rw [run, Option.bind_eq_some_iff] at hrun
    obtain ⟨u, hstep, hrest⟩ := hrun
    exact ih (hl.2 u hstep) hrest

/-- An invariant `I` that gives `P` and that the steps with `Q` keep: if the
other steps all lead out of `P`, then `P` holds throughout a run exactly if its
steps have `Q`. -/
theorem throughout_iff_along {I P : σ → Prop} {Q : σ → α → Prop} (hP : ∀ s, I s → P s)
    (hI : ∀ s a s', I s → Q s a → M.step s a = some s' → I s')
    (hQ : ∀ s a s', I s → M.step s a = some s' → P s' → Q s a)
    (hnone : ∀ s a, M.step s a = none → Q s a) {s : σ} (hs : I s) (l : List α) :
    M.Throughout P s l ↔ M.Along Q s l := by
  induction l generalizing s with
  | nil => exact iff_of_true (hP s hs) trivial
  | cons a l ih =>
    cases hstep : M.step s a with
    | none =>
      rw [along_cons_none hstep]
      refine iff_of_true ⟨hP s hs, fun s' h => ?_⟩ (hnone s a hstep)
      rw [hstep] at h
      cases h
    | some s' =>
      rw [throughout_cons hstep, along_cons hstep]
      constructor
      · rintro ⟨-, hall⟩
        have hq := hQ s a s' hs hstep hall.first
        exact ⟨hq, (ih (hI s a s' hs hq hstep)).mp hall⟩
      · rintro ⟨hq, hall⟩
        exact ⟨hP s hs, (ih (hI s a s' hs hq hstep)).mpr hall⟩

theorem run_append {s t : σ} {l : List α} (hrun : M.run s l = some t) (l' : List α) :
    M.run s (l ++ l') = M.run t l' := by
  induction l generalizing s with
  | nil =>
    rw [run_nil, Option.some.injEq] at hrun
    rw [hrun, List.nil_append]
  | cons a l ih =>
    rw [run, Option.bind_eq_some_iff] at hrun
    obtain ⟨u, hstep, hrest⟩ := hrun
    rw [List.cons_append, run_cons hstep, ih hrest]

variable {p : α → Bool} {f : σ → Nat}

theorem Counts.run (h : M.Counts p f) {s s' : σ} {l : List α} (hrun : M.run s l = some s') :
    f s' = f s + l.countP p := by
  induction l generalizing s with
  | nil =>
    rw [run_nil, Option.some.injEq] at hrun
    rw [hrun, List.countP_nil, Nat.add_zero]
  | cons a l ih =>
    rw [System.run, Option.bind_eq_some_iff] at hrun
    obtain ⟨t, hstep, hrest⟩ := hrun
    rw [ih hrest, h s a t hstep, List.countP_cons]
    omega

/-- An invariant that each counted step weakens by one. -/
theorem run_weakened {I : Nat → σ → Prop}
    (hstep : ∀ n s a s', I n s → M.step s a = some s' → I (n + (p a).toNat) s') {n : Nat}
    {s s' : σ} {l : List α} (hi : I n s) (hrun : M.run s l = some s') :
    I (n + l.countP p) s' := by
  induction l generalizing n s with
  | nil =>
    rw [run_nil, Option.some.injEq] at hrun
    exact hrun ▸ hi
  | cons a l ih =>
    rw [System.run, Option.bind_eq_some_iff] at hrun
    obtain ⟨t, hs, hrest⟩ := hrun
    have h := ih (hstep n s a t hi hs) hrest
    have hcount : n + (p a).toNat + l.countP p = n + (a :: l).countP p := by
      rw [List.countP_cons, Nat.add_assoc, Nat.add_comm (p a).toNat]
      cases p a <;> rfl
    exact hcount ▸ h

/-- A property that asks, within the bound, for room at each counted step holds
along a run exactly if there is room for all of them. -/
theorem Counts.along_iff (h : M.Counts p f) {b : Nat} {P : σ → α → Prop}
    (hP : ∀ s a s', M.Reachable s → f s ≤ b → M.step s a = some s' →
      (P s a ↔ (p a = true → f s < b)))
    {s s' : σ} {l : List α} (hreach : M.Reachable s) (hs : f s ≤ b)
    (hrun : M.run s l = some s') :
    M.Along P s l ↔ f s + l.countP p ≤ b := by
  induction l generalizing s with
  | nil => exact iff_of_true trivial hs
  | cons a l ih =>
    rw [System.run, Option.bind_eq_some_iff] at hrun
    obtain ⟨t, hstep, hrest⟩ := hrun
    have hcount := h s a t hstep
    have ht := hreach.step hstep
    rw [along_cons hstep, hP s a t hreach hs hstep, List.countP_cons]
    cases hp : p a with
    | false =>
      have hsame : f t = f s := by
        rw [hcount, hp]
        rfl
      rw [ih ht (hsame ▸ hs) hrest, hsame]
      exact ⟨fun hall => hall.2, fun hle => ⟨fun hc => absurd hc Bool.false_ne_true, hle⟩⟩
    | true =>
      have hone : f t = f s + 1 := by
        rw [hcount, hp]
        rfl
      rw [if_pos rfl]
      constructor
      · intro hall
        have hlt := hall.1 rfl
        have hle := (ih ht (by omega) hrest).mp hall.2
        omega
      · intro hle
        have hlt : f s < b := by omega
        refine ⟨fun _ => hlt, (ih ht (by omega) hrest).mpr ?_⟩
        omega

end System
end Transition
end NetLab
