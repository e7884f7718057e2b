import Mathlib.Logic.Relation

/-!
# Systems that take labelled steps

`System` has a set of initial states and a partial step function.  The label
carries every choice of the environment, so one list of labels is one run, and
a run can be evaluated.  `Reachable` packages the induction over runs, and
`Along` says that a property of a state and the label taken there holds at each
step of a run.
-/

namespace NetLab
namespace Transition

/-- Initial states and a step function.  `step s a` is `none` when the action
`a` is not enabled in `s`. -/
structure System (σ α : Type*) where
  init : σ → Prop
  step : σ → α → Option σ

namespace System

variable {σ α τ β : Type*} (M : System σ α)

/-- The state after a list of actions, when each of them is enabled in turn. -/
def run : σ → List α → Option σ
  | s, [] => some s
  | s, a :: as => (M.step s a).bind fun s' => run s' as

/-- The states some run from an initial state ends in, when each step of the
run meets `ok`. -/
inductive ReachableBy (ok : σ → α → Prop) : σ → Prop
  | init {s : σ} : M.init s → ReachableBy ok s
  | step {s s' : σ} {a : α} : ReachableBy ok s → ok s a → M.step s a = some s' →
      ReachableBy ok s'

/-- The states some run from an initial state ends in. -/
def Reachable : σ → Prop := M.ReachableBy fun _ _ => True

/-- `P` holds of every state the run visits and the action taken there. -/
def Along (P : σ → α → Prop) : σ → List α → Prop
  | _, [] => True
  | s, a :: as => P s a ∧ ∀ s', M.step s a = some s' → Along P s' as

variable {M} {ok : σ → α → Prop}

theorem run_nil (s : σ) : M.run s [] = some s := rfl

theorem run_cons {s s' : σ} {a : α} (h : M.step s a = some s') (as : List α) :
    M.run s (a :: as) = M.run s' as := by
  rw [run, h]
  rfl

theorem run_singleton {s s' : σ} {a : α} (h : M.step s a = some s') : M.run s [a] = some s' :=
  run_cons h []

theorem along_cons {P : σ → α → Prop} {s s' : σ} {a : α} (h : M.step s a = some s')
    (as : List α) : M.Along P s (a :: as) ↔ P s a ∧ M.Along P s' as := by
  simp [Along, h]

theorem along_cons_none {P : σ → α → Prop} {s : σ} {a : α} (h : M.step s a = none)
    (as : List α) : M.Along P s (a :: as) ↔ P s a := by
  simp [Along, h]

/-- What holds along a run holds along the rest of it. -/
theorem Along.rest {P : σ → α → Prop} {s s' : σ} {as bs : List α} (h : M.Along P s (as ++ bs))
    (hrun : M.run s as = some s') : M.Along P s' bs := by
  induction as generalizing s with
  | nil =>
    rw [run_nil, Option.some.injEq] at hrun
    exact hrun ▸ h
  | cons a as ih =>
    rw [System.run, Option.bind_eq_some_iff] at hrun
    obtain ⟨t, hstep, hrest⟩ := hrun
    exact ih (h.2 t hstep) hrest

instance decidableAlong (P : σ → α → Prop) [∀ s a, Decidable (P s a)] :
    ∀ s as, Decidable (M.Along P s as)
  | _, [] => isTrue trivial
  | s, a :: as =>
    match h : M.step s a with
    | none => decidable_of_iff _ (along_cons_none h as).symm
    | some s' =>
      haveI := decidableAlong P s' as
      decidable_of_iff _ (along_cons h as).symm

theorem ReachableBy.mono {ok' : σ → α → Prop} (hok : ∀ s a, ok s a → ok' s a) {s : σ}
    (h : M.ReachableBy ok s) : M.ReachableBy ok' s := by
  induction h with
  | init h => exact .init h
  | step _ ha hstep ih => exact .step ih (hok _ _ ha) hstep

theorem ReachableBy.reachable {s : σ} (h : M.ReachableBy ok s) : M.Reachable s :=
  h.mono fun _ _ _ => trivial

theorem Reachable.step {s s' : σ} {a : α} (h : M.Reachable s) (hs : M.step s a = some s') :
    M.Reachable s' :=
  ReachableBy.step h trivial hs

/-- The invariant rule: what holds initially and survives every permitted step
holds of every state such steps reach. -/
theorem ReachableBy.invariant {I : σ → Prop} (hinit : ∀ s, M.init s → I s)
    (hstep : ∀ s a s', I s → ok s a → M.step s a = some s' → I s') {s : σ}
    (h : M.ReachableBy ok s) : I s := by
  induction h with
  | init h => exact hinit _ h
  | step _ ha hs ih => exact hstep _ _ _ ih ha hs

theorem Reachable.invariant {I : σ → Prop} (hinit : ∀ s, M.init s → I s)
    (hstep : ∀ s a s', I s → M.step s a = some s' → I s') {s : σ}
    (h : M.Reachable s) : I s :=
  ReachableBy.invariant hinit (fun s a s' hi _ hs => hstep s a s' hi hs) h

/-- A run whose steps all meet `ok` ends in a state such steps reach. -/
theorem ReachableBy.run {s s' : σ} {as : List α} (h : M.ReachableBy ok s)
    (hok : M.Along ok s as) (hrun : M.run s as = some s') : M.ReachableBy ok s' := by
  induction as generalizing s with
  | nil =>
    rw [run_nil, Option.some.injEq] at hrun
    exact hrun ▸ h
  | cons a as ih =>
    rw [System.run, Option.bind_eq_some_iff] at hrun
    obtain ⟨t, hstep, hrest⟩ := hrun
    exact ih (.step h hok.1 hstep) (hok.2 t hstep) hrest

/-- The history rule: what holds of a run so far and its state, and survives one
more step, holds of the whole run. -/
theorem run_history {I : List α → σ → Prop}
    (hstep : ∀ before s a s', I before s → M.step s a = some s' → I (before ++ [a]) s')
    {before : List α} {s s' : σ} {as : List α} (hi : I before s) (hrun : M.run s as = some s') :
    I (before ++ as) s' := by
  induction as generalizing before s with
  | nil =>
    rw [run_nil, Option.some.injEq] at hrun
    rw [List.append_nil]
    exact hrun ▸ hi
  | cons a as ih =>
    rw [System.run, Option.bind_eq_some_iff] at hrun
    obtain ⟨t, hs, hrest⟩ := hrun
    have h := ih (hstep before s a t hi hs) hrest
    rwa [List.append_assoc] at h

/-- The state after one more step. -/
theorem run_concat {s t s' : σ} {as : List α} {a : α} (hrun : M.run s as = some t)
    (hs : M.step t a = some s') : M.run s (as ++ [a]) = some s' := by
  induction as generalizing s with
  | nil =>
    rw [run_nil, Option.some.injEq] at hrun
    exact hrun ▸ run_singleton hs
  | cons b as ih =>
    rw [System.run, Option.bind_eq_some_iff] at hrun
    obtain ⟨u, hb, hrest⟩ := hrun
    rw [List.cons_append, run_cons hb]
    exact ih hrest

/-- What an observer sees of a run, oldest first. -/
def trace (M : System σ α) (obs : σ → α → Option β) : σ → List α → List β
  | _, [] => []
  | s, a :: as => (obs s a).toList ++ (M.step s a).elim [] fun s' => M.trace obs s' as

theorem trace_cons {obs : σ → α → Option β} {s s' : σ} {a : α} (h : M.step s a = some s')
    (as : List α) : M.trace obs s (a :: as) = (obs s a).toList ++ M.trace obs s' as := by
  rw [trace, h]
  rfl

theorem trace_concat {obs : σ → α → Option β} {s t : σ} {as : List α}
    (hrun : M.run s as = some t) (a : α) :
    M.trace obs s (as ++ [a]) = M.trace obs s as ++ (obs t a).toList := by
  induction as generalizing s with
  | nil =>
    rw [run_nil, Option.some.injEq] at hrun
    subst hrun
    rw [List.nil_append, trace, trace, List.nil_append]
    cases M.step s a <;> exact List.append_nil _
  | cons b as ih =>
    rw [System.run, Option.bind_eq_some_iff] at hrun
    obtain ⟨u, hb, hrest⟩ := hrun
    rw [List.cons_append, trace_cons hb, trace_cons hb, ih hrest, List.append_assoc]

/-- The history rule for what is seen of a run. -/
theorem run_trace (obs : σ → α → Option β) {I : List β → σ → Prop}
    (hstep : ∀ seen s a s', I seen s → M.step s a = some s' → I (seen ++ (obs s a).toList) s')
    {s s' : σ} {as : List α} (hi : I [] s) (hrun : M.run s as = some s') :
    I (M.trace obs s as) s' := by
  have h := run_history (M := M)
    (I := fun before t => M.run s before = some t ∧ I (M.trace obs s before) t)
    ?_ ⟨run_nil s, hi⟩ hrun
  · exact h.2
  · intro before t a t' hi hs
    refine ⟨run_concat hi.1 hs, ?_⟩
    rw [trace_concat hi.1]
    exact hstep _ t a t' hi.2 hs

theorem along_true (s : σ) (as : List α) : M.Along (fun _ _ => True) s as := by
  induction as generalizing s with
  | nil => trivial
  | cons a as ih => exact ⟨trivial, fun s' _ => ih s'⟩

theorem Reachable.run {s s' : σ} {as : List α} (h : M.Reachable s)
    (hrun : M.run s as = some s') : M.Reachable s' :=
  ReachableBy.run h (along_true s as) hrun

/-- What a run from an initial state computes, some reachable state shows. -/
theorem exists_reachableBy {P : σ → α → Prop} {γ : Type*} {f : σ → γ} {c : γ} {s : σ} {l : List α}
    (hs : M.init s) (hok : M.Along P s l) (h : (M.run s l).map f = some c) :
    ∃ s', M.ReachableBy P s' ∧ f s' = c := by
  obtain ⟨s', hrun, hf⟩ := Option.map_eq_some_iff.mp h
  exact ⟨s', ReachableBy.run (.init hs) hok hrun, hf⟩

theorem exists_reachable {γ : Type*} {f : σ → γ} {c : γ} {s : σ} {l : List α} (hs : M.init s)
    (h : (M.run s l).map f = some c) : ∃ s', M.Reachable s' ∧ f s' = c :=
  exists_reachableBy hs (along_true s l) h

/-- Two properties that agree at every reachable state hold along the same
runs. -/
theorem along_congr {P Q : σ → α → Prop} (h : ∀ s a, M.Reachable s → (P s a ↔ Q s a)) {s : σ}
    (hs : M.Reachable s) (as : List α) : M.Along P s as ↔ M.Along Q s as := by
  induction as generalizing s with
  | nil => exact Iff.rfl
  | cons a as ih =>
    refine and_congr (h s a hs) (forall_congr' fun s' => ?_)
    exact forall_congr' fun hstep => ih (hs.step hstep)

/-- A forward simulation: initial states of `M` are related to reachable states
of `N`, and every step of `M` is answered by some run of `N`, of any length,
that keeps the two states related. -/
structure Simulates (M : System σ α) (N : System τ β) (R : σ → τ → Prop) : Prop where
  init : ∀ s, M.init s → ∃ t, N.Reachable t ∧ R s t
  step : ∀ s a s' t, N.Reachable t → R s t → M.step s a = some s' →
    ∃ bs t', N.run t bs = some t' ∧ R s' t'

/-- A simulated system reaches only states related to reachable ones. -/
theorem Simulates.reachable {N : System τ β} {R : σ → τ → Prop} (h : Simulates M N R) {s : σ}
    (hs : M.Reachable s) : ∃ t, N.Reachable t ∧ R s t := by
  apply Reachable.invariant (I := fun s => ∃ t, N.Reachable t ∧ R s t) _ _ hs
  · exact h.init
  · intro s a s' hi hstep
    obtain ⟨t, ht, hr⟩ := hi
    obtain ⟨bs, t', hrun, hr'⟩ := h.step s a s' t ht hr hstep
    exact ⟨t', ht.run hrun, hr'⟩

end System
end Transition
end NetLab
