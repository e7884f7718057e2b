import NetLab.Library.Transition

/-!
# What a system can still do

`Can ok P s` says that some run from `s` ends in a state with `P`, each step of
the run meeting `ok`.  Runs are chained with `Can.trans`, and a measure that
drops chains as many of them as it takes.
-/

namespace NetLab
namespace Transition
namespace System

variable {σ α : Type*} {M : System σ α} {ok : σ → α → Prop} {P Q I : σ → Prop} {s : σ}

/-- Some run of permitted steps leads from the state to one with `P`. -/
inductive Can (M : System σ α) (ok : σ → α → Prop) (P : σ → Prop) : σ → Prop
  | here {s : σ} : P s → Can M ok P s
  | step {s s' : σ} {a : α} : M.step s a = some s' → ok s a → Can M ok P s' → Can M ok P s

theorem can_iff_exists_run :
    M.Can ok P s ↔ ∃ as s', M.Along ok s as ∧ M.run s as = some s' ∧ P s' := by
  constructor
  · intro h
    induction h with
    | here hp => exact ⟨[], _, trivial, run_nil _, hp⟩
    | step hs hok _ ih =>
      obtain ⟨as, s', halong, hrun, hp⟩ := ih
      exact ⟨_ :: as, s', (along_cons hs as).mpr ⟨hok, halong⟩, (run_cons hs as).trans hrun, hp⟩
  · rintro ⟨as, s', halong, hrun, hp⟩
    induction as generalizing s with
    | nil =>
      rw [run_nil, Option.some.injEq] at hrun
      exact .here (hrun ▸ hp)
    | cons a as ih =>
      rw [System.run, Option.bind_eq_some_iff] at hrun
      obtain ⟨t, hs, hrest⟩ := hrun
      exact .step hs halong.1 (ih (halong.2 t hs) hrest)

theorem Can.one {s' : σ} {a : α} (hs : M.step s a = some s') (hok : ok s a) (hp : P s') :
    M.Can ok P s :=
  .step hs hok (.here hp)

theorem Can.trans (h : M.Can ok P s) (hpq : ∀ s', P s' → M.Can ok Q s') : M.Can ok Q s := by
  induction h with
  | here hp => exact hpq _ hp
  | step hs hok _ ih => exact .step hs hok ih

theorem Can.mono (h : M.Can ok P s) (hpq : ∀ s', P s' → Q s') : M.Can ok Q s :=
  h.trans fun s' hp => .here (hpq s' hp)

/-- A property that permitted steps keep still holds where the run ends. -/
theorem Can.keep (h : M.Can ok P s) (hi : I s)
    (hstep : ∀ s a s', I s → ok s a → M.step s a = some s' → I s') :
    M.Can ok (fun s' => I s' ∧ P s') s := by
  induction h with
  | here hp => exact .here ⟨hi, hp⟩
  | step hs hok _ ih => exact .step hs hok (ih (hstep _ _ _ hi hok hs))

theorem Can.reachable (h : M.Can ok P s) (hs : M.Reachable s) :
    M.Can ok (fun s' => M.Reachable s' ∧ P s') s :=
  h.keep hs fun _ _ _ hr _ hstep => hr.step hstep

/-- While each round either reaches the goal or lowers the measure, the goal can
be reached. -/
theorem Can.descend (m : σ → Nat)
    (hround : ∀ s, I s → M.Can ok (fun s' => P s' ∨ I s' ∧ m s' < m s) s) (hi : I s) :
    M.Can ok P s := by
  induction hm : m s using Nat.strongRecOn generalizing s with
  | ind n ih =>
    refine (hround s hi).trans fun s' hs' => ?_
    rcases hs' with hp | ⟨hi', hlt⟩
    · exact .here hp
    · exact ih (m s') (hm ▸ hlt) hi' rfl

end System
end Transition
end NetLab
