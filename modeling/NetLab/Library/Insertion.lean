import Mathlib.Data.List.Basic

/-!
# Two runs that differ by inserted inputs

A machine consumes inputs and puts out effects.  A list of marked inputs stands
for two runs: a longer one over all of them, and a shorter one over those that
are not inserted.  `Lockstep` is what one input has to preserve for the two runs
to look alike.
-/

namespace NetLab
namespace Insertion

/-- An input of both runs, or of the longer one only. -/
inductive Marked (ι : Type*)
  | kept (i : ι)
  | inserted (i : ι)
  deriving DecidableEq, Repr

variable {σ ι ε ω : Type*}

/-- The inputs of the shorter run. -/
def shorter : List (Marked ι) → List ι
  | [] => []
  | .kept i :: l => i :: shorter l
  | .inserted _ :: l => shorter l

/-- The inputs of the longer run. -/
def longer : List (Marked ι) → List ι
  | [] => []
  | .kept i :: l => i :: longer l
  | .inserted i :: l => i :: longer l

/-- The last state and all effects. -/
def run (step : σ → ι → σ × List ε) : σ → List ι → σ × List ε
  | s, [] => (s, [])
  | s, i :: is => ((run step (step s i).1 is).1, (step s i).2 ++ (run step (step s i).1 is).2)

/-- The condition `ok` holds at each input, of the states of the two runs before
it and of the inputs behind it. -/
def Along (step : σ → ι → σ × List ε) (ok : σ → σ → Marked ι → List (Marked ι) → Prop) :
    σ → σ → List (Marked ι) → Prop
  | _, _, [] => True
  | s, t, .kept i :: l => ok s t (.kept i) l ∧ Along step ok (step s i).1 (step t i).1 l
  | s, t, .inserted i :: l => ok s t (.inserted i) l ∧ Along step ok s (step t i).1 l

/-- An input that both runs take keeps the states related and shows the same,
and one that only the longer run takes shows nothing. -/
structure Lockstep (step : σ → ι → σ × List ε)
    (ok : σ → σ → Marked ι → List (Marked ι) → Prop) (observe : ε → Option ω)
    (R : σ → σ → List (Marked ι) → Prop) : Prop where
  kept : ∀ s t i l, R s t (.kept i :: l) → ok s t (.kept i) l →
    R (step s i).1 (step t i).1 l ∧
      (step s i).2.filterMap observe = (step t i).2.filterMap observe
  inserted : ∀ s t i l, R s t (.inserted i :: l) → ok s t (.inserted i) l →
    R s (step t i).1 l ∧ (step t i).2.filterMap observe = []

/-- The two runs end related and have shown the same. -/
theorem Lockstep.run {step : σ → ι → σ × List ε}
    {ok : σ → σ → Marked ι → List (Marked ι) → Prop} {observe : ε → Option ω}
    {R : σ → σ → List (Marked ι) → Prop} (h : Lockstep step ok observe R)
    (l : List (Marked ι)) : ∀ s t, R s t l → Along step ok s t l →
      R (run step s (shorter l)).1 (run step t (longer l)).1 [] ∧
        (run step s (shorter l)).2.filterMap observe =
          (run step t (longer l)).2.filterMap observe := by
  induction l with
  | nil =>
    intro s t hr _
    exact ⟨hr, rfl⟩
  | cons m l ih =>
    intro s t hr halong
    cases m with
    | kept i =>
      obtain ⟨hnext, hshown⟩ := h.kept s t i l hr halong.1
      obtain ⟨hend, hrest⟩ := ih _ _ hnext halong.2
      refine ⟨hend, ?_⟩
      show ((step s i).2 ++ _).filterMap observe = ((step t i).2 ++ _).filterMap observe
      rw [List.filterMap_append, List.filterMap_append, hshown, hrest]
    | inserted i =>
      obtain ⟨hnext, hshown⟩ := h.inserted s t i l hr halong.1
      obtain ⟨hend, hrest⟩ := ih _ _ hnext halong.2
      refine ⟨hend, ?_⟩
      show _ = ((step t i).2 ++ _).filterMap observe
      rw [List.filterMap_append, hshown, List.nil_append]
      exact hrest

end Insertion
end NetLab
