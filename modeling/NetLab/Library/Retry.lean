import NetLab.Library.History

/-!
# Loops that give up

A loop is kept going by inputs that are progress, and otherwise counts its tries
up to a limit.  How long it can go on depends on the progress alone: each piece
of it buys one more round of tries.
-/

namespace NetLab
namespace Retry

open Insertion

variable {σ ι ε : Type*}

/-- What one step of such a loop does.  Progress sets the count back to zero, and
any other input is a further try or the end; only a further try sends, and at
most once. -/
structure Retrying (step : σ → ι → σ × List ε) (limit : Nat) (goes : σ → Prop) (tries : σ → Nat)
    (progress : ι → Bool) (sent : ε → Bool) : Prop where
  stopped : ∀ s i, ¬ goes s → step s i = (s, [])
  reset : ∀ s i, goes s → progress i = true → goes (step s i).1 → tries (step s i).1 = 0
  retry : ∀ s i, goes s → progress i = false → goes (step s i).1 →
    tries s < limit ∧ tries (step s i).1 = tries s + 1 ∧ (step s i).2.countP sent ≤ 1
  quiet : ∀ s i, goes s → progress i = false → ¬ goes (step s i).1 →
    (step s i).2.countP sent = 0

namespace Retrying

variable {step : σ → ι → σ × List ε} {limit : Nat} {goes : σ → Prop} {tries : σ → Nat}
  {progress : ι → Bool} {sent : ε → Bool}

theorem run_stopped (h : Retrying step limit goes tries progress sent) {s : σ} (hs : ¬ goes s)
    (is : List ι) : run step s is = (s, []) := by
  induction is with
  | nil => rfl
  | cons i is ih =>
    rw [run, h.stopped s i hs, ih]
    rfl

/-- A loop that still goes has not stopped before. -/
theorem goes_of_run (h : Retrying step limit goes tries progress sent) {s : σ} {is : List ι}
    (hgoes : goes (run step s is).1) : goes s := by
  by_contra hs
  rw [h.run_stopped hs] at hgoes
  exact hs hgoes

/-- The inputs a loop has taken and the tries it had before are paid for by a
round for each piece of progress and by the tries of the present round. -/
theorem length_le (h : Retrying step limit goes tries progress sent) (is : List ι) :
    ∀ s, tries s ≤ limit → goes (run step s is).1 →
      is.length + tries s ≤ (limit + 1) * is.countP progress + tries (run step s is).1 ∧
        tries (run step s is).1 ≤ limit := by
  induction is with
  | nil =>
    intro s hs _
    rw [List.length_nil, Nat.zero_add, List.countP_nil, Nat.mul_zero, Nat.zero_add]
    exact ⟨Nat.le_refl _, hs⟩
  | cons i is ih =>
    intro s hs hgoes
    have hnext : goes (step s i).1 := h.goes_of_run hgoes
    have hnow : goes s := by
      by_contra hnot
      rw [h.stopped s i hnot] at hnext
      exact hnot hnext
    have hrun : (run step s (i :: is)).1 = (run step (step s i).1 is).1 := rfl
    rw [hrun, List.length_cons]
    cases hprogress : progress i with
    | true =>
      have hzero := h.reset s i hnow hprogress hnext
      obtain ⟨hlen, hlast⟩ := ih (step s i).1 (hzero ▸ Nat.zero_le _) hgoes
      rw [List.countP_cons_of_pos hprogress, Nat.mul_succ]
      exact ⟨by omega, hlast⟩
    | false =>
      obtain ⟨hlt, htries, -⟩ := h.retry s i hnow hprogress hnext
      obtain ⟨hlen, hlast⟩ := ih (step s i).1 (by omega) hgoes
      rw [List.countP_cons_of_neg (by rw [hprogress]; decide)]
      exact ⟨by omega, hlast⟩

/-- So it stops within one round more than there was progress. -/
theorem stops (h : Retrying step limit goes tries progress sent) {s : σ} {is : List ι}
    (hs : tries s = 0) (hlen : (limit + 1) * (is.countP progress + 1) ≤ is.length) :
    ¬ goes (run step s is).1 := by
  intro hgoes
  obtain ⟨hle, hlast⟩ := h.length_le is s (hs ▸ Nat.zero_le _) hgoes
  rw [Nat.mul_succ] at hlen
  omega

/-- Without progress there are no more further tries than were left, and no more
is sent. -/
theorem sent_le (h : Retrying step limit goes tries progress sent) (is : List ι) :
    ∀ s, (∀ i ∈ is, progress i = false) →
      (run step s is).2.countP sent ≤ limit - tries s := by
  induction is with
  | nil => exact fun _ _ => Nat.zero_le _
  | cons i is ih =>
    intro s hnone
    obtain ⟨hfirst, hrest⟩ := List.forall_mem_cons.mp hnone
    by_cases hnow : goes s
    · rw [run, List.countP_append]
      by_cases hnext : goes (step s i).1
      · obtain ⟨hlt, htries, hone⟩ := h.retry s i hnow hfirst hnext
        have hle := ih (step s i).1 hrest
        omega
      · rw [h.quiet s i hnow hfirst hnext, h.run_stopped hnext]
        exact Nat.zero_le _
    · rw [h.run_stopped hnow]
      exact Nat.zero_le _

end Retrying

end Retry
end NetLab
