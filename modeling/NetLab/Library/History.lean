import Mathlib.Data.List.Induction
import NetLab.Library.Insertion

/-!
# What a run has gathered

A machine as in `Insertion` consumes inputs one by one.  `collect` gathers
something at each of them, from the position of the input, the state before it
and the input itself, and `collect_invariant` is the induction over runs that
speaks of what was gathered.
-/

namespace NetLab
namespace History

open Insertion

/-- A property of the numbered elements of a list, one more included. -/
theorem forall_concat {α : Type*} {as : List α} {P : Nat → α → Prop}
    (hold : ∀ i a, as[i]? = some a → P i a) {b : α} (hnew : P as.length b) :
    ∀ i a, (as ++ [b])[i]? = some a → P i a := by
  intro i a ha
  rcases Nat.lt_or_ge i as.length with hlt | hge
  · rw [List.getElem?_append_left hlt] at ha
    exact hold i a ha
  · rw [List.getElem?_append_right hge, List.getElem?_singleton] at ha
    by_cases hi : i - as.length = 0
    · rw [if_pos hi, Option.some.injEq] at ha
      obtain rfl : i = as.length := by omega
      exact ha ▸ hnew
    · rw [if_neg hi] at ha
      cases ha

variable {σ ι ε β : Type*} (step : σ → ι → σ × List ε)

/-- What `f` gathers along a run whose first input has position `n`. -/
def collect (f : Nat → σ → ι → List β) : Nat → σ → List ι → List β
  | _, _, [] => []
  | n, s, i :: is => f n s i ++ collect f (n + 1) (step s i).1 is

variable {step} {f : Nat → σ → ι → List β}

theorem run_append (s : σ) (is js : List ι) :
    run step s (is ++ js) = ((run step (run step s is).1 js).1,
      (run step s is).2 ++ (run step (run step s is).1 js).2) := by
  induction is generalizing s with
  | nil => rfl
  | cons i is ih => rw [List.cons_append, run, run, ih, List.append_assoc]

theorem run_concat (s : σ) (is : List ι) (i : ι) :
    run step s (is ++ [i]) =
      ((step (run step s is).1 i).1, (run step s is).2 ++ (step (run step s is).1 i).2) := by
  rw [run_append, run, run, List.append_nil]

theorem collect_concat (n : Nat) (s : σ) (is : List ι) (i : ι) :
    collect step f n s (is ++ [i]) =
      collect step f n s is ++ f (n + is.length) (run step s is).1 i := by
  induction is generalizing n s with
  | nil =>
    show f n s i ++ [] = f n s i
    rw [List.append_nil]
  | cons j is ih =>
    have hlen : n + (j :: is).length = n + 1 + is.length := by
      rw [List.length_cons]
      omega
    show f n s j ++ collect step f (n + 1) (step s j).1 (is ++ [i]) = _
    rw [ih, ← List.append_assoc, hlen]
    rfl

/-- The history rule: what holds at the start and survives every step holds of
the inputs, of what they gathered, and of the state and the effects they lead
to. -/
theorem collect_invariant {I : List ι → List β → σ → List ε → Prop} {s : σ}
    (hstart : I [] [] s [])
    (hstep : ∀ is bs t es i, I is bs t es →
      I (is ++ [i]) (bs ++ f is.length t i) (step t i).1 (es ++ (step t i).2))
    (is : List ι) : I is (collect step f 0 s is) (run step s is).1 (run step s is).2 := by
  induction is using List.reverseRecOn with
  | nil => exact hstart
  | append_singleton is i ih =>
    rw [collect_concat, run_concat, Nat.zero_add]
    exact hstep is _ _ _ i ih

/-- Whatever was gathered was gathered at some input. -/
theorem mem_collect {n : Nat} {s : σ} {is : List ι} {b : β} (h : b ∈ collect step f n s is) :
    ∃ k i, is[k]? = some i ∧ b ∈ f (n + k) (run step s (is.take k)).1 i := by
  induction is generalizing n s with
  | nil => cases h
  | cons j is ih =>
    rcases List.mem_append.mp h with h | h
    · exact ⟨0, j, rfl, h⟩
    · obtain ⟨k, i, hk, hb⟩ := ih h
      refine ⟨k + 1, i, hk, ?_⟩
      rw [show n + (k + 1) = n + 1 + k by omega]
      exact hb

/-- What is gathered at most once at each input comes in the order of the
inputs. -/
theorem pairwise_collect {key : β → Nat} (hkey : ∀ n s i b, b ∈ f n s i → key b = n)
    (hone : ∀ n s i, (f n s i).length ≤ 1) (n : Nat) (s : σ) (is : List ι) :
    (collect step f n s is).Pairwise (key · < key ·) := by
  induction is generalizing n s with
  | nil => exact .nil
  | cons j is ih =>
    refine List.pairwise_append.mpr ⟨?_, ih (n + 1) _, ?_⟩
    · cases hf : f n s j with
      | nil => exact .nil
      | cons b bs =>
        have hlen := hone n s j
        rw [hf, List.length_cons] at hlen
        rw [List.eq_nil_of_length_eq_zero (show bs.length = 0 by omega)]
        exact List.pairwise_singleton _ b
    · intro a ha b hb
      obtain ⟨k, i, -, hb⟩ := mem_collect hb
      rw [hkey n s j a ha, hkey _ _ i b hb]
      omega

end History
end NetLab
