import NetLab.Library.Fifo

/-!
# Questions asked one at a time

A caller asks a question and waits for an answer before the next.  It takes
whatever answer comes first for the answer to its last question.  Questions and
answers travel in order; one of them may be lost or repeated on the way, and the
caller may break off a wait.

Questions are numbered from zero.  Each repetition and each broken wait is a
slip.  Answers never run ahead, never change their order, and lag behind by at
most one question for each slip.
-/

namespace NetLab
namespace Lockstep

open Fifo

structure State where
  /-- How many questions were asked. -/
  asked : Nat
  waiting : Bool
  /-- The numbers of the questions and answers on their way, oldest first. -/
  flight : List Nat
  /-- How many questions had been asked when an answer came, and the number of
  the question that it answers. -/
  answers : List (Nat × Nat)
  deriving DecidableEq, Repr

def start : State := { asked := 0, waiting := false, flight := [], answers := [] }

/-- One step.  The flag says whether it is a slip. -/
inductive Step : Bool → State → State → Prop
  | ask (s : State) : s.waiting = false →
      Step false s { s with
        asked := s.asked + 1, waiting := true, flight := s.flight ++ [s.asked] }
  | take (s : State) (j : Nat) (rest : List Nat) : s.waiting = true → s.flight = j :: rest →
      Step false s { s with
        waiting := false, flight := rest, answers := s.answers ++ [(s.asked, j)] }
  | breakOff (s : State) : s.waiting = true → Step true s { s with waiting := false }
  | disturb (b : Bool) (s : State) (q : List Nat) : Disturbed b s.flight q →
      Step b s { s with flight := q }

/-! ## How old a message in flight can be -/

/-- The number of the message at position `p` is at least `base + p - (n + 1)`. -/
def Within (n : Nat) : Nat → List Nat → Prop
  | _, [] => True
  | base, j :: rest => base ≤ j + 1 + n ∧ Within n (base + 1) rest

theorem within_append {n base : Nat} {l r : List Nat} :
    Within n base (l ++ r) ↔ Within n base l ∧ Within n (base + l.length) r := by
  induction l generalizing base with
  | nil => exact (iff_of_eq (true_and _)).symm
  | cons j l ih =>
    rw [List.cons_append, Within, Within, ih, List.length_cons, and_assoc]
    have harith : base + 1 + l.length = base + (l.length + 1) := by omega
    rw [harith]

theorem Within.mono {n n' base base' : Nat} (hle : base' + n ≤ base + n') {l : List Nat}
    (h : Within n base l) : Within n' base' l := by
  induction l generalizing base base' with
  | nil => trivial
  | cons j l ih =>
    have := h.1
    exact ⟨by omega, ih (by omega) h.2⟩

theorem Within.disturbed {n base : Nat} {b : Bool} {q q' : List Nat} (h : Within n base q)
    (hd : Disturbed b q q') : Within (n + b.toNat) base q' := by
  cases hd with
  | same => exact h.mono (by omega)
  | lose l x r =>
    obtain ⟨hl, -, hr⟩ := within_append.mp h
    exact within_append.mpr ⟨hl, hr.mono (by omega)⟩
  | dup l x r =>
    obtain ⟨hl, hx, hr⟩ := within_append.mp h
    have hone : true.toNat = 1 := rfl
    refine within_append.mpr ⟨hl.mono (by omega), by omega, by omega, hr.mono (by omega)⟩

/-! ## The invariant -/

/-- What holds after `n` slips. -/
structure Inv (n : Nat) (s : State) : Prop where
  asked : ∀ j ∈ s.flight, j < s.asked
  ordered : (s.answers.map Prod.snd ++ s.flight).Pairwise (· ≤ ·)
  excess : s.flight.length ≤ n + s.waiting.toNat
  within : Within n (s.asked + (!s.waiting).toNat) s.flight
  lag : ∀ x ∈ s.answers, x.2 < x.1 ∧ x.1 ≤ x.2 + 1 + n
  turns : ∀ x ∈ s.answers, x.1 + s.waiting.toNat ≤ s.asked
  once : (s.answers.map Prod.fst).Pairwise (· < ·)

theorem inv_start : Inv 0 start where
  asked j hj := by cases hj
  ordered := .nil
  excess := Nat.zero_le _
  within := trivial
  lag x hx := by cases hx
  turns x hx := by cases hx
  once := .nil

/-- A further slip allows for more. -/
theorem Inv.mono {n n' : Nat} {s : State} (hle : n ≤ n') (h : Inv n s) : Inv n' s :=
  { h with
    excess := by have := h.excess; omega
    within := h.within.mono (by omega)
    lag := fun x hx => ⟨(h.lag x hx).1, by have := (h.lag x hx).2; omega⟩ }

theorem Inv.ask {n : Nat} {s : State} (h : Inv n s) (hidle : s.waiting = false) :
    Inv n { s with asked := s.asked + 1, waiting := true, flight := s.flight ++ [s.asked] } := by
  have hexcess := h.excess
  have hwithin := h.within
  rw [hidle] at hexcess hwithin
  have hnew : ∀ j ∈ s.flight ++ [s.asked], j ∈ s.flight ∨ j = s.asked := by simp
  refine { h with asked := fun j hj => ?_, ordered := ?_, excess := ?_, within := ?_,
                  turns := fun x hx => ?_ }
  · rcases hnew j hj with hj | rfl
    · exact Nat.lt_succ_of_lt (h.asked j hj)
    · exact Nat.lt_succ_self _
  · rw [← List.append_assoc]
    refine pairwise_concat h.ordered fun j hj => ?_
    rcases List.mem_append.mp hj with hj | hj
    · obtain ⟨x, hx, rfl⟩ := List.mem_map.mp hj
      have := (h.lag x hx).1
      have := h.turns x hx
      omega
    · exact Nat.le_of_lt (h.asked j hj)
  · rw [List.length_append, List.length_singleton]
    exact Nat.succ_le_succ hexcess
  · refine within_append.mpr ⟨hwithin, ?_, trivial⟩
    simp only [Bool.toNat_false, Bool.not_true] at hexcess ⊢
    omega
  · have := h.turns x hx
    simp only [Bool.toNat_true]
    omega

/-- The oldest message in flight is taken for the answer. -/
theorem Inv.take {n : Nat} {s : State} (h : Inv n s) (hwait : s.waiting = true) {j : Nat}
    {rest : List Nat} (hflight : s.flight = j :: rest) :
    Inv n { s with
      waiting := false, flight := rest, answers := s.answers ++ [(s.asked, j)] } := by
  obtain ⟨asked, waiting, flight, answers⟩ := s
  obtain rfl : waiting = true := hwait
  obtain rfl : flight = j :: rest := hflight
  have hexcess := h.excess
  have hnew : ∀ x ∈ answers ++ [(asked, j)], x ∈ answers ∨ x = (asked, j) := by simp
  refine { asked := fun i hi => h.asked i (List.mem_cons_of_mem _ hi), ordered := ?_, excess := ?_,
           within := h.within.2, lag := fun x hx => ?_, turns := fun x hx => ?_, once := ?_ }
  · have hordered := h.ordered
    rw [List.append_cons] at hordered
    rw [List.map_append]
    exact hordered
  · exact Nat.le_of_succ_le_succ hexcess
  · rcases hnew x hx with hx | rfl
    · exact h.lag x hx
    · exact ⟨h.asked j List.mem_cons_self, h.within.1⟩
  · rcases hnew x hx with hx | rfl
    · exact Nat.le_trans (Nat.le_add_right _ _) (h.turns x hx)
    · exact Nat.le_refl _
  · rw [List.map_append]
    refine pairwise_concat h.once fun i hi => ?_
    obtain ⟨x, hx, rfl⟩ := List.mem_map.mp hi
    exact h.turns x hx

theorem Inv.breakOff {n : Nat} {s : State} (h : Inv n s) (hwait : s.waiting = true) :
    Inv (n + 1) { s with waiting := false } := by
  have hexcess := h.excess
  have hwithin := h.within
  rw [hwait] at hexcess hwithin
  refine { h.mono (Nat.le_succ n) with excess := hexcess, within := ?_, turns := fun x hx => ?_ }
  · have hbase : s.asked + 1 + n ≤ s.asked + 0 + (n + 1) := by omega
    exact hwithin.mono hbase
  · exact Nat.le_trans (Nat.le_add_right _ _) (h.turns x hx)

theorem Inv.disturb {n : Nat} {b : Bool} {s : State} {q : List Nat} (h : Inv n s)
    (hd : Disturbed b s.flight q) : Inv (n + b.toNat) { s with flight := q } := by
  refine { h.mono (Nat.le_add_right n b.toNat) with
    asked := fun j hj => h.asked j (hd.mem hj)
    ordered := (hd.append_right _).pairwise Nat.le_refl h.ordered
    excess := ?_
    within := h.within.disturbed hd }
  have hexcess := h.excess
  have hlen := hd.length_le
  dsimp only
  omega

theorem Inv.step {n : Nat} {b : Bool} {s s' : State} (h : Inv n s) (hs : Step b s s') :
    Inv (n + b.toNat) s' := by
  cases hs with
  | ask _ hidle => exact h.ask hidle
  | take _ j rest hwait hflight => exact h.take hwait hflight
  | breakOff _ hwait => exact h.breakOff hwait
  | disturb _ _ q hd => exact h.disturb hd

end Lockstep
end NetLab
