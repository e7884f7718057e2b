import Mathlib.Data.List.Basic
import Mathlib.Data.Set.Insert

/-!
# A room in which everyone hears the others

Members join and leave.  What somebody says is heard at once by the members
there are, the speaker apart.  Those who stay hear the same things in the same
order, and nobody hears what was said while they were away.
-/

namespace NetLab
namespace Broadcast

variable {C D : Type*}

inductive Event (C D : Type*)
  | join (c : C)
  | leave (c : C)
  | say (c : C) (d : D)
  deriving DecidableEq

/-- The members, and what each has heard and from whom, oldest first. -/
structure Room (C D : Type*) where
  members : Set C
  heard : C → List (C × D)

namespace Room

open Classical in
/-- The room after one event. -/
noncomputable def step (r : Room C D) : Event C D → Room C D
  | .join c => { r with members := insert c r.members }
  | .leave c => { r with members := r.members \ {c} }
  | .say c d =>
    { r with heard := fun p => r.heard p ++ if p ∈ r.members ∧ p ≠ c then [(c, d)] else [] }

noncomputable def after (r : Room C D) (es : List (Event C D)) : Room C D := es.foldl step r

/-- Nobody has come yet. -/
def empty : Room C D where
  members := ∅
  heard _ := []

theorem after_append (r : Room C D) (es es' : List (Event C D)) :
    r.after (es ++ es') = (r.after es).after es' := List.foldl_append

theorem after_cons (r : Room C D) (e : Event C D) (es : List (Event C D)) :
    r.after (e :: es) = (r.step e).after es := rfl

end Room

/-- What is said, and by whom. -/
def said (es : List (Event C D)) : List (C × D) :=
  es.filterMap fun
    | .say c d => some (c, d)
    | _ => none

theorem said_append (es es' : List (Event C D)) : said (es ++ es') = said es ++ said es' :=
  List.filterMap_append

section

variable {r : Room C D} {e : Event C D} {es : List (Event C D)} {p q : C}

open Room

/-- A member stays unless it leaves. -/
theorem mem_step (hp : p ∈ r.members) (hstay : e ≠ .leave p) : p ∈ (r.step e).members := by
  cases e with
  | join c => exact .inr hp
  | leave c =>
    refine ⟨hp, fun h => hstay ?_⟩
    rw [Set.mem_singleton_iff.mp h]
  | say c d => exact hp

/-- Somebody who is away comes only by joining. -/
theorem notMem_step (hp : p ∉ r.members) (haway : e ≠ .join p) : p ∉ (r.step e).members := by
  cases e with
  | join c =>
    rintro (rfl | h)
    · exact haway rfl
    · exact hp h
  | leave c => exact fun h => hp h.1
  | say c d => exact hp

/-- The others in the room hear what is said. -/
theorem heard_say (hp : p ∈ r.members) (hpq : p ≠ q) (d : D) :
    (r.step (.say q d)).heard p = r.heard p ++ [(q, d)] :=
  congrArg (r.heard p ++ ·) (if_pos ⟨hp, hpq⟩)

/-- Nobody else does. -/
theorem heard_say_of_not (h : ¬ (p ∈ r.members ∧ p ≠ q)) (d : D) :
    (r.step (.say q d)).heard p = r.heard p :=
  (congrArg (r.heard p ++ ·) (if_neg h)).trans (List.append_nil _)

/-- Whoever is away hears nothing. -/
theorem heard_of_away (hp : p ∉ r.members) (haway : .join p ∉ es) :
    p ∉ (r.after es).members ∧ (r.after es).heard p = r.heard p := by
  induction es generalizing r with
  | nil => exact ⟨hp, rfl⟩
  | cons e es ih =>
    rw [List.mem_cons, not_or] at haway
    obtain ⟨hmem, hheard⟩ := ih (notMem_step hp (Ne.symm haway.1)) haway.2
    refine ⟨hmem, hheard.trans ?_⟩
    cases e with
    | join c | leave c => rfl
    | say c d => exact heard_say_of_not (fun h => hp h.1) d

variable [DecidableEq C]

/-- One event is heard by a member if it is said by somebody else. -/
theorem heard_step (hp : p ∈ r.members) (e : Event C D) :
    (r.step e).heard p = r.heard p ++ (said [e]).filter fun m => m.1 ≠ p := by
  cases e with
  | join c | leave c => exact (List.append_nil _).symm
  | say c d =>
    show _ = r.heard p ++ [(c, d)].filter fun m => m.1 ≠ p
    by_cases hpc : p = c
    · rw [heard_say_of_not fun h => h.2 hpc, List.filter_cons_of_neg (by simp [hpc]),
        List.filter_nil, List.append_nil]
    · rw [heard_say hp hpc, List.filter_cons_of_pos (by simp [Ne.symm hpc]), List.filter_nil]

/-- Whoever stays hears all that the others say, in order. -/
theorem heard_of_stays (hp : p ∈ r.members) (hstay : .leave p ∉ es) :
    p ∈ (r.after es).members ∧
      (r.after es).heard p = r.heard p ++ (said es).filter fun m => m.1 ≠ p := by
  induction es generalizing r with
  | nil => exact ⟨hp, (List.append_nil _).symm⟩
  | cons e es ih =>
    rw [List.mem_cons, not_or] at hstay
    obtain ⟨hmem, hheard⟩ := ih (mem_step hp (Ne.symm hstay.1)) hstay.2
    refine ⟨hmem, ?_⟩
    rw [after_cons, hheard, heard_step hp, List.append_assoc, ← List.filter_append,
      ← said_append]
    rfl

end

end Broadcast
end NetLab
