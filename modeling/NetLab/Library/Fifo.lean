import Mathlib.Data.List.Forall2

/-!
# Channels that keep the order

A channel is the list of messages in flight, oldest first.  It may lose a
message or repeat it in place, and never lets one message overtake another.
The lemmas say which properties of the content survive such a disturbance.
-/

namespace NetLab
namespace Fifo

variable {α β : Type*}

/-- What the network may do to a channel on its own. -/
inductive Disturbance
  | lose (i : Nat)
  | dup (i : Nat)
  deriving DecidableEq, Repr

/-- The channel after a disturbance of its `i`-th message.  An index past the
end changes nothing. -/
def disturb : Disturbance → List α → List α
  | .lose i, q => q.take i ++ q.drop (i + 1)
  | .dup i, q => q.take (i + 1) ++ q.drop i

theorem mem_of_mem_disturb {d : Disturbance} {q : List α} {m : α} (h : m ∈ disturb d q) :
    m ∈ q := by
  cases d with
  | lose i =>
    rcases List.mem_append.mp h with h | h
    · exact List.mem_of_mem_take h
    · exact List.mem_of_mem_drop h
  | dup i =>
    rcases List.mem_append.mp h with h | h
    · exact List.mem_of_mem_take h
    · exact List.mem_of_mem_drop h

/-- Repeating a message in place keeps every reflexive order of the content. -/
theorem pairwise_take_drop {R : α → α → Prop} (hrefl : ∀ a, R a a) {q : List α}
    (h : q.Pairwise R) (i : Nat) : (q.take (i + 1) ++ q.drop i).Pairwise R := by
  refine List.pairwise_append.mpr ⟨h.sublist (List.take_sublist _ _),
    h.sublist (List.drop_sublist _ _), fun a ha b hb => ?_⟩
  obtain ⟨j, hj, rfl⟩ := List.getElem_of_mem ha
  obtain ⟨k, hk, rfl⟩ := List.getElem_of_mem hb
  rw [List.length_take] at hj
  rw [List.length_drop] at hk
  rw [List.getElem_take, List.getElem_drop]
  rcases Nat.lt_or_ge j (i + k) with hlt | hge
  · exact List.pairwise_iff_getElem.mp h j (i + k) (by omega) (by omega) hlt
  · have hjk : j = i + k := by omega
    simp only [hjk]
    exact hrefl _

theorem pairwise_disturb {R : α → α → Prop} (hrefl : ∀ a, R a a) {q : List α}
    (h : q.Pairwise R) (d : Disturbance) : (disturb d q).Pairwise R := by
  cases d with
  | lose i =>
    have hsub : (q.take i ++ q.drop (i + 1)).Sublist (q.take i ++ q.drop i) :=
      List.Sublist.append_left (List.drop_sublist_drop_left q (Nat.le_succ i)) _
    rw [List.take_append_drop] at hsub
    exact h.sublist hsub
  | dup i => exact pairwise_take_drop hrefl h i

/-- Two channels that carry related messages are disturbed alike. -/
theorem forall₂_disturb {R : α → β → Prop} {q : List α} {q' : List β}
    (h : List.Forall₂ R q q') (d : Disturbance) :
    List.Forall₂ R (disturb d q) (disturb d q') := by
  cases d with
  | lose i => exact List.rel_append (List.forall₂_take i h) (List.forall₂_drop (i + 1) h)
  | dup i => exact List.rel_append (List.forall₂_take (i + 1) h) (List.forall₂_drop i h)

theorem forall₂_concat {R : α → β → Prop} {q : List α} {q' : List β}
    (h : List.Forall₂ R q q') {m : α} {m' : β} (hm : R m m') :
    List.Forall₂ R (q ++ [m]) (q' ++ [m']) :=
  List.rel_append h (.cons hm .nil)

/-- Whatever is in one of two such channels has its counterpart in the other. -/
theorem exists_related {R : α → β → Prop} {q : List α} {q' : List β} (h : List.Forall₂ R q q')
    {m : α} (hm : m ∈ q) : ∃ m' ∈ q', R m m' := by
  induction h with
  | nil => cases hm
  | cons hr _ ih =>
    rcases List.mem_cons.mp hm with rfl | hm
    · exact ⟨_, List.mem_cons_self, hr⟩
    · obtain ⟨m', hm', hr'⟩ := ih hm
      exact ⟨m', List.mem_cons_of_mem _ hm', hr'⟩

theorem pairwise_concat {R : α → α → Prop} {q : List α} (h : q.Pairwise R) {m : α}
    (hm : ∀ x ∈ q, R x m) : (q ++ [m]).Pairwise R := by
  refine List.pairwise_append.mpr ⟨h, List.pairwise_singleton R m, fun a ha b hb => ?_⟩
  rw [List.mem_singleton] at hb
  exact hb ▸ hm a ha

/-! ## Parts of a channel -/

/-- The disturbance repeats a message. -/
def Disturbance.repeats : Disturbance → Bool
  | .lose _ => false
  | .dup _ => true

/-- A channel before and after a disturbance.  The flag says whether a message was
repeated. -/
inductive Disturbed : Bool → List α → List α → Prop
  | same (b : Bool) (q : List α) : Disturbed b q q
  | lose (l : List α) (x : α) (r : List α) : Disturbed false (l ++ x :: r) (l ++ r)
  | dup (l : List α) (x : α) (r : List α) : Disturbed true (l ++ x :: r) (l ++ x :: x :: r)

theorem disturbed_disturb (d : Disturbance) (q : List α) :
    Disturbed d.repeats q (disturb d q) := by
  have hcut : ∀ i (hi : i < q.length), q = q.take i ++ q[i] :: q.drop (i + 1) := by
    intro i hi
    rw [List.getElem_cons_drop, List.take_append_drop]
  cases d with
  | lose i =>
    rcases Nat.lt_or_ge i q.length with hi | hi
    · have h := Disturbed.lose (q.take i) q[i] (q.drop (i + 1))
      rwa [← hcut i hi] at h
    · rw [disturb, List.take_of_length_le hi, List.drop_of_length_le (by omega), List.append_nil]
      exact .same _ q
  | dup i =>
    rcases Nat.lt_or_ge i q.length with hi | hi
    · have h := Disturbed.dup (q.take i) q[i] (q.drop (i + 1))
      rw [← hcut i hi, List.getElem_cons_drop, List.append_cons, List.take_append_getElem] at h
      exact h
    · rw [disturb, List.take_of_length_le (by omega), List.drop_of_length_le hi, List.append_nil]
      exact .same _ q

namespace Disturbed

variable {b : Bool} {q q' : List α}

theorem append_left (h : Disturbed b q q') (r : List α) : Disturbed b (q ++ r) (q' ++ r) := by
  cases h with
  | same => exact .same b (q ++ r)
  | lose l x l' =>
    rw [List.append_assoc, List.append_assoc]
    exact .lose l x (l' ++ r)
  | dup l x l' =>
    rw [List.append_assoc, List.append_assoc]
    exact .dup l x (l' ++ r)

theorem append_right (h : Disturbed b q q') (r : List α) : Disturbed b (r ++ q) (r ++ q') := by
  cases h with
  | same => exact .same b (r ++ q)
  | lose l x l' =>
    rw [← List.append_assoc, ← List.append_assoc]
    exact .lose (r ++ l) x l'
  | dup l x l' =>
    rw [← List.append_assoc, ← List.append_assoc]
    exact .dup (r ++ l) x l'

/-- The messages of one kind see no more of a disturbance than the whole channel. -/
theorem filterMap (h : Disturbed b q q') (f : α → Option β) :
    Disturbed b (q.filterMap f) (q'.filterMap f) := by
  cases h with
  | same => exact .same b _
  | lose l x r =>
    rw [List.filterMap_append, List.filterMap_append]
    cases hx : f x with
    | none =>
      rw [List.filterMap_cons_none hx]
      exact .same _ _
    | some y =>
      rw [List.filterMap_cons_some hx]
      exact .lose _ y _
  | dup l x r =>
    rw [List.filterMap_append, List.filterMap_append]
    cases hx : f x with
    | none =>
      simp only [List.filterMap_cons_none hx]
      exact .same _ _
    | some y =>
      simp only [List.filterMap_cons_some hx]
      exact .dup _ y _

theorem pairwise {R : α → α → Prop} (hrefl : ∀ a, R a a) (h : Disturbed b q q')
    (hq : q.Pairwise R) : q'.Pairwise R := by
  cases h with
  | same => exact hq
  | lose l x r => exact hq.sublist ((List.sublist_cons_self x r).append_left l)
  | dup l x r =>
    obtain ⟨hl, hxr, hbetween⟩ := List.pairwise_append.mp hq
    refine List.pairwise_append.mpr ⟨hl, List.pairwise_cons.mpr ⟨fun y hy => ?_, hxr⟩,
      fun y hy z hz => ?_⟩
    · rcases List.mem_cons.mp hy with rfl | hy
      · exact hrefl y
      · exact (List.pairwise_cons.mp hxr).1 y hy
    · rcases List.mem_cons.mp hz with rfl | hz
      · exact hbetween y hy z List.mem_cons_self
      · exact hbetween y hy z hz

/-- The same can happen to a channel that carries related messages. -/
theorem forall₂ {R : α → β → Prop} (h : Disturbed b q q') {r : List β}
    (hr : List.Forall₂ R q r) : ∃ r', Disturbed b r r' ∧ List.Forall₂ R q' r' := by
  have hsplit : ∀ l x l', List.Forall₂ R (l ++ x :: l') r →
      ∃ r₁ y r₂, r = r₁ ++ y :: r₂ ∧ List.Forall₂ R l r₁ ∧ R x y ∧ List.Forall₂ R l' r₂ := by
    intro l x l' hl
    have hfirst := List.forall₂_take l.length hl
    have hsecond := List.forall₂_drop l.length hl
    rw [List.take_left] at hfirst
    rw [List.drop_left] at hsecond
    obtain ⟨y, r₂, hxy, hl', hdrop⟩ := List.forall₂_cons_left_iff.mp hsecond
    exact ⟨r.take l.length, y, r₂, by rw [← hdrop, List.take_append_drop], hfirst, hxy, hl'⟩
  cases h with
  | same => exact ⟨r, .same b r, hr⟩
  | lose l x l' =>
    obtain ⟨r₁, y, r₂, rfl, hl, -, hl'⟩ := hsplit l x l' hr
    exact ⟨r₁ ++ r₂, .lose r₁ y r₂, List.rel_append hl hl'⟩
  | dup l x l' =>
    obtain ⟨r₁, y, r₂, rfl, hl, hxy, hl'⟩ := hsplit l x l' hr
    exact ⟨r₁ ++ y :: y :: r₂, .dup r₁ y r₂, List.rel_append hl (.cons hxy (.cons hxy hl'))⟩

theorem length_le (h : Disturbed b q q') : q'.length ≤ q.length + b.toNat := by
  cases h with
  | same => exact Nat.le_add_right _ _
  | lose l x r => simp
  | dup l x r =>
    simp only [List.length_append, List.length_cons, Bool.toNat_true]
    omega

theorem mem (h : Disturbed b q q') {m : α} (hm : m ∈ q') : m ∈ q := by
  cases h with
  | same => exact hm
  | lose l x r =>
    rcases List.mem_append.mp hm with hm | hm
    · exact List.mem_append_left _ hm
    · exact List.mem_append_right _ (List.mem_cons_of_mem _ hm)
  | dup l x r =>
    rcases List.mem_append.mp hm with hm | hm
    · exact List.mem_append_left _ hm
    · rcases List.mem_cons.mp hm with rfl | hm
      · exact List.mem_append_right _ List.mem_cons_self
      · exact List.mem_append_right _ hm

end Disturbed

end Fifo
end NetLab
