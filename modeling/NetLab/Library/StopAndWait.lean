import NetLab.Library.Fifo
import NetLab.Library.Transition

/-!
# Stop and wait over channels that keep the order

A sender works through the blocks `1 .. last`.  It puts its current block on
the data channel any number of times and moves on when it reads an
acknowledgement with the number of that block.  The receiver takes a block when
its number is the next one it expects.  Numbers need not be unique: it is
enough that a block and its successor differ in number, so the counters may
wrap any number of times.

The channels hold true block indices; only the comparisons go through the
numbers.  `none` stands for a message that neither side takes for a block.
-/

namespace NetLab
namespace StopAndWait

open Transition Fifo

structure State where
  /-- The sender's current block, `last + 1` once all are acknowledged. -/
  cur : Nat
  /-- How many blocks the receiver has taken. -/
  got : Nat
  data : List (Option Nat)
  acks : List (Option Nat)
  deriving DecidableEq, Repr

inductive Action
  | transmit
  | receive (reAck : Bool)
  | ackLast
  | advance
  | noiseData
  | noiseAck
  | disturbData (d : Disturbance)
  | disturbAcks (d : Disturbance)
  deriving DecidableEq, Repr

section

variable {ν : Type*} [DecidableEq ν] (num : Nat → ν) (last : Nat)

/-- The receiver reads block `i`: it takes the block when the number is the one
expected, and otherwise acknowledges it again when `reAck` says so. -/
def State.takeBlock (s : State) (i : Nat) (reAck : Bool) : State :=
  if num i = num (s.got + 1) then
    { s with got := s.got + 1, acks := s.acks ++ [some i] }
  else if reAck then { s with acks := s.acks ++ [some i] }
  else s

/-- The sender reads an acknowledgement of block `a`. -/
def State.takeAck (s : State) (a : Nat) : State :=
  if num a = num s.cur then { s with cur := s.cur + 1 } else s

def step (s : State) : Action → Option State
  | .transmit => if s.cur ≤ last then some { s with data := s.data ++ [some s.cur] } else none
  | .receive reAck =>
    match s.data with
    | [] => none
    | none :: rest => some { s with data := rest }
    | some i :: rest => some (State.takeBlock num { s with data := rest } i reAck)
  | .ackLast => some { s with acks := s.acks ++ [some s.got] }
  | .advance =>
    match s.acks with
    | [] => none
    | none :: rest => some { s with acks := rest }
    | some a :: rest => some (State.takeAck num { s with acks := rest } a)
  | .noiseData => some { s with data := s.data ++ [none] }
  | .noiseAck => some { s with acks := s.acks ++ [none] }
  | .disturbData d => some { s with data := disturb d s.data }
  | .disturbAcks d => some { s with acks := disturb d s.acks }

def start : State := { cur := 1, got := 0, data := [], acks := [] }

def system : System State Action where
  init s := s = start
  step := step num last

end

/-- Block indices do not decrease along a channel. -/
def Ordered (q : List (Option Nat)) : Prop :=
  q.Pairwise fun x y => ∀ i ∈ x, ∀ j ∈ y, i ≤ j

theorem ordered_disturb {q : List (Option Nat)} (h : Ordered q) (d : Disturbance) :
    Ordered (disturb d q) := by
  refine pairwise_disturb (fun x i hi j hj => ?_) h d
  rw [Option.mem_def] at hi hj
  rw [hi, Option.some.injEq] at hj
  exact Nat.le_of_eq hj

theorem ordered_concat {q : List (Option Nat)} (h : Ordered q) {k : Nat}
    (hk : ∀ i, some i ∈ q → i ≤ k) : Ordered (q ++ [some k]) := by
  refine pairwise_concat h fun x hx i hi j hj => ?_
  rw [Option.mem_def] at hi hj
  rw [Option.some.injEq] at hj
  exact hj ▸ hk i (hi ▸ hx)

theorem ordered_concat_none {q : List (Option Nat)} (h : Ordered q) : Ordered (q ++ [none]) :=
  pairwise_concat h fun _ _ _ _ _ hj => absurd hj (Option.not_mem_none _)

theorem Ordered.tail {x : Option Nat} {q : List (Option Nat)} (h : Ordered (x :: q)) : Ordered q :=
  (List.pairwise_cons.mp h).2

theorem Ordered.head_le {i : Nat} {q : List (Option Nat)} (h : Ordered (some i :: q)) {j : Nat}
    (hj : some j ∈ q) : i ≤ j :=
  (List.pairwise_cons.mp h).1 (some j) hj i rfl j rfl

/-- The receiver is level with the sender or one block behind, and what is in
flight lies between the two.  The order of the channels carries the invariant
past each delivery. -/
structure Inv (last : Nat) (s : State) : Prop where
  got_le_cur : s.got ≤ s.cur
  cur_le_got : s.cur ≤ s.got + 1
  cur_le_last : s.cur ≤ last + 1
  got_le_last : s.got ≤ last
  data_ge : ∀ i, some i ∈ s.data → s.got ≤ i
  data_le : ∀ i, some i ∈ s.data → i ≤ s.cur
  data_le_last : ∀ i, some i ∈ s.data → i ≤ last
  data_ordered : Ordered s.data
  acks_ge : ∀ a, some a ∈ s.acks → s.cur ≤ a + 1
  acks_le : ∀ a, some a ∈ s.acks → a ≤ s.got
  acks_ordered : Ordered s.acks

theorem system_transmit {ν : Type*} [DecidableEq ν] {num : Nat → ν} {last : Nat} {s : State}
    (h : s.cur ≤ last) :
    (system num last).step s .transmit = some { s with data := s.data ++ [some s.cur] } :=
  if_pos h

theorem inv_start (last : Nat) : Inv last start := by
  constructor <;> simp [start, Ordered]

variable {ν : Type*} {num : Nat → ν} {last : Nat} {s : State}

/-- A block at the head of the data channel has the expected number exactly
when it is the next block. -/
theorem Inv.num_eq_next_iff (hnum : ∀ i, num i ≠ num (i + 1)) (h : Inv last s) {i : Nat}
    (hi : some i ∈ s.data) : num i = num (s.got + 1) ↔ i = s.got + 1 := by
  refine ⟨fun heq => ?_, fun heq => heq ▸ rfl⟩
  have h₁ := h.data_ge i hi
  have h₂ := h.data_le i hi
  have h₃ := h.cur_le_got
  rcases Nat.lt_or_ge s.got i with hlt | hge
  · omega
  · have hi : i = s.got := by omega
    exact absurd (hi ▸ heq) (hnum s.got)

/-- An acknowledgement in flight has the number the sender waits for exactly
when it acknowledges the current block, and then the receiver has that block. -/
theorem Inv.num_eq_cur_iff (hnum : ∀ i, num i ≠ num (i + 1)) (h : Inv last s) {a : Nat}
    (ha : some a ∈ s.acks) : num a = num s.cur ↔ a = s.cur ∧ s.got = s.cur := by
  refine ⟨fun heq => ?_, fun heq => heq.1 ▸ rfl⟩
  have h₁ := h.acks_ge a ha
  have h₂ := h.acks_le a ha
  have h₃ := h.got_le_cur
  rcases Nat.lt_or_ge a s.cur with hlt | hge
  · have hc : s.cur = a + 1 := by omega
    exact absurd (hc ▸ heq) (hnum a)
  · omega

/-- Acknowledging again a block the sender may still wait for. -/
theorem Inv.ack_got (h : Inv last s) : Inv last { s with acks := s.acks ++ [some s.got] } := by
  refine { h with acks_ge := fun a ha => ?_, acks_le := fun a ha => ?_,
                  acks_ordered := ordered_concat h.acks_ordered h.acks_le }
  all_goals
    rcases List.mem_append.mp ha with ha | ha
    · first | exact h.acks_ge a ha | exact h.acks_le a ha
    · have hag : a = s.got := by simpa using ha
      have := h.cur_le_got
      dsimp only
      omega

/-- A data channel with no block that was not in it before. -/
theorem Inv.with_data (h : Inv last s) {q : List (Option Nat)}
    (hmem : ∀ i, some i ∈ q → some i ∈ s.data) (hord : Ordered q) :
    Inv last { s with data := q } :=
  { h with
    data_ge := fun i hi => h.data_ge i (hmem i hi)
    data_le := fun i hi => h.data_le i (hmem i hi)
    data_le_last := fun i hi => h.data_le_last i (hmem i hi)
    data_ordered := hord }

theorem Inv.with_acks (h : Inv last s) {q : List (Option Nat)}
    (hmem : ∀ a, some a ∈ q → some a ∈ s.acks) (hord : Ordered q) :
    Inv last { s with acks := q } :=
  { h with
    acks_ge := fun a ha => h.acks_ge a (hmem a ha)
    acks_le := fun a ha => h.acks_le a (hmem a ha)
    acks_ordered := hord }

theorem Inv.drop_data {x : Option Nat} {rest : List (Option Nat)} (h : Inv last s)
    (hd : s.data = x :: rest) : Inv last { s with data := rest } :=
  h.with_data (fun _ hi => hd ▸ List.mem_cons_of_mem _ hi)
    (hd ▸ h.data_ordered : Ordered (x :: rest)).tail

theorem Inv.drop_ack {x : Option Nat} {rest : List (Option Nat)} (h : Inv last s)
    (hd : s.acks = x :: rest) : Inv last { s with acks := rest } :=
  h.with_acks (fun _ ha => hd ▸ List.mem_cons_of_mem _ ha)
    (hd ▸ h.acks_ordered : Ordered (x :: rest)).tail

theorem mem_concat_none {q : List (Option Nat)} {i : Nat} (h : some i ∈ q ++ [none]) :
    some i ∈ q := by
  simpa using h

variable [DecidableEq ν]

/-- A receiver that acknowledges every block is level with the block it has just
read. -/
theorem Inv.takeBlock_true (hnum : ∀ i, num i ≠ num (i + 1)) (h : Inv last s) {i : Nat}
    (hi : some i ∈ s.data) (rest : List (Option Nat)) :
    (s.got = i ∨ s.got + 1 = i) ∧
      State.takeBlock num { s with data := rest } i true =
        { s with data := rest, got := i, acks := s.acks ++ [some i] } := by
  have hge := h.data_ge i hi
  have hle := h.data_le i hi
  have hcg := h.cur_le_got
  rw [State.takeBlock]
  by_cases hnext : num i = num (s.got + 1)
  · have hig := (h.num_eq_next_iff hnum hi).mp hnext
    rw [if_pos hnext]
    subst hig
    exact ⟨.inr rfl, rfl⟩
  · have hig : s.got = i := by
      have hne : i ≠ s.got + 1 := fun e => hnext (e ▸ rfl)
      omega
    rw [if_neg hnext, if_pos rfl]
    subst hig
    exact ⟨.inl rfl, rfl⟩

theorem Inv.takeBlock (hnum : ∀ i, num i ≠ num (i + 1)) (h : Inv last s) {i : Nat}
    {rest : List (Option Nat)} (hd : s.data = some i :: rest) (reAck : Bool) :
    Inv last (State.takeBlock num { s with data := rest } i reAck) := by
  have hi : some i ∈ s.data := hd ▸ List.mem_cons_self
  have hrest := h.drop_data hd
  have hord : Ordered (some i :: rest) := hd ▸ h.data_ordered
  have hcur := h.data_le i hi
  have hge := h.data_ge i hi
  have hcg := h.cur_le_got
  have hil := h.data_le_last i hi
  rw [State.takeBlock]
  by_cases hnext : num i = num (s.got + 1)
  · -- The next block: everything behind it in the channel is at least as new.
    have hig : i = s.got + 1 := (h.num_eq_next_iff hnum hi).mp hnext
    rw [if_pos hnext]
    have hacks : ∀ a, some a ∈ s.acks → a ≤ s.got + 1 := fun a ha =>
      Nat.le_succ_of_le (h.acks_le a ha)
    have hmoved : Inv last { s with data := rest, got := s.got + 1 } :=
      { hrest with
        got_le_cur := by dsimp only; omega
        cur_le_got := by dsimp only; omega
        got_le_last := by dsimp only; omega
        data_ge := fun j hj => hig ▸ hord.head_le hj
        acks_le := hacks }
    rw [hig]
    exact hmoved.ack_got
  · rw [if_neg hnext]
    have hig : i = s.got := by
      have hne : i ≠ s.got + 1 := fun e => hnext (e ▸ rfl)
      omega
    cases reAck with
    | true =>
      rw [if_pos rfl, hig]
      exact hrest.ack_got
    | false => exact hrest

theorem Inv.takeAck (hnum : ∀ i, num i ≠ num (i + 1)) (h : Inv last s) {a : Nat}
    {rest : List (Option Nat)} (hd : s.acks = some a :: rest) :
    Inv last (State.takeAck num { s with acks := rest } a) := by
  have ha : some a ∈ s.acks := hd ▸ List.mem_cons_self
  have hrest := h.drop_ack hd
  have hord : Ordered (some a :: rest) := hd ▸ h.acks_ordered
  rw [State.takeAck]
  by_cases hcur : num a = num s.cur
  · obtain ⟨hac, hgot⟩ := (h.num_eq_cur_iff hnum ha).mp hcur
    have hgl := h.got_le_last
    rw [if_pos hcur]
    exact { hrest with
      got_le_cur := by dsimp only; omega
      cur_le_got := by dsimp only; omega
      cur_le_last := by dsimp only; omega
      data_le := fun i hi => Nat.le_succ_of_le (hrest.data_le i hi)
      acks_ge := fun b hb => by
        have := hord.head_le hb
        dsimp only
        omega }
  · rw [if_neg hcur]
    exact hrest

theorem Inv.step (hnum : ∀ i, num i ≠ num (i + 1)) {s' : State} (h : Inv last s) (a : Action)
    (hs : step num last s a = some s') : Inv last s' := by
  cases a with
  | transmit =>
    simp only [StopAndWait.step, Option.ite_none_right_eq_some, Option.some.injEq] at hs
    obtain ⟨hle, rfl⟩ := hs
    have hmem : ∀ i, some i ∈ s.data ++ [some s.cur] → some i ∈ s.data ∨ i = s.cur := by
      intro i hi
      simpa using hi
    exact { h with
      data_ge := fun i hi => (hmem i hi).elim (h.data_ge i) fun e => e ▸ h.got_le_cur
      data_le := fun i hi => (hmem i hi).elim (h.data_le i) Nat.le_of_eq
      data_le_last := fun i hi => (hmem i hi).elim (h.data_le_last i) fun e => e ▸ hle
      data_ordered := ordered_concat h.data_ordered h.data_le }
  | receive reAck =>
    cases hd : s.data with
    | nil => simp [StopAndWait.step, hd] at hs
    | cons x rest =>
      cases x with
      | none =>
        simp only [StopAndWait.step, hd, Option.some.injEq] at hs
        exact hs ▸ h.drop_data hd
      | some i =>
        simp only [StopAndWait.step, hd, Option.some.injEq] at hs
        exact hs ▸ h.takeBlock hnum hd reAck
  | ackLast =>
    simp only [StopAndWait.step, Option.some.injEq] at hs
    exact hs ▸ h.ack_got
  | advance =>
    cases hd : s.acks with
    | nil => simp [StopAndWait.step, hd] at hs
    | cons x rest =>
      cases x with
      | none =>
        simp only [StopAndWait.step, hd, Option.some.injEq] at hs
        exact hs ▸ h.drop_ack hd
      | some a =>
        simp only [StopAndWait.step, hd, Option.some.injEq] at hs
        exact hs ▸ h.takeAck hnum hd
  | noiseData =>
    simp only [StopAndWait.step, Option.some.injEq] at hs
    exact hs ▸ h.with_data (fun _ => mem_concat_none) (ordered_concat_none h.data_ordered)
  | noiseAck =>
    simp only [StopAndWait.step, Option.some.injEq] at hs
    exact hs ▸ h.with_acks (fun _ => mem_concat_none) (ordered_concat_none h.acks_ordered)
  | disturbData d =>
    simp only [StopAndWait.step, Option.some.injEq] at hs
    exact hs ▸ h.with_data (fun _ => mem_of_mem_disturb) (ordered_disturb h.data_ordered d)
  | disturbAcks d =>
    simp only [StopAndWait.step, Option.some.injEq] at hs
    exact hs ▸ h.with_acks (fun _ => mem_of_mem_disturb) (ordered_disturb h.acks_ordered d)

theorem reachable_inv (hnum : ∀ i, num i ≠ num (i + 1)) (h : (system num last).Reachable s) :
    Inv last s :=
  System.Reachable.invariant (fun _ hs => hs ▸ inv_start last)
    (fun _ a _ hi hs => hi.step hnum a hs) h

end StopAndWait
end NetLab
