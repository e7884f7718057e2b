import NetLab.Library.Chunk
import NetLab.Library.Bytes
import NetLab.Library.Transition

/-!
# The relay loop of the netcat client

The loop waits in `select`, copies what standard input has to the socket and
what the socket has to standard output, each through a buffer of its own that is
emptied before the loop goes on.  One action is one system call with its result.
The state keeps, beside the control point, the bytes every call has moved.
-/

namespace NetLab
namespace Netcat
namespace Relay

open Transition

/-- `sizeof(buf)` of both buffers. -/
def bufSize : Nat := 4096

/-- The call the loop makes next.  `sockReady` is `FD_ISSET(sock, &rfds)`, which
the first half of the turn carries to the second. -/
inductive Pc
  | select
  | read (sockReady : Bool)
  | send (buf : Chunk UInt8) (sockReady : Bool)
  | recv
  | write (buf : Chunk UInt8)
  | done
  deriving DecidableEq, Repr

inductive SelectResult
  | ready (stdin sock : Bool)
  | eintr
  | error
  deriving DecidableEq, Repr

/-- A call and its result.  `read` and `recv` return bytes, none of them at the
end of the input, or `none` for -1.  `send` and `write` return a number. -/
inductive Action
  | select (rc : SelectResult)
  | read (result : Option Bytes)
  | send (m : Int)
  | recv (result : Option Bytes)
  | write (m : Int)
  deriving DecidableEq, Repr

structure State where
  pc : Pc
  stdinClosed : Bool
  read : Bytes
  sent : Bytes
  shutdowns : Nat
  received : Bytes
  written : Bytes
  deriving DecidableEq, Repr

/-- The socket's half of a turn. -/
def sockCheck (sockReady : Bool) : Pc := if sockReady then .recv else .select

/-- The buffer a call has filled, when `n > 0`. -/
def filled (result : Option Bytes) : Option (Chunk UInt8) := result.bind Chunk.ofData

/-- Where `while (off < n)` goes on in the first half, and in the second. -/
def sendLoop (sockReady : Bool) : Option (Chunk UInt8) → Pc
  | some buf => .send buf sockReady
  | none => sockCheck sockReady

def writeLoop : Option (Chunk UInt8) → Pc
  | some buf => .write buf
  | none => .select

/-- One call.  A call that is not the next one, or a result no call can have
(more bytes than were asked for), is not enabled. -/
def step (s : State) (a : Action) : Option State :=
  match s.pc, a with
  | .select, .select (.ready stdin sock) =>
    some { s with pc := if !s.stdinClosed && stdin then .read sock else sockCheck sock }
  | .select, .select .eintr => some s
  | .select, .select .error => some { s with pc := .done }
  | .read sockReady, .read result =>
    match filled result with
    | none =>
      some { s with
        stdinClosed := true, shutdowns := s.shutdowns + 1, pc := sockCheck sockReady }
    | some buf =>
      if buf.data.length ≤ bufSize then
        some { s with read := s.read ++ buf.data, pc := .send buf sockReady }
      else none
  | .send buf sockReady, .send m =>
    if m < 0 then some { s with pc := .done }
    else if m ≤ buf.rest.length then
      some { s with
        sent := s.sent ++ buf.rest.take m.toNat
        pc := sendLoop sockReady (buf.advance m.toNat) }
    else none
  | .recv, .recv result =>
    match filled result with
    | none => some { s with pc := .done }
    | some buf =>
      if buf.data.length ≤ bufSize then
        some { s with received := s.received ++ buf.data, pc := .write buf }
      else none
  | .write buf, .write m =>
    if m < 0 then some { s with pc := .done }
    else if m ≤ buf.rest.length then
      some { s with
        written := s.written ++ buf.rest.take m.toNat
        pc := writeLoop (buf.advance m.toNat) }
    else none
  | _, _ => none

def State.start : State :=
  { pc := .select, stdinClosed := false, read := [], sent := [], shutdowns := 0,
    received := [], written := [] }

def relay : System State Action where
  init s := s = .start
  step := step

/-! ## One direction of the relay -/

/-- What the first half has read and not sent yet, and what the second has
received and not written yet. -/
def Pc.unsent : Pc → Bytes
  | .send buf _ => buf.rest
  | _ => []

def Pc.unwritten : Pc → Bytes
  | .write buf => buf.rest
  | _ => []

@[simp] theorem unsent_sockCheck (b : Bool) : (sockCheck b).unsent = [] := by
  cases b with
  | false => rfl
  | true => rfl

@[simp] theorem unwritten_sockCheck (b : Bool) : (sockCheck b).unwritten = [] := by
  cases b with
  | false => rfl
  | true => rfl

theorem unsent_sendLoop (b : Bool) (o : Option (Chunk UInt8)) :
    (sendLoop b o).unsent = Chunk.left o := by
  cases o with
  | none => exact unsent_sockCheck b
  | some buf => rfl

theorem unwritten_sendLoop (b : Bool) (o : Option (Chunk UInt8)) :
    (sendLoop b o).unwritten = [] := by
  cases o with
  | none => exact unwritten_sockCheck b
  | some buf => rfl

theorem unsent_writeLoop (o : Option (Chunk UInt8)) : (writeLoop o).unsent = [] := by
  cases o with
  | none => rfl
  | some buf => rfl

theorem unwritten_writeLoop (o : Option (Chunk UInt8)) :
    (writeLoop o).unwritten = Chunk.left o := by
  cases o with
  | none => rfl
  | some buf => rfl

theorem rest_filled {result : Option Bytes} {buf : Chunk UInt8} (h : filled result = some buf) :
    buf.rest = buf.data := by
  cases result with
  | none => cases h
  | some bytes =>
    cases bytes with
    | nil => cases h
    | cons b bs =>
      cases h
      rfl

/-- The control points at which standard input may be in use. -/
def Pc.usesStdin : Pc → Bool
  | .read _ => true
  | .send _ _ => true
  | _ => false

@[simp] theorem usesStdin_sockCheck (b : Bool) : (sockCheck b).usesStdin = false := by
  cases b with
  | false => rfl
  | true => rfl

theorem usesStdin_writeLoop (o : Option (Chunk UInt8)) : (writeLoop o).usesStdin = false := by
  cases o with
  | none => rfl
  | some buf => rfl

/-! ## The invariant -/

/-- Nothing is lost between two calls: what was read is what was sent and what
the buffer still holds, until an error ends the loop.  After `shutdown` the loop
stays away from standard input. -/
structure Inv (s : State) : Prop where
  sent : s.pc ≠ .done → s.sent ++ s.pc.unsent = s.read
  sent_prefix : s.sent <+: s.read
  written : s.pc ≠ .done → s.written ++ s.pc.unwritten = s.received
  written_prefix : s.written <+: s.received
  shutdowns : s.shutdowns = if s.stdinClosed then 1 else 0
  closed : s.stdinClosed = true → s.pc.usesStdin = false ∧ s.sent = s.read

theorem inv_start : Inv .start where
  sent _ := rfl
  sent_prefix := List.prefix_rfl
  written _ := rfl
  written_prefix := List.prefix_rfl
  shutdowns := rfl
  closed h := by cases h

/-- Both balances at a control point inside the loop. -/
theorem Inv.balance {s : State} (hi : Inv s) {pc : Pc} (hpc : s.pc = pc) (hd : pc ≠ .done) :
    s.sent ++ pc.unsent = s.read ∧ s.written ++ pc.unwritten = s.received := by
  subst hpc
  exact ⟨hi.sent hd, hi.written hd⟩

/-- Both balances at a control point where the buffers are empty. -/
theorem Inv.balance_nil {s : State} (hi : Inv s) {pc : Pc} (hpc : s.pc = pc) (hd : pc ≠ .done)
    (hu : pc.unsent = []) (hw : pc.unwritten = []) : s.sent = s.read ∧ s.written = s.received := by
  have h := hi.balance hpc hd
  rw [hu, hw, List.append_nil, List.append_nil] at h
  exact h

/-- Standard input is open wherever it is in use. -/
theorem Inv.open_of_usesStdin {s : State} (hi : Inv s) {pc : Pc} (hpc : s.pc = pc)
    (hu : pc.usesStdin = true) : s.stdinClosed = false := by
  subst hpc
  by_contra hc
  have h := (hi.closed (Bool.of_not_eq_false hc)).1
  rw [hu] at h
  cases h

/-- Moving between two calls with both buffers empty. -/
theorem Inv.goto {s : State} (hi : Inv s) {pc : Pc}
    (hs : s.sent = s.read ∧ s.written = s.received) (hu : pc.unsent = [])
    (hw : pc.unwritten = []) (hc : s.stdinClosed = true → pc.usesStdin = false) :
    Inv { s with pc := pc } where
  sent _ := by
    show s.sent ++ pc.unsent = s.read
    rw [hu, List.append_nil, hs.1]
  sent_prefix := hi.sent_prefix
  written _ := by
    show s.written ++ pc.unwritten = s.received
    rw [hw, List.append_nil, hs.2]
  written_prefix := hi.written_prefix
  shutdowns := hi.shutdowns
  closed h := ⟨hc h, hs.1⟩

/-- Leaving the loop keeps what was achieved so far. -/
theorem Inv.stop {s : State} (hi : Inv s) : Inv { s with pc := .done } where
  sent h := absurd rfl h
  sent_prefix := hi.sent_prefix
  written h := absurd rfl h
  written_prefix := hi.written_prefix
  shutdowns := hi.shutdowns
  closed h := ⟨rfl, (hi.closed h).2⟩

theorem Inv.select {s : State} (hi : Inv s) (hpc : s.pc = .select) (stdin sock : Bool) :
    Inv { s with pc := if !s.stdinClosed && stdin then .read sock else sockCheck sock } := by
  have hs := hi.balance_nil hpc Pc.noConfusion rfl rfl
  by_cases h : (!s.stdinClosed && stdin) = true
  · rw [if_pos h]
    refine hi.goto hs rfl rfl fun hc => ?_
    rw [hc] at h
    cases h
  · rw [if_neg h]
    exact hi.goto hs (unsent_sockCheck sock) (unwritten_sockCheck sock)
      fun _ => usesStdin_sockCheck sock

/-- `read` has returned no bytes: everything read before is sent by then. -/
theorem Inv.shutdown {s : State} (hi : Inv s) {sock : Bool} (hpc : s.pc = .read sock) :
    Inv { s with stdinClosed := true, shutdowns := s.shutdowns + 1, pc := sockCheck sock } := by
  obtain ⟨hsent, hwritten⟩ := hi.balance_nil hpc Pc.noConfusion rfl rfl
  have hopen := hi.open_of_usesStdin hpc rfl
  exact {
    sent := fun _ => by
      show s.sent ++ (sockCheck sock).unsent = s.read
      rw [unsent_sockCheck, List.append_nil, hsent]
    sent_prefix := hi.sent_prefix
    written := fun _ => by
      show s.written ++ (sockCheck sock).unwritten = s.received
      rw [unwritten_sockCheck, List.append_nil, hwritten]
    written_prefix := hi.written_prefix
    shutdowns := by
      show s.shutdowns + 1 = 1
      rw [hi.shutdowns, hopen]
      rfl
    closed := fun _ => ⟨usesStdin_sockCheck sock, hsent⟩ }

theorem Inv.read {s : State} (hi : Inv s) {sock : Bool} (hpc : s.pc = .read sock)
    {buf : Chunk UInt8} (hbuf : buf.rest = buf.data) :
    Inv { s with read := s.read ++ buf.data, pc := .send buf sock } := by
  obtain ⟨hsent, hwritten⟩ := hi.balance_nil hpc Pc.noConfusion rfl rfl
  have hopen := hi.open_of_usesStdin hpc rfl
  exact {
    sent := fun _ => by
      show s.sent ++ buf.rest = s.read ++ buf.data
      rw [hbuf, hsent]
    sent_prefix := hi.sent_prefix.trans (List.prefix_append _ _)
    written := fun _ => by
      show s.written ++ [] = s.received
      rw [List.append_nil, hwritten]
    written_prefix := hi.written_prefix
    shutdowns := hi.shutdowns
    closed := fun h => absurd (hopen.symm.trans h) Bool.noConfusion }

theorem Inv.send {s : State} (hi : Inv s) {sock : Bool} {buf : Chunk UInt8}
    (hpc : s.pc = .send buf sock) (m : Nat) :
    Inv { s with
      sent := s.sent ++ buf.rest.take m, pc := sendLoop sock (buf.advance m) } := by
  obtain ⟨hsent, hwritten⟩ := hi.balance hpc Pc.noConfusion
  have hopen := hi.open_of_usesStdin hpc rfl
  have hsent' : (s.sent ++ buf.rest.take m) ++ (sendLoop sock (buf.advance m)).unsent
      = s.read := by
    rw [unsent_sendLoop, List.append_assoc, Chunk.take_append_left_advance]
    exact hsent
  exact {
    sent := fun _ => hsent'
    sent_prefix := ⟨_, hsent'⟩
    written := fun _ => by
      show s.written ++ (sendLoop sock (buf.advance m)).unwritten = s.received
      rw [unwritten_sendLoop]
      exact hwritten
    written_prefix := hi.written_prefix
    shutdowns := hi.shutdowns
    closed := fun h => absurd (hopen.symm.trans h) Bool.noConfusion }

theorem Inv.recv {s : State} (hi : Inv s) (hpc : s.pc = .recv) {buf : Chunk UInt8}
    (hbuf : buf.rest = buf.data) :
    Inv { s with received := s.received ++ buf.data, pc := .write buf } := by
  obtain ⟨hsent, hwritten⟩ := hi.balance_nil hpc Pc.noConfusion rfl rfl
  exact {
    sent := fun _ => by
      show s.sent ++ [] = s.read
      rw [List.append_nil, hsent]
    sent_prefix := hi.sent_prefix
    written := fun _ => by
      show s.written ++ buf.rest = s.received ++ buf.data
      rw [hbuf, hwritten]
    written_prefix := hi.written_prefix.trans (List.prefix_append _ _)
    shutdowns := hi.shutdowns
    closed := fun h => ⟨rfl, (hi.closed h).2⟩ }

theorem Inv.write {s : State} (hi : Inv s) {buf : Chunk UInt8} (hpc : s.pc = .write buf)
    (m : Nat) :
    Inv { s with
      written := s.written ++ buf.rest.take m, pc := writeLoop (buf.advance m) } := by
  obtain ⟨hsent, hwritten⟩ := hi.balance hpc Pc.noConfusion
  have hwritten' : (s.written ++ buf.rest.take m) ++ (writeLoop (buf.advance m)).unwritten
      = s.received := by
    rw [unwritten_writeLoop, List.append_assoc, Chunk.take_append_left_advance]
    exact hwritten
  exact {
    sent := fun _ => by
      show s.sent ++ (writeLoop (buf.advance m)).unsent = s.read
      rw [unsent_writeLoop]
      exact hsent
    sent_prefix := hi.sent_prefix
    written := fun _ => hwritten'
    written_prefix := ⟨_, hwritten'⟩
    shutdowns := hi.shutdowns
    closed := fun h => ⟨usesStdin_writeLoop _, (hi.closed h).2⟩ }

theorem inv_step {s s' : State} {a : Action} (hi : Inv s) (h : step s a = some s') : Inv s' := by
  unfold step at h
  split at h
  case h_1 stdin sock hpc =>
    cases h
    exact hi.select hpc stdin sock
  case h_2 =>
    cases h
    exact hi
  case h_3 =>
    cases h
    exact hi.stop
  case h_4 sock result hpc =>
    split at h
    case h_1 =>
      cases h
      exact hi.shutdown hpc
    case h_2 buf hbuf =>
      rw [Option.ite_none_right_eq_some, Option.some.injEq] at h
      exact h.2 ▸ hi.read hpc (rest_filled hbuf)
  case h_5 buf sock m hpc =>
    by_cases hm : m < 0
    · rw [if_pos hm, Option.some.injEq] at h
      exact h ▸ hi.stop
    · rw [if_neg hm, Option.ite_none_right_eq_some, Option.some.injEq] at h
      exact h.2 ▸ hi.send hpc m.toNat
  case h_6 result hpc =>
    split at h
    case h_1 =>
      cases h
      exact hi.stop
    case h_2 buf hbuf =>
      rw [Option.ite_none_right_eq_some, Option.some.injEq] at h
      exact h.2 ▸ hi.recv hpc (rest_filled hbuf)
  case h_7 buf m hpc =>
    by_cases hm : m < 0
    · rw [if_pos hm, Option.some.injEq] at h
      exact h ▸ hi.stop
    · rw [if_neg hm, Option.ite_none_right_eq_some, Option.some.injEq] at h
      exact h.2 ▸ hi.write hpc m.toNat
  case h_8 => cases h

theorem reachable_inv {s : State} (h : relay.Reachable s) : Inv s := by
  apply System.Reachable.invariant (M := relay) _ _ h
  · intro s hs
    have hs : s = .start := hs
    exact hs ▸ inv_start
  · intro s a s' hi hstep
    exact inv_step hi hstep

/-! ## After the shutdown -/

def Action.usesStdin : Action → Bool
  | .read _ => true
  | .send _ => true
  | _ => false

/-- Once standard input is closed, no call reads it or sends. -/
theorem step_of_closed {s s' : State} {a : Action} (hi : Inv s) (hc : s.stdinClosed = true)
    (h : step s a = some s') :
    a.usesStdin = false ∧ s'.stdinClosed = true ∧ s'.read = s.read ∧ s'.sent = s.sent := by
  have hpc := (hi.closed hc).1
  unfold step at h
  split at h
  case h_1 =>
    cases h
    exact ⟨rfl, hc, rfl, rfl⟩
  case h_2 =>
    cases h
    exact ⟨rfl, hc, rfl, rfl⟩
  case h_3 =>
    cases h
    exact ⟨rfl, hc, rfl, rfl⟩
  case h_4 heq =>
    rw [heq] at hpc
    cases hpc
  case h_5 heq =>
    rw [heq] at hpc
    cases hpc
  case h_6 =>
    split at h
    case h_1 =>
      cases h
      exact ⟨rfl, hc, rfl, rfl⟩
    case h_2 =>
      rw [Option.ite_none_right_eq_some, Option.some.injEq] at h
      exact h.2 ▸ ⟨rfl, hc, rfl, rfl⟩
  case h_7 buf m hpc =>
    by_cases hm : m < 0
    · rw [if_pos hm, Option.some.injEq] at h
      exact h ▸ ⟨rfl, hc, rfl, rfl⟩
    · rw [if_neg hm, Option.ite_none_right_eq_some, Option.some.injEq] at h
      exact h.2 ▸ ⟨rfl, hc, rfl, rfl⟩
  case h_8 => cases h

theorem run_of_closed {s s' : State} {as : List Action} (hi : Inv s) (hc : s.stdinClosed = true)
    (h : relay.run s as = some s') :
    (∀ a ∈ as, a.usesStdin = false) ∧ s'.read = s.read ∧ s'.sent = s.sent := by
  induction as generalizing s with
  | nil =>
    rw [System.run_nil, Option.some.injEq] at h
    exact h ▸ ⟨fun a ha => absurd ha List.not_mem_nil, rfl, rfl⟩
  | cons a as ih =>
    rw [System.run, Option.bind_eq_some_iff] at h
    obtain ⟨t, hstep, hrest⟩ := h
    obtain ⟨ha, hct, hread, hsent⟩ := step_of_closed hi hc hstep
    obtain ⟨has, hread', hsent'⟩ := ih (inv_step hi hstep) hct hrest
    refine ⟨fun b hb => ?_, hread'.trans hread, hsent'.trans hsent⟩
    rcases List.mem_cons.mp hb with rfl | hb
    · exact ha
    · exact has b hb

/-! ## The relay is faithful -/

/-- Both directions are relayed in order and without loss, and the socket is
shut down at most once, after all input. -/
structure Faithful (s : State) : Prop where
  sent_prefix : s.sent <+: s.read
  sent_all : s.pc = .select → s.sent = s.read
  written_prefix : s.written <+: s.received
  written_all : s.pc = .select → s.written = s.received
  shutdowns : s.shutdowns ≤ 1
  shutdown_sent : 0 < s.shutdowns → s.sent = s.read
  after_shutdown : 0 < s.shutdowns → ∀ as s', relay.run s as = some s' →
    (∀ a ∈ as, a.usesStdin = false) ∧ s'.read = s.read ∧ s'.sent = s.sent

/-- Every run, whatever `select` reports and however the calls fall short. -/
theorem faithful_of_reachable {s : State} (h : relay.Reachable s) : Faithful s := by
  have hi := reachable_inv h
  have hclosed : 0 < s.shutdowns → s.stdinClosed = true := by
    intro hpos
    by_contra hc
    rw [hi.shutdowns, if_neg hc] at hpos
    omega
  exact {
    sent_prefix := hi.sent_prefix
    sent_all := fun hpc => (hi.balance_nil hpc Pc.noConfusion rfl rfl).1
    written_prefix := hi.written_prefix
    written_all := fun hpc => (hi.balance_nil hpc Pc.noConfusion rfl rfl).2
    shutdowns := by
      rw [hi.shutdowns]
      split <;> omega
    shutdown_sent := fun hpos => (hi.closed (hclosed hpos)).2
    after_shutdown := fun hpos as s' hrun => run_of_closed hi (hclosed hpos) hrun }

/-- Input, an answer and the end of the input, with a partial `send` and an
interrupted `select`. -/
def exchange : List Action :=
  [.select (.ready true true), .read (some [104, 105]), .send 1, .send 1, .recv (some [111]),
    .write 1, .select .eintr, .select (.ready true false), .read none]

theorem faithful_exchange :
    ∃ s, relay.run .start exchange = some s ∧ s.shutdowns = 1 ∧ s.written = [111] ∧
      Faithful s := by
  have hrun : relay.run .start exchange = some
      { pc := .select, stdinClosed := true, read := [104, 105], sent := [104, 105],
        shutdowns := 1, received := [111], written := [111] } := rfl
  exact ⟨_, hrun, rfl, rfl, faithful_of_reachable (System.Reachable.run (.init rfl) hrun)⟩

end Relay
end Netcat
end NetLab
