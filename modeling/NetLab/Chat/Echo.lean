import NetLab.Library.Counting
import NetLab.Library.Inet
import NetLab.Library.Lockstep
import NetLab.Library.Possibility

/-!
# The echo over UDP

`udp_server` sends every datagram back to the address it came from, at port
6000.  `udp_client` sends a line and prints the next datagram that comes for the
answer.  The two sit on one host, joined by one first-in-first-out channel a
direction.  Other hosts send to the server, and none of them to port 6000:
`recvfrom` at the client would take that for the answer.
-/

namespace NetLab
namespace Chat
namespace Echo

open Transition Fifo CString Inet Lockstep

/-- `127.0.0.1`. -/
def loopback : UInt32 := 0x7f000001

/-- `sizeof(buffer)` on both sides. -/
def bufferSize : Nat := 1024

/-- A datagram at port 5000 with its source address, or one that leaves for port
6000 of an address. -/
structure Datagram where
  ip : UInt32
  data : Bytes
  deriving DecidableEq, Repr

/-- What `recvfrom` stores: the rest of a longer datagram is lost. -/
def received (data : Bytes) : Bytes := data.take (bufferSize - 1)

/-- One turn of `udp_server`: where the answer goes, and what it holds. -/
def answer (d : Datagram) : Datagram := { ip := d.ip, data := received d.data }

/-- What `udp_client` sends for a line of its input. -/
def lineText (line : Bytes) : Bytes := line ++ ascii "\n"

/-- What `udp_client` prints of a datagram: the buffer up to its first NUL. -/
def printed (data : Bytes) : Bytes := cstr (received data)

/-- The lines that `udp_client` has sent, whether it waits in `recvfrom`, and the
responses that it has printed, each with the number of lines sent before it. -/
structure State where
  sent : List Bytes
  waiting : Bool
  responses : List (Nat × Bytes)
  up : List Datagram
  down : List Bytes
  others : List Datagram
  deriving DecidableEq, Repr

inductive Action
  | line (text : Bytes)
  | sendFails (text : Bytes)
  | outsider (d : Datagram)
  | serve
  | response
  | recvFails
  | disturbUp (d : Disturbance)
  | disturbDown (d : Disturbance)
  deriving DecidableEq, Repr

/-- A line that no datagram holds is skipped, as is one whose `sendto` fails for
another reason.  Other hosts send from addresses of their own, to the server
only. -/
def step (s : State) : Action → Option State
  | .line text =>
    if s.waiting then none
    else if maxDatagram < (lineText text).length then some s
    else some { s with
      sent := s.sent ++ [text]
      waiting := true
      up := s.up ++ [{ ip := loopback, data := lineText text }] }
  | .sendFails _ => if s.waiting then none else some s
  | .outsider d => if d.ip = loopback then none else some { s with up := s.up ++ [d] }
  | .serve =>
    match s.up with
    | [] => none
    | d :: rest =>
      if (answer d).ip = loopback then
        some { s with up := rest, down := s.down ++ [(answer d).data] }
      else some { s with up := rest, others := s.others ++ [answer d] }
  | .response =>
    match s.down with
    | [] => none
    | d :: rest =>
      if s.waiting then
        some { s with
          waiting := false
          down := rest
          responses := s.responses ++ [(s.sent.length, printed d)] }
      else none
  | .recvFails => if s.waiting then some { s with waiting := false } else none
  | .disturbUp d => some { s with up := disturb d s.up }
  | .disturbDown d => some { s with down := disturb d s.down }

def start : State :=
  { sent := [], waiting := false, responses := [], up := [], down := [], others := [] }

def echo : System State Action where
  init s := s = start
  step := step

/-- A step after which an answer may come for an older line: a datagram is
repeated, or `recvfrom` fails at the client. -/
def Action.slip : Action → Bool
  | .recvFails => true
  | .disturbUp d | .disturbDown d => d.repeats
  | _ => false

/-- The line as it comes back. -/
def echoed (line : Bytes) : Bytes := printed (lineText line)

/-! ## Refinement of asking one question at a time -/

/-- The datagram at the server's port is of the client's host. -/
def own (d : Datagram) : Option Bytes := if d.ip = loopback then some d.data else none

theorem own_of_loopback {d : Datagram} (h : d.ip = loopback) : own d = some d.data := if_pos h

theorem own_of_outsider {d : Datagram} (h : d.ip ≠ loopback) : own d = none := if_neg h

/-- The datagram holds the line of this number. -/
def Asks (sent : List Bytes) (data : Bytes) (j : Nat) : Prop :=
  ∃ line, sent[j]? = some line ∧ data = lineText line

/-- The datagram answers the line of this number. -/
def Answers (sent : List Bytes) (data : Bytes) (j : Nat) : Prop :=
  ∃ line, sent[j]? = some line ∧ data = received (lineText line)

/-- The response was printed when so many lines had been sent, and is the echo of
the line of this number. -/
def Responds (sent : List Bytes) (r : Nat × Bytes) (x : Nat × Nat) : Prop :=
  r.1 = x.1 ∧ ∃ line, sent[x.2]? = some line ∧ r.2 = echoed line

structure Related (s : State) (t : Lockstep.State) : Prop where
  asked : t.asked = s.sent.length
  waiting : t.waiting = s.waiting
  flight : ∃ back forth, t.flight = back ++ forth ∧
    List.Forall₂ (Answers s.sent) s.down back ∧
    List.Forall₂ (Asks s.sent) (s.up.filterMap own) forth
  responses : List.Forall₂ (Responds s.sent) s.responses t.answers

theorem related_start : Related start Lockstep.start where
  asked := rfl
  waiting := rfl
  flight := ⟨[], [], rfl, .nil, .nil⟩
  responses := .nil

theorem received_received (data : Bytes) : received (received data) = received data := by
  rw [received, received, List.take_take, Nat.min_self]

/-- An answer prints the echo of its line. -/
theorem Answers.printed {sent : List Bytes} {data : Bytes} {j : Nat} (h : Answers sent data j) :
    ∃ line, sent[j]? = some line ∧ printed data = echoed line := by
  obtain ⟨line, hj, rfl⟩ := h
  exact ⟨line, hj, by rw [Echo.printed, received_received]; rfl⟩

section

variable {s s' : State} {t : Lockstep.State}

/-- A line that is sent later leaves the numbers of the others. -/
theorem getElem?_sent {sent : List Bytes} {j : Nat} {line : Bytes} (h : sent[j]? = some line)
    (text : Bytes) : (sent ++ [text])[j]? = some line := by
  obtain ⟨hj, -⟩ := List.getElem?_eq_some_iff.mp h
  rw [List.getElem?_append_left hj, h]

theorem Related.line (h : Related s t) (text : Bytes) :
    Related
      { s with
        sent := s.sent ++ [text]
        waiting := true
        up := s.up ++ [{ ip := loopback, data := lineText text }] }
      { t with asked := t.asked + 1, waiting := true, flight := t.flight ++ [t.asked] } := by
  obtain ⟨back, forth, hflight, hback, hforth⟩ := h.flight
  refine { asked := ?_, waiting := rfl, flight := ⟨back, forth ++ [t.asked], ?_, ?_, ?_⟩,
           responses := h.responses.imp ?_ }
  · rw [List.length_append, List.length_singleton, h.asked]
  · rw [hflight, List.append_assoc]
  · exact hback.imp fun data j hj => hj.imp fun line hl => ⟨getElem?_sent hl.1 text, hl.2⟩
  · rw [List.filterMap_append]
    refine forall₂_concat (hforth.imp fun data j hj => hj.imp fun line hl =>
      ⟨getElem?_sent hl.1 text, hl.2⟩) ⟨text, ?_, rfl⟩
    rw [h.asked, List.getElem?_concat_length]
  · rintro r x ⟨hr, line, hl, htext⟩
    exact ⟨hr, line, getElem?_sent hl text, htext⟩

theorem Related.response (h : Related s t) {d : Bytes} {rest : List Bytes}
    (hd : s.down = d :: rest) :
    ∃ j flight, t.flight = j :: flight ∧
      Related
        { s with
          waiting := false
          down := rest
          responses := s.responses ++ [(s.sent.length, printed d)] }
        { t with waiting := false, flight := flight, answers := t.answers ++ [(t.asked, j)] } := by
  obtain ⟨back, forth, hflight, hback, hforth⟩ := h.flight
  obtain ⟨j, back', hj, hrest, rfl⟩ := List.forall₂_cons_left_iff.mp (hd ▸ hback)
  refine ⟨j, back' ++ forth, hflight, ?_⟩
  exact {
    asked := h.asked
    waiting := rfl
    flight := ⟨back', forth, rfl, hrest, hforth⟩
    responses := forall₂_concat h.responses ⟨h.asked.symm, hj.printed⟩ }

/-- The server moves what is oldest among the questions behind the answers. -/
theorem Related.serve (h : Related s t) {d : Datagram} {rest : List Datagram}
    (hd : s.up = d :: rest) (hs : step s .serve = some s') : Related s' t := by
  obtain ⟨back, forth, hflight, hback, hforth⟩ := h.flight
  rw [hd] at hforth
  simp only [step, hd] at hs
  by_cases hown : (answer d).ip = loopback
  · rw [if_pos hown, Option.some.injEq] at hs
    rw [List.filterMap_cons_some (own_of_loopback (d := d) hown)] at hforth
    obtain ⟨j, forth', ⟨line, hline, hdata⟩, hrest, rfl⟩ := List.forall₂_cons_left_iff.mp hforth
    subst hs
    refine { h with flight := ⟨back ++ [j], forth', ?_, ?_, hrest⟩ }
    · rw [hflight, List.append_assoc]
      rfl
    · exact forall₂_concat hback ⟨line, hline, congrArg received hdata⟩
  · rw [if_neg hown, Option.some.injEq] at hs
    rw [List.filterMap_cons_none (own_of_outsider (d := d) hown)] at hforth
    subst hs
    exact { h with flight := ⟨back, forth, hflight, hback, hforth⟩ }

theorem Related.disturbUp (h : Related s t) (d : Disturbance) :
    ∃ q, Disturbed d.repeats t.flight q ∧
      Related { s with up := disturb d s.up } { t with flight := q } := by
  obtain ⟨back, forth, hflight, hback, hforth⟩ := h.flight
  obtain ⟨forth', hd, hforth'⟩ := ((disturbed_disturb d s.up).filterMap own).forall₂ hforth
  refine ⟨back ++ forth', hflight ▸ hd.append_right back, ?_⟩
  exact { h with flight := ⟨back, forth', rfl, hback, hforth'⟩ }

theorem Related.disturbDown (h : Related s t) (d : Disturbance) :
    ∃ q, Disturbed d.repeats t.flight q ∧
      Related { s with down := disturb d s.down } { t with flight := q } := by
  obtain ⟨back, forth, hflight, hback, hforth⟩ := h.flight
  obtain ⟨back', hd, hback'⟩ := (disturbed_disturb d s.down).forall₂ hback
  refine ⟨back' ++ forth, hflight ▸ hd.append_left forth, ?_⟩
  exact { h with flight := ⟨back', forth, rfl, hback', hforth⟩ }

/-- Each step is a step of the abstract caller, and a slip only if it is one
there, or changes nothing there. -/
theorem Related.step (h : Related s t) {a : Action} (hs : echo.step s a = some s') :
    ∃ t', Lockstep.Step a.slip t t' ∧ Related s' t' := by
  change Echo.step s a = some s' at hs
  have hstay : Lockstep.Step false t t := .disturb false t t.flight (.same _ _)
  cases a with
  | line text =>
    cases hwait : s.waiting with
    | true => simp [Echo.step, hwait] at hs
    | false =>
      simp only [Echo.step, hwait, Bool.false_eq_true, if_false] at hs
      by_cases hlong : maxDatagram < (lineText text).length
      · rw [if_pos hlong, Option.some.injEq] at hs
        exact ⟨t, hstay, hs ▸ h⟩
      · rw [if_neg hlong, Option.some.injEq] at hs
        exact ⟨_, .ask t (h.waiting.trans hwait), hs ▸ h.line text⟩
  | sendFails text =>
    cases hwait : s.waiting with
    | true => simp [Echo.step, hwait] at hs
    | false =>
      simp only [Echo.step, hwait, Bool.false_eq_true, if_false, Option.some.injEq] at hs
      exact ⟨t, hstay, hs ▸ h⟩
  | outsider d =>
    by_cases hown : d.ip = loopback
    · simp [Echo.step, hown] at hs
    · simp only [Echo.step, if_neg hown, Option.some.injEq] at hs
      obtain ⟨back, forth, hflight, hback, hforth⟩ := h.flight
      refine ⟨t, hstay, hs ▸ { h with flight := ⟨back, forth, hflight, hback, ?_⟩ }⟩
      rw [List.filterMap_append, List.filterMap_cons_none (own_of_outsider hown),
        List.filterMap_nil, List.append_nil]
      exact hforth
  | serve =>
    cases hd : s.up with
    | nil => simp [Echo.step, hd] at hs
    | cons d rest => exact ⟨t, hstay, h.serve hd hs⟩
  | response =>
    cases hd : s.down with
    | nil => simp [Echo.step, hd] at hs
    | cons d rest =>
      cases hwait : s.waiting with
      | false => simp [Echo.step, hd, hwait] at hs
      | true =>
        simp only [Echo.step, hd, hwait, if_true, Option.some.injEq] at hs
        obtain ⟨j, flight, hflight, hrel⟩ := h.response hd
        exact ⟨_, .take t j flight (h.waiting.trans hwait) hflight, hs ▸ hrel⟩
  | recvFails =>
    cases hwait : s.waiting with
    | false => simp [Echo.step, hwait] at hs
    | true =>
      simp only [Echo.step, hwait, if_true, Option.some.injEq] at hs
      exact ⟨_, .breakOff t (h.waiting.trans hwait), hs ▸ { h with waiting := rfl }⟩
  | disturbUp d =>
    simp only [Echo.step, Option.some.injEq] at hs
    obtain ⟨q, hq, hrel⟩ := h.disturbUp d
    exact ⟨_, .disturb _ t q hq, hs ▸ hrel⟩
  | disturbDown d =>
    simp only [Echo.step, Option.some.injEq] at hs
    obtain ⟨q, hq, hrel⟩ := h.disturbDown d
    exact ⟨_, .disturb _ t q hq, hs ▸ hrel⟩

end

/-! ## Which line a response belongs to -/

/-- Each response is the echo of a line that was sent before it, no line is
answered after a later one, and the response lags behind the line sent last by at
most one line for each repeated datagram and each failed `recvfrom` so far.  At
most one response is printed for each line. -/
theorem responses_lag {as : List Action} {s : State} (h : echo.run start as = some s) :
    ∃ js : List Nat, js.Pairwise (· ≤ ·) ∧
      List.Forall₂ (fun r j => j < r.1 ∧ r.1 ≤ j + 1 + as.countP Action.slip ∧
        ∃ line, s.sent[j]? = some line ∧ r.2 = echoed line) s.responses js ∧
      (s.responses.map Prod.fst).Pairwise (· < ·) := by
  have hinv : ∃ t, Lockstep.Inv (as.countP Action.slip) t ∧ Related s t := by
    have hrun := System.run_weakened (I := fun n s => ∃ t, Lockstep.Inv n t ∧ Related s t)
      (p := Action.slip) ?_ (n := 0) ⟨Lockstep.start, Lockstep.inv_start, related_start⟩ h
    · rwa [Nat.zero_add] at hrun
    · rintro n s a s' ⟨t, hi, hrel⟩ hs
      obtain ⟨t', hstep, hrel'⟩ := hrel.step hs
      exact ⟨t', hi.step hstep, hrel'⟩
  obtain ⟨t, hi, hrel⟩ := hinv
  refine ⟨t.answers.map Prod.snd, (List.pairwise_append.mp hi.ordered).1, ?_, ?_⟩
  · rw [List.forall₂_map_right_iff]
    have hflip : List.Forall₂ (flip (Responds s.sent)) t.answers s.responses :=
      List.Forall₂.flip hrel.responses
    have hboth := (List.forall₂_and_left _ _).mpr ⟨hi.lag, hflip⟩
    refine List.Forall₂.flip (hboth.imp ?_)
    rintro x r ⟨⟨hlt, hle⟩, hr, hline⟩
    exact ⟨hr ▸ hlt, hr ▸ hle, hline⟩
  · have hmap : s.responses.map Prod.fst = t.answers.map Prod.fst :=
      List.forall₂_eq_eq_eq ▸ (List.forall₂_map_left_iff.mpr (List.forall₂_map_right_iff.mpr
        (hrel.responses.imp fun r x hr => hr.1)))
    rw [hmap]
    exact hi.once

/-- The answer to the first line is repeated on its way back, and comes again for
the second. -/
theorem responses_lag_two_lines :
    ∃ s js, echo.run start [.line (ascii "a"), .serve, .disturbDown (.dup 0), .response,
        .line (ascii "b"), .response] = some s ∧
      s.responses = [(1, ascii "a\n"), (2, ascii "a\n")] ∧
      List.Forall₂ (fun r j => j < r.1 ∧ r.1 ≤ j + 1 + 1 ∧
        ∃ line, s.sent[j]? = some line ∧ r.2 = echoed line) s.responses js := by
  obtain ⟨s, hrun, hresponses⟩ := Option.map_eq_some_iff.mp (show
    (echo.run start [.line (ascii "a"), .serve, .disturbDown (.dup 0), .response,
      .line (ascii "b"), .response]).map (·.responses) =
        some [(1, ascii "a\n"), (2, ascii "a\n")] by decide)
  obtain ⟨js, -, hjs, -⟩ := responses_lag hrun
  exact ⟨s, js, hrun, hresponses, hjs⟩

/-! ## A client that waits -/

/-- A datagram of the client, or the answer to one, is on its way. -/
def State.Pending (s : State) : Prop := s.down ≠ [] ∨ ∃ d ∈ s.up, d.ip = loopback

/-- Nothing is on its way, and `recvfrom` does not return. -/
structure Hung (s : State) : Prop where
  waiting : s.waiting = true
  down : s.down = []
  up : ∀ d ∈ s.up, d.ip ≠ loopback

theorem Hung.step {s s' : State} {a : Action} (h : Hung s) (hok : a ≠ .recvFails)
    (hs : echo.step s a = some s') : Hung s' := by
  change Echo.step s a = some s' at hs
  cases a with
  | line text => simp [Echo.step, h.waiting] at hs
  | sendFails text => simp [Echo.step, h.waiting] at hs
  | outsider d =>
    by_cases hown : d.ip = loopback
    · simp [Echo.step, hown] at hs
    · simp only [Echo.step, if_neg hown, Option.some.injEq] at hs
      refine hs ▸ { h with up := fun d' hd' => ?_ }
      rcases List.mem_append.mp hd' with hd' | hd'
      · exact h.up d' hd'
      · exact List.mem_singleton.mp hd' ▸ hown
  | serve =>
    cases hd : s.up with
    | nil => simp [Echo.step, hd] at hs
    | cons d rest =>
      have hup := h.up
      rw [hd] at hup
      have hother : (answer d).ip ≠ loopback := hup d List.mem_cons_self
      simp only [Echo.step, hd, if_neg hother, Option.some.injEq] at hs
      exact hs ▸ { h with up := fun d' hd' => hup d' (List.mem_cons_of_mem _ hd') }
  | response => simp [Echo.step, h.down] at hs
  | recvFails => exact absurd rfl hok
  | disturbUp d =>
    simp only [Echo.step, Option.some.injEq] at hs
    exact hs ▸ { h with up := fun d' hd' => h.up d' (mem_of_mem_disturb hd') }
  | disturbDown d =>
    simp only [Echo.step, Option.some.injEq] at hs
    refine hs ▸ { h with down := List.eq_nil_iff_forall_not_mem.mpr fun x hx => ?_ }
    rw [h.down] at hx
    exact List.not_mem_nil (mem_of_mem_disturb hx)

/-- The server answers what lies before the client's datagram, and then that. -/
theorem can_serve {s : State} (hup : ∃ d ∈ s.up, d.ip = loopback) :
    echo.Can (fun _ a => a ≠ .recvFails) (fun s' => s'.waiting = s.waiting ∧ s'.down ≠ []) s := by
  obtain ⟨d, hd, hown⟩ := hup
  induction hq : s.up generalizing s with
  | nil =>
    rw [hq] at hd
    cases hd
  | cons d' rest ih =>
    rw [hq] at hd
    by_cases hown' : (answer d').ip = loopback
    · have hstep : echo.step s .serve =
          some { s with up := rest, down := s.down ++ [(answer d').data] } := by
        show Echo.step s .serve = _
        simp only [Echo.step, hq, if_pos hown']
      exact .one hstep (by decide) ⟨rfl, by simp⟩
    · have hstep : echo.step s .serve =
          some { s with up := rest, others := s.others ++ [answer d'] } := by
        show Echo.step s .serve = _
        simp only [Echo.step, hq, if_neg hown']
      have hrest : d ∈ rest := by
        rcases List.mem_cons.mp hd with rfl | hd
        · exact absurd hown hown'
        · exact hd
      exact .step hstep (by decide)
        (ih (s := { s with up := rest, others := s.others ++ [answer d'] }) hrest rfl)

/-- While no other host sends to its port, a client that waits can be answered
exactly as long as one of its datagrams, or an answer to one, is on its way.
After the last of them is lost it waits for ever: nothing but a failure of
`recvfrom` lets it go on. -/
theorem answerable_iff_pending {s : State} (hwait : s.waiting = true) :
    (∃ as s', echo.Along (fun _ a => a ≠ .recvFails) s as ∧ echo.run s as = some s' ∧
      s'.waiting = false) ↔ s.Pending := by
  rw [← System.can_iff_exists_run]
  constructor
  · intro hcan
    by_contra hnone
    rw [State.Pending, not_or, not_not, not_exists] at hnone
    have hhung : Hung s :=
      { waiting := hwait, down := hnone.1, up := fun d hd hown => hnone.2 d ⟨hd, hown⟩ }
    have hkept := hcan.keep hhung fun s a s' h hok hs => h.step hok hs
    obtain ⟨as, s', -, -, hhung', hanswered⟩ := System.can_iff_exists_run.mp hkept
    rw [hhung'.waiting] at hanswered
    cases hanswered
  · intro hpending
    have hdown : echo.Can (fun _ a => a ≠ .recvFails)
        (fun s' => s'.waiting = s.waiting ∧ s'.down ≠ []) s := by
      rcases hpending with hdown | hup
      · exact .here ⟨rfl, hdown⟩
      · exact can_serve hup
    refine hdown.trans ?_
    rintro s₁ ⟨hwait₁, hdown₁⟩
    obtain ⟨d, rest, hd⟩ := List.exists_cons_of_ne_nil hdown₁
    have hstep : echo.step s₁ .response = some { s₁ with
        waiting := false
        down := rest
        responses := s₁.responses ++ [(s₁.sent.length, printed d)] } := by
      show Echo.step s₁ .response = _
      simp only [Echo.step, hd, hwait₁, hwait, if_true]
    exact .one hstep (by decide) rfl

theorem answerable_iff_pending_sent :
    let s : State := { start with
      sent := [ascii "a"]
      waiting := true
      up := [{ ip := loopback, data := lineText (ascii "a") }] }
    ∃ as s', echo.Along (fun _ a => a ≠ .recvFails) s as ∧ echo.run s as = some s' ∧
      s'.waiting = false := by
  intro s
  exact (answerable_iff_pending (s := s) rfl).mpr (.inr ⟨_, List.mem_cons_self, rfl⟩)

end Echo
end Chat
end NetLab
