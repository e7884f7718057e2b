import Mathlib.Logic.Function.Basic
import NetLab.Library.Bytes
import NetLab.Library.Transition

/-!
# Questions and answers of the sharing program

A client asks from a temporary socket, closes it, and waits for the answer on a
second socket with a fixed port.  The answer goes to the port the question came
from.  The model keeps the ports of every host, the processes and the questions
in flight.

Questions may be delayed, repeated and lost.  An answer is looked at when it is
sent.  Its text depends on the registry and plays no part in where it goes.
-/

namespace NetLab
namespace Sharing
namespace Replies

open Transition

def listPort : Nat := 6000
def sendPort : Nat := 7000

/-- What a client asks: for the list, or for a target to receive a file. -/
inductive Question
  | list
  | send (targetName : Bytes)
  deriving DecidableEq, Repr

/-- The port a question is broadcast to. -/
def Question.port : Question → Nat
  | .list => listPort
  | .send _ => sendPort

/-- The port of the socket that waits for the answer. -/
def Question.waitPort (q : Question) : Nat := q.port + 1000

/-- A question in flight, with its sender and source port. -/
structure Request where
  id : Nat
  client : Nat
  question : Question
  sourcePort : Nat
  deriving DecidableEq, Repr

/-- The sockets that may hold a port: the server's, the one inside
`broadcast_message`, the waiting one, and the one of the child process. -/
inductive Socket
  | server
  | temporary (client : Nat)
  | waiting (client : Nat)
  | child (client : Nat)
  deriving DecidableEq, Repr

/-- Where the parent process of a client stands.  `waiting` also says whether
`bind` succeeded. -/
inductive Phase
  | down
  | registering (sourcePort : Nat)
  | idle
  | broadcasting (r : Request)
  | closed (r : Request)
  | waiting (r : Request) (bound : Bool)
  deriving DecidableEq, Repr

/-- Where the child process of a client stands: not yet at `bind`, in
`recvfrom`, or blocked in `accept` after its answer. -/
inductive ChildPhase
  | down
  | forked
  | listening (bound : Bool)
  | accepting
  deriving DecidableEq, Repr

/-- Which host a client runs on, and its name. -/
structure Config where
  serverHost : Nat
  host : Nat → Nat
  name : Nat → Bytes

structure State where
  ports : Nat × Nat → Option Socket
  phase : Nat → Phase
  child : Nat → ChildPhase
  requests : List Request

/-- `register` and `ask` carry the free port the system gives to the temporary
socket. -/
inductive Action
  | register (client sourcePort : Nat)
  | ask (client : Nat) (question : Question) (sourcePort : Nat)
  | closeTemporary (client : Nat)
  | openWaiting (client : Nat)
  | stopWaiting (client : Nat)
  | childBinds (client : Nat)
  | childAccepts (client : Nat)
  | serverAnswers (i : Nat)
  | childAnswers (client i : Nat)
  deriving DecidableEq, Repr

namespace State

/-- `bind`, or the binding that `sendto` makes.  It fails when the port is
taken. -/
def bind (s : State) (port : Nat × Nat) (socket : Socket) : Option State :=
  if s.ports port = none then some { s with ports := Function.update s.ports port (some socket) }
  else none

def close (s : State) (port : Nat × Nat) : State :=
  { s with ports := Function.update s.ports port none }

def setPhase (s : State) (c : Nat) (phase : Phase) : State :=
  { s with phase := Function.update s.phase c phase }

def setChild (s : State) (c : Nat) (child : ChildPhase) : State :=
  { s with child := Function.update s.child c child }

/-- The question that is answered in a step. -/
def answered (k : Config) (s : State) : Action → Option Request
  | .serverAnswers i => (s.requests[i]?).filter fun r => r.question = .list
  | .childAnswers t i =>
    if s.child t = .listening true then
      (s.requests[i]?).filter fun r => r.question = .send (k.name t)
    else none
  | _ => none

def step (k : Config) (s : State) (a : Action) : Option State :=
  match a with
  | .register c p =>
    if s.phase c = .down then
      ((s.bind (k.host c, p) (.temporary c))).map (setPhase · c (.registering p))
    else none
  | .ask c q p =>
    if s.phase c = .idle then
      let r : Request := ⟨s.requests.length, c, q, p⟩
      (s.bind (k.host c, p) (.temporary c)).map fun s =>
        { s.setPhase c (.broadcasting r) with requests := s.requests ++ [r] }
    else none
  | .closeTemporary c =>
    match s.phase c with
    | .registering p => some (((s.close (k.host c, p)).setPhase c .idle).setChild c .forked)
    | .broadcasting r => some ((s.close (k.host c, r.sourcePort)).setPhase c (.closed r))
    | _ => none
  | .openWaiting c =>
    match s.phase c with
    | .closed r =>
      match s.bind (k.host c, r.question.waitPort) (.waiting c) with
      | some s' => some (s'.setPhase c (.waiting r true))
      | none => some (s.setPhase c (.waiting r false))
    | _ => none
  | .stopWaiting c =>
    match s.phase c with
    | .waiting r true => some ((s.close (k.host c, r.question.waitPort)).setPhase c .idle)
    | .waiting _ false => some (s.setPhase c .idle)
    | _ => none
  | .childBinds c =>
    if s.child c = .forked then
      match s.bind (k.host c, sendPort) (.child c) with
      | some s' => some (s'.setChild c (.listening true))
      | none => some (s.setChild c (.listening false))
    else none
  | .childAccepts c =>
    if s.child c = .accepting then some (s.setChild c (.listening true)) else none
  | .serverAnswers _ => (s.answered k a).map fun _ => s
  | .childAnswers t _ => (s.answered k a).map fun _ => s.setChild t .accepting

/-- The server holds its two ports, and no client runs. -/
def start (k : Config) : State :=
  { ports := fun port =>
      if port = (k.serverHost, 5000) ∨ port = (k.serverHost, listPort) then some .server else none
    phase := fun _ => .down
    child := fun _ => .down
    requests := [] }

end State

def network (k : Config) : System State Action where
  init s := s = .start k
  step := State.step k

/-! ## Ports and phases -/

/-- A waiting socket holds a port exactly while its client reads from it, and
the port of a temporary socket is held until that socket is closed. -/
structure Inv (k : Config) (s : State) : Prop where
  waiting : ∀ port c, s.ports port = some (.waiting c) ↔
    ∃ r, s.phase c = .waiting r true ∧ port = (k.host c, r.question.waitPort)
  registering : ∀ c p, s.phase c = .registering p →
    s.ports (k.host c, p) = some (.temporary c)
  broadcasting : ∀ c r, s.phase c = .broadcasting r →
    s.ports (k.host c, r.sourcePort) = some (.temporary c)
  child : ∀ c, s.child c = .listening true ∨ s.child c = .accepting →
    s.ports (k.host c, sendPort) = some (.child c)

theorem inv_start (k : Config) : Inv k (.start k) := by
  refine { waiting := ?_, registering := ?_, broadcasting := ?_, child := ?_ }
  · intro port c
    simp only [State.start]
    split_ifs <;> simp
  · intro c p h
    cases h
  · intro c r h
    cases h
  · intro c h
    rcases h with h | h <;> cases h

theorem State.bind_eq_some {s s' : State} {port : Nat × Nat} {socket : Socket}
    (h : s.bind port socket = some s') :
    s.ports port = none ∧ s' = { s with ports := Function.update s.ports port (some socket) } := by
  rw [State.bind, Option.ite_none_right_eq_some, Option.some.injEq] at h
  exact ⟨h.1, h.2.symm⟩

namespace Inv

variable {k : Config} {s s' : State} {c : Nat}

/-- A socket that waits for nothing takes a free port. -/
theorem bind (h : Inv k s) {port : Nat × Nat} {socket : Socket}
    (hs : s.bind port socket = some s') (hsocket : ∀ b, socket ≠ .waiting b) : Inv k s' := by
  obtain ⟨hfree, rfl⟩ := State.bind_eq_some hs
  have hold : ∀ p x, s.ports p = some x →
      Function.update s.ports port (some socket) p = some x := by
    intro p x hp
    have hne : p ≠ port := by
      intro he
      rw [he, hfree] at hp
      cases hp
    rw [Function.update_of_ne hne, hp]
  refine { waiting := ?_, registering := ?_, broadcasting := ?_, child := ?_ }
  · intro p b
    show Function.update s.ports port (some socket) p = _ ↔ _
    rw [← h.waiting]
    by_cases hp : p = port
    · rw [hp, Function.update_self, hfree, Option.some.injEq]
      exact iff_of_false (hsocket b) nofun
    · rw [Function.update_of_ne hp]
  · intro b p hb
    exact hold _ _ (h.registering b p hb)
  · intro b r hb
    exact hold _ _ (h.broadcasting b r hb)
  · intro b hb
    exact hold _ _ (h.child b hb)

/-- A client that neither leaves nor enters a bound waiting socket. -/
theorem setPhase (h : Inv k s) {phase : Phase} (hfrom : ∀ r, s.phase c ≠ .waiting r true)
    (hto : ∀ r, phase ≠ .waiting r true)
    (hreg : ∀ p, phase = .registering p → s.ports (k.host c, p) = some (.temporary c))
    (hask : ∀ r, phase = .broadcasting r →
      s.ports (k.host c, r.sourcePort) = some (.temporary c)) :
    Inv k (s.setPhase c phase) := by
  have hother : ∀ b, b ≠ c → Function.update s.phase c phase b = s.phase b :=
    fun b hb => Function.update_of_ne hb _ _
  refine { waiting := ?_, registering := ?_, broadcasting := ?_, child := h.child }
  · intro p b
    show s.ports p = _ ↔ ∃ r, Function.update s.phase c phase b = _ ∧ _
    rw [h.waiting]
    by_cases hb : b = c
    · rw [hb, Function.update_self]
      refine iff_of_false ?_ ?_
      · rintro ⟨r, hr, -⟩
        exact hfrom r hr
      · rintro ⟨r, hr, -⟩
        exact hto r hr
    · rw [hother b hb]
  · intro b p hp
    change Function.update s.phase c phase b = _ at hp
    by_cases hb : b = c
    · rw [hb, Function.update_self] at hp
      exact hb ▸ hreg p hp
    · rw [hother b hb] at hp
      exact h.registering b p hp
  · intro b r hr
    change Function.update s.phase c phase b = _ at hr
    by_cases hb : b = c
    · rw [hb, Function.update_self] at hr
      exact hb ▸ hask r hr
    · rw [hother b hb] at hr
      exact h.broadcasting b r hr

/-- The child that moves holds its port if it has bound it. -/
theorem setChild (h : Inv k s) {child : ChildPhase}
    (hchild : child = .listening true ∨ child = .accepting →
      s.ports (k.host c, sendPort) = some (.child c)) :
    Inv k (s.setChild c child) := by
  refine { h with child := ?_ }
  intro b hb
  change Function.update s.child c child b = _ ∨ Function.update s.child c child b = _ at hb
  by_cases hbc : b = c
  · rw [hbc, Function.update_self] at hb
    exact hbc ▸ hchild hb
  · rw [Function.update_of_ne hbc] at hb
    exact h.child b hb

/-- A parent process closes the socket it holds and leaves the phase it held it
in. -/
theorem release (h : Inv k s) {port : Nat × Nat} {socket : Socket} {phase : Phase}
    (hport : s.ports port = some socket)
    (hsocket : socket = .temporary c ∨ socket = .waiting c)
    (hfrom : ∀ r, s.phase c = .waiting r true → port = (k.host c, r.question.waitPort))
    (hphase : phase = .idle ∨ ∃ r, phase = .closed r) :
    Inv k ((s.close port).setPhase c phase) := by
  have hkept : ∀ p x, s.ports p = some x → x ≠ socket →
      Function.update s.ports port none p = some x := by
    intro p x hp hx
    have hpp : p ≠ port := by
      intro he
      rw [he, hport, Option.some.injEq] at hp
      exact hx hp.symm
    rw [Function.update_of_ne hpp, hp]
  have hother : ∀ b, b ≠ c → Function.update s.phase c phase b = s.phase b :=
    fun b hb => Function.update_of_ne hb _ _
  have hself : ∀ ph, Function.update s.phase c phase c = ph → ph = .idle ∨ ∃ r, ph = .closed r := by
    intro ph hph
    rw [Function.update_self] at hph
    exact hph ▸ hphase
  have htemporary : ∀ b, b ≠ c → Socket.temporary b ≠ socket := by
    intro b hb he
    rcases hsocket with hs | hs
    · exact hb (Socket.temporary.inj (he.trans hs))
    · cases he.trans hs
  refine { waiting := ?_, registering := ?_, broadcasting := ?_, child := ?_ }
  · intro p b
    show Function.update s.ports port none p = _ ↔ ∃ r, Function.update s.phase c phase b = _ ∧ _
    by_cases hb : b = c
    · rw [hb]
      refine iff_of_false ?_ ?_
      · intro hp
        have hpp : p ≠ port := by
          intro he
          rw [he, Function.update_self] at hp
          cases hp
        rw [Function.update_of_ne hpp] at hp
        obtain ⟨r, hr, hpr⟩ := (h.waiting p c).mp hp
        exact hpp (hpr.trans (hfrom r hr).symm)
      · rintro ⟨r, hr, -⟩
        rcases hself _ hr with hr | ⟨_, hr⟩ <;> cases hr
    · rw [hother b hb, ← h.waiting]
      by_cases hp : p = port
      · rw [hp, Function.update_self, hport, Option.some.injEq]
        refine iff_of_false nofun ?_
        intro he
        rcases hsocket with hs | hs
        · cases he.symm.trans hs
        · exact hb (Socket.waiting.inj (he.symm.trans hs))
      · rw [Function.update_of_ne hp]
  · intro b p hp
    by_cases hb : b = c
    · rcases hself _ (hb ▸ hp) with hr | ⟨_, hr⟩ <;> cases hr
    · change Function.update s.phase c phase b = _ at hp
      rw [hother b hb] at hp
      exact hkept _ _ (h.registering b p hp) (htemporary b hb)
  · intro b r hr
    by_cases hb : b = c
    · rcases hself _ (hb ▸ hr) with hr | ⟨_, hr⟩ <;> cases hr
    · change Function.update s.phase c phase b = _ at hr
      rw [hother b hb] at hr
      exact hkept _ _ (h.broadcasting b r hr) (htemporary b hb)
  · intro b hb
    refine hkept _ _ (h.child b hb) ?_
    intro he
    rcases hsocket with hs | hs <;> cases he.trans hs

/-- The waiting socket gets its port. -/
theorem openWaiting (h : Inv k s) {r : Request} (hphase : s.phase c = .closed r)
    (hs : s.bind (k.host c, r.question.waitPort) (.waiting c) = some s') :
    Inv k (s'.setPhase c (.waiting r true)) := by
  obtain ⟨hfree, rfl⟩ := State.bind_eq_some hs
  have hkept : ∀ p x, s.ports p = some x → Function.update s.ports
      (k.host c, r.question.waitPort) (some (.waiting c)) p = some x := by
    intro p x hp
    have hne : p ≠ (k.host c, r.question.waitPort) := by
      intro he
      rw [he, hfree] at hp
      cases hp
    rw [Function.update_of_ne hne, hp]
  have hother : ∀ b, b ≠ c → Function.update s.phase c (.waiting r true) b = s.phase b :=
    fun b hb => Function.update_of_ne hb _ _
  refine { waiting := ?_, registering := ?_, broadcasting := ?_, child := ?_ }
  · intro p b
    show Function.update s.ports _ _ p = _ ↔
      ∃ r', Function.update s.phase c (.waiting r true) b = _ ∧ _
    by_cases hb : b = c
    · rw [hb, Function.update_self]
      constructor
      · intro hp
        by_cases he : p = (k.host c, r.question.waitPort)
        · exact ⟨r, rfl, he⟩
        · rw [Function.update_of_ne he] at hp
          obtain ⟨r', hr', -⟩ := (h.waiting p c).mp hp
          rw [hphase] at hr'
          cases hr'
      · rintro ⟨r', hr', hp⟩
        cases hr'
        rw [hp, Function.update_self]
    · rw [hother b hb, ← h.waiting]
      by_cases he : p = (k.host c, r.question.waitPort)
      · rw [he, Function.update_self, hfree, Option.some.injEq]
        refine iff_of_false ?_ nofun
        intro hs
        exact hb (Socket.waiting.inj hs).symm
      · rw [Function.update_of_ne he]
  · intro b p hp
    by_cases hb : b = c
    · change Function.update s.phase c _ b = _ at hp
      rw [hb, Function.update_self] at hp
      cases hp
    · change Function.update s.phase c _ b = _ at hp
      rw [hother b hb] at hp
      exact hkept _ _ (h.registering b p hp)
  · intro b r' hr
    by_cases hb : b = c
    · change Function.update s.phase c _ b = _ at hr
      rw [hb, Function.update_self] at hr
      cases hr
    · change Function.update s.phase c _ b = _ at hr
      rw [hother b hb] at hr
      exact hkept _ _ (h.broadcasting b r' hr)
  · intro b hb
    exact hkept _ _ (h.child b hb)

theorem step (h : Inv k s) {a : Action} (hs : s.step k a = some s') : Inv k s' := by
  cases a with
  | register c p =>
    simp only [State.step, Option.ite_none_right_eq_some, Option.map_eq_some_iff] at hs
    obtain ⟨hphase, t, hbind, rfl⟩ := hs
    have ht := h.bind hbind nofun
    obtain ⟨-, rfl⟩ := State.bind_eq_some hbind
    refine ht.setPhase (fun r => by rw [hphase]; nofun) nofun ?_ nofun
    intro p' hp
    rw [← Phase.registering.inj hp]
    exact Function.update_self _ _ _
  | ask c q p =>
    simp only [State.step, Option.ite_none_right_eq_some, Option.map_eq_some_iff] at hs
    obtain ⟨hphase, t, hbind, rfl⟩ := hs
    have ht := h.bind hbind nofun
    obtain ⟨-, rfl⟩ := State.bind_eq_some hbind
    have hset : Inv k (State.setPhase
        { s with ports := Function.update s.ports (k.host c, p) (some (.temporary c)) } c
        (.broadcasting ⟨s.requests.length, c, q, p⟩)) := by
      refine ht.setPhase (fun r => by rw [hphase]; nofun) nofun nofun ?_
      intro r hr
      rw [← Phase.broadcasting.inj hr]
      exact Function.update_self _ _ _
    exact { hset with }
  | closeTemporary c =>
    simp only [State.step] at hs
    split at hs
    · rename_i p hphase
      rw [← Option.some.inj hs]
      refine Inv.setChild ?_ (fun hc => by rcases hc with hc | hc <;> cases hc)
      exact h.release (h.registering c p hphase) (.inl rfl) (fun r => by rw [hphase]; nofun)
        (.inl rfl)
    · rename_i r hphase
      rw [← Option.some.inj hs]
      exact h.release (h.broadcasting c r hphase) (.inl rfl) (fun r => by rw [hphase]; nofun)
        (.inr ⟨r, rfl⟩)
    · cases hs
  | openWaiting c =>
    simp only [State.step] at hs
    split at hs
    · rename_i r hphase
      split at hs
      · rename_i t hbind
        rw [← Option.some.inj hs]
        exact h.openWaiting hphase hbind
      · rw [← Option.some.inj hs]
        refine h.setPhase (fun r => by rw [hphase]; nofun) ?_ nofun nofun
        intro r' hr
        cases hr
    · cases hs
  | stopWaiting c =>
    simp only [State.step] at hs
    split at hs
    · rename_i r hphase
      rw [← Option.some.inj hs]
      refine h.release ((h.waiting _ c).mpr ⟨r, hphase, rfl⟩) (.inr rfl) ?_ (.inl rfl)
      intro r' hr
      rw [hphase] at hr
      cases hr
      rfl
    · rename_i r hphase
      rw [← Option.some.inj hs]
      refine h.setPhase ?_ nofun nofun nofun
      intro r' hr
      rw [hphase] at hr
      cases hr
    · cases hs
  | childBinds c =>
    simp only [State.step, Option.ite_none_right_eq_some] at hs
    obtain ⟨-, hs⟩ := hs
    split at hs
    · rename_i t hbind
      have ht := h.bind hbind nofun
      obtain ⟨-, rfl⟩ := State.bind_eq_some hbind
      rw [← Option.some.inj hs]
      exact ht.setChild fun _ => Function.update_self _ _ _
    · rw [← Option.some.inj hs]
      refine h.setChild fun hc => ?_
      rcases hc with hc | hc <;> cases hc
  | childAccepts c =>
    simp only [State.step, Option.ite_none_right_eq_some, Option.some.injEq] at hs
    obtain ⟨hchild, rfl⟩ := hs
    exact h.setChild fun _ => h.child c (.inr hchild)
  | serverAnswers i =>
    simp only [State.step, Option.map_eq_some_iff] at hs
    obtain ⟨r, -, rfl⟩ := hs
    exact h
  | childAnswers t i =>
    simp only [State.step, Option.map_eq_some_iff] at hs
    obtain ⟨r, hr, rfl⟩ := hs
    rw [State.answered, Option.ite_none_right_eq_some] at hr
    exact h.setChild fun _ => h.child t (.inl hr.1)

end Inv

theorem reachable_inv {k : Config} {s : State} (h : (network k).Reachable s) : Inv k s := by
  apply System.Reachable.invariant (I := Inv k) _ _ h
  · intro s hs
    exact hs ▸ inv_start k
  · intro s a s' hi hs
    exact hi.step hs

/-! ## Where answers go -/

/-- The answer to a question goes to a socket that the client has open and reads
for this very answer. -/
def Reaches (k : Config) (s : State) (r : Request) : Prop :=
  s.ports (k.host r.client, r.sourcePort) = some (.waiting r.client) ∧
    ∃ bound, s.phase r.client = .waiting r bound

/-- Every answer sent in a step reaches its client. -/
def Answered (k : Config) (s : State) (a : Action) : Prop :=
  ∀ r, s.answered k a = some r → Reaches k s r

/-- Every question that is answered came from the port its client waits on, and
the client waits there at this moment, its `bind` having succeeded. -/
def PortMatches (k : Config) (s : State) (a : Action) : Prop :=
  ∀ r, s.answered k a = some r →
    r.sourcePort = r.question.waitPort ∧ s.phase r.client = .waiting r true

section

variable {k : Config} {s : State}

theorem Inv.reaches_iff (h : Inv k s) (r : Request) :
    Reaches k s r ↔
      r.sourcePort = r.question.waitPort ∧ s.phase r.client = .waiting r true := by
  constructor
  · rintro ⟨hport, bound, hphase⟩
    obtain ⟨r', hr', hp⟩ := (h.waiting _ _).mp hport
    rw [hphase] at hr'
    cases hr'
    exact ⟨(Prod.mk.inj hp).2, hphase⟩
  · rintro ⟨hport, hphase⟩
    exact ⟨(h.waiting _ _).mpr ⟨r, hphase, by rw [hport]⟩, true, hphase⟩

/-- A child that has bound its port takes the one on which a list would be
awaited: no client of that host can ever be told the list. -/
theorem Inv.list_not_reaches (h : Inv k s) {t : Nat}
    (ht : s.child t = .listening true ∨ s.child t = .accepting) {r : Request}
    (hr : r.question = .list) (hhost : k.host r.client = k.host t) : ¬ Reaches k s r := by
  intro hreach
  have hport : r.sourcePort = sendPort := by
    rw [((h.reaches_iff r).mp hreach).1, hr]
    rfl
  have hwaiting := hreach.1
  rw [hport, hhost, h.child t ht] at hwaiting
  cases hwaiting

end

/-- Answers reach their clients along exactly those runs in which the system
happens to give each question the port its client will wait on. -/
theorem answers_reach_iff (k : Config) (l : List Action) :
    (network k).Along (Answered k) (.start k) l ↔
      (network k).Along (PortMatches k) (.start k) l := by
  apply System.along_congr _ (.init rfl)
  intro s a hs
  exact forall₂_congr fun r _ => (reachable_inv hs).reaches_iff r

/-- A single client asks for the list from port 50000. -/
theorem answer_misses_client :
    ¬ ∀ (k : Config) (l : List Action), (network k).Along (Answered k) (.start k) l := by
  intro h
  let k : Config := { serverHost := 0, host := fun _ => 1, name := fun _ => [] }
  let l : List Action := [.register 0 50000, .closeTemporary 0, .childBinds 0, .ask 0 .list 50000,
    .closeTemporary 0, .openWaiting 0]
  obtain ⟨s, hrun, hstate⟩ := Option.map_eq_some_iff.mp (show
    ((network k).run (.start k) l).map (fun s => (s.requests, s.ports (1, 50000))) =
      some ([⟨0, 0, .list, 50000⟩], none) by decide +kernel)
  obtain ⟨hrequests, hclosed⟩ := Prod.mk.inj hstate
  have hanswered : s.answered k (.serverAnswers 0) = some ⟨0, 0, .list, 50000⟩ := by
    rw [State.answered, hrequests]
    rfl
  have hreach := ((h k (l ++ [.serverAnswers 0])).rest hrun).1 _ hanswered
  cases hclosed.symm.trans hreach.1

end Replies
end Sharing
end NetLab
