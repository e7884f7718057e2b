import Mathlib.Logic.Function.Basic
import NetLab.Library.Counting
import NetLab.Library.CString
import NetLab.Library.Merge

/-!
# The telnet server with a log

The accept loop hands a descriptor over in a cell of the heap, and the thread
that gets the cell appends what it receives to `tmp.txt`.  The section under
`fileMutex` is one step, and so is each system call; everything else interleaves
freely.  Connections are counted in the order in which they are accepted, and a
thread is known by its connection.
-/

namespace NetLab
namespace Telnet

open Transition Merge CString

def bufferSize : Nat := 1024

def intMax : Int := 2 ^ 31 - 1

/-- `(int)arg`: the low half of the pointer, with its sign. -/
def toSock (arg : Nat) : Int := Int.bmod arg (2 ^ 32)

/-- The array `buffer` after `recv`: zeros behind the bytes received. -/
def buffer (data : Bytes) : Bytes := data ++ List.replicate (bufferSize - data.length) 0

/-- What `fprintf` writes. -/
def line (data : Bytes) : Bytes := cstr (buffer data) ++ [10]

/-- Where a thread stands: at its start, in `recv`, before the section that
appends what it received, before `close`, or at its end. -/
inductive ThreadPc
  | started (arg : Nat)
  | receiving (sock : Int)
  | received (sock : Int) (data : Bytes)
  | ended (sock : Int)
  | finished
  deriving DecidableEq

/-- The variable `sock`, once it is set and as long as it is used. -/
def ThreadPc.sock? : ThreadPc → Option Int
  | .receiving sock | .received sock _ | .ended sock => some sock
  | _ => none

/-- The message a thread has received and not yet appended. -/
def ThreadPc.held : ThreadPc → List Bytes
  | .received _ data => [data]
  | _ => []

/-- A running `clientThread`.  The descriptor that `accept` returned for its
connection is carried along for the statements. -/
structure Thread where
  clientSock : Int
  pc : ThreadPc
  deriving DecidableEq

/-- Where `main` stands: in `accept`, before `malloc`, or before
`pthread_create`. -/
inductive MainPc
  | accepting
  | accepted (clientSock : Int) (client : Nat)
  | allocated (clientSock : Int) (client arg : Nat)
  deriving DecidableEq

/-- `fds` says which connection a descriptor is open for, `cells` what is in the
cells that `malloc` has handed out and that are not freed, and `received` what
the calls of `recv` returned so far, with the connection it came over. -/
structure ServerState where
  fds : Int → Option Nat
  cells : Nat → Option Int
  nextClient : Nat
  main : MainPc
  threads : Nat → Option Thread
  received : List (Nat × Bytes)
  tmpTxt : Bytes

inductive ServerAction
  | accept (fd : Int)
  | acceptFails
  | malloc (addr : Nat)
  | spawn
  | spawnFails
  | convert (client : Nat)
  | recv (client : Nat) (data : Bytes)
  | recvEnds (client : Nat)
  | append (client : Nat)
  | appendFails (client : Nat)
  | close (client : Nat)
  deriving DecidableEq

/-- The thread an action belongs to. -/
def ServerAction.thread? : ServerAction → Option Nat
  | .convert c | .recv c _ | .recvEnds c | .append c | .appendFails c | .close c => some c
  | _ => none

namespace ServerState

/-- The thread of client `c`, which is `t`, goes on to `pc`. -/
def setPc (s : ServerState) (c : Nat) (t : Thread) (pc : ThreadPc) : ServerState :=
  { s with threads := Function.update s.threads c (some { t with pc := pc }) }

def acceptStep (s : ServerState) (fd : Int) : ServerState :=
  { s with
    fds := Function.update s.fds fd (some s.nextClient)
    nextClient := s.nextClient + 1
    main := .accepted fd s.nextClient }

/-- The cell is allocated and the descriptor written into it. -/
def mallocStep (s : ServerState) (clientSock : Int) (client addr : Nat) : ServerState :=
  { s with
    cells := Function.update s.cells addr (some clientSock)
    main := .allocated clientSock client addr }

def spawnStep (s : ServerState) (clientSock : Int) (client arg : Nat) : ServerState :=
  { s with
    main := .accepting
    threads := Function.update s.threads client
      (some { clientSock := clientSock, pc := .started arg }) }

/-- `sock` is set and the cell freed. -/
def convertStep (s : ServerState) (c : Nat) (t : Thread) (arg : Nat) : ServerState :=
  { s.setPc c t (.receiving (toSock arg)) with cells := Function.update s.cells arg none }

def recvStep (s : ServerState) (c : Nat) (t : Thread) (sock : Int) (conn : Nat) (data : Bytes) :
    ServerState :=
  { s.setPc c t (.received sock data) with received := s.received ++ [(conn, data)] }

def appendStep (s : ServerState) (c : Nat) (t : Thread) (sock : Int) (data : Bytes) :
    ServerState :=
  { s.setPc c t (.receiving sock) with tmpTxt := s.tmpTxt ++ line data }

def closeStep (s : ServerState) (c : Nat) (t : Thread) (sock : Int) : ServerState :=
  { s.setPc c t .finished with fds := Function.update s.fds sock none }

/-- A step of the thread of client `c`, which is `t`.  `recv` may end at any
time, and on a descriptor that is open for no connection it does. -/
def threadStep (s : ServerState) (c : Nat) (t : Thread) : ServerAction → Option ServerState
  | .convert _ =>
    match t.pc with
    | .started arg => some (s.convertStep c t arg)
    | _ => none
  | .recv _ data =>
    match t.pc with
    | .receiving sock =>
      if data ≠ [] ∧ data.length < bufferSize then
        (s.fds sock).map fun conn => s.recvStep c t sock conn data
      else none
    | _ => none
  | .recvEnds _ =>
    match t.pc with
    | .receiving sock => some (s.setPc c t (.ended sock))
    | _ => none
  | .append _ =>
    match t.pc with
    | .received sock data => some (s.appendStep c t sock data)
    | _ => none
  | .appendFails _ =>
    match t.pc with
    | .received sock _ => some (s.setPc c t (.receiving sock))
    | _ => none
  | .close _ =>
    match t.pc with
    | .ended sock => some (s.closeStep c t sock)
    | _ => none
  | _ => none

/-- A step of `main`.  A null pointer from `malloc` ends the process, and with
it the run. -/
def mainStep (s : ServerState) : ServerAction → Option ServerState
  | .accept fd =>
    if s.main = .accepting ∧ 0 ≤ fd ∧ fd ≤ intMax ∧ s.fds fd = none then
      some (s.acceptStep fd)
    else none
  | .acceptFails => if s.main = .accepting then some s else none
  | .malloc addr =>
    match s.main with
    | .accepted clientSock client =>
      if 0 < addr ∧ addr < 2 ^ 64 ∧ s.cells addr = none then
        some (s.mallocStep clientSock client addr)
      else none
    | _ => none
  | .spawn =>
    match s.main with
    | .allocated clientSock client arg => some (s.spawnStep clientSock client arg)
    | _ => none
  | .spawnFails =>
    match s.main with
    | .allocated _ _ _ => some { s with main := .accepting }
    | _ => none
  | _ => none

/-- No client yet, and a file with some old text. -/
def start (old : Bytes) : ServerState :=
  { fds := fun _ => none
    cells := fun _ => none
    nextClient := 0
    main := .accepting
    threads := fun _ => none
    received := []
    tmpTxt := old }

/-- The message of a client that its thread has not yet appended. -/
def held (s : ServerState) (client : Nat) : List Bytes :=
  match s.threads client with
  | some t => t.pc.held
  | none => []

end ServerState

open ServerState

def serverStep (s : ServerState) (a : ServerAction) : Option ServerState :=
  match a.thread? with
  | some c => (s.threads c).bind fun t => s.threadStep c t a
  | none => s.mainStep a

def telnet (old : Bytes) : System ServerState ServerAction where
  init s := s = start old
  step := serverStep

/-- What the file holds behind its old text: one record for each message that
is received and no longer held, those of each client in the order received. -/
def Log (old : Bytes) (s : ServerState) : Prop :=
  ∃ records : List (Nat × Bytes),
    s.tmpTxt = old ++ records.flatMap (fun r => r.2 ++ [10]) ∧
    ∀ client, restrict client s.received = restrict client records ++ s.held client

/-- Each thread uses the descriptor that `accept` returned for its connection,
and the log is a merge of the messages. -/
structure Merged (old : Bytes) (s : ServerState) : Prop where
  socket : ∀ c t sock, s.threads c = some t → t.pc.sock? = some sock →
    sock = t.clientSock ∧ s.fds sock = some c
  log : Log old s

/-- The low half of the pointer is the descriptor in the cell, a message that is
appended has no NUL, and `fopen` succeeds. -/
def Good (s : ServerState) : ServerAction → Prop
  | .convert c => ∀ t arg, s.threads c = some t → t.pc = .started arg →
      s.cells arg = some (toSock arg)
  | .append c => ∀ t sock data, s.threads c = some t → t.pc = .received sock data → 0 ∉ data
  | .appendFails c => ∀ t sock data, s.threads c = some t → t.pc ≠ .received sock data
  | _ => True

/-! ## What a step does -/

/-- The moves of the thread of client `c`, which is `t`. -/
inductive ThreadMove (s : ServerState) (c : Nat) (t : Thread) : ServerAction → ServerState → Prop
  | convert {arg : Nat} (hpc : t.pc = .started arg) :
      ThreadMove s c t (.convert c) (s.convertStep c t arg)
  | recv {sock : Int} {conn : Nat} {data : Bytes} (hpc : t.pc = .receiving sock)
      (hopen : s.fds sock = some conn) :
      ThreadMove s c t (.recv c data) (s.recvStep c t sock conn data)
  | recvEnds {sock : Int} (hpc : t.pc = .receiving sock) :
      ThreadMove s c t (.recvEnds c) (s.setPc c t (.ended sock))
  | append {sock : Int} {data : Bytes} (hpc : t.pc = .received sock data) :
      ThreadMove s c t (.append c) (s.appendStep c t sock data)
  | appendFails {sock : Int} {data : Bytes} (hpc : t.pc = .received sock data) :
      ThreadMove s c t (.appendFails c) (s.setPc c t (.receiving sock))
  | close {sock : Int} (hpc : t.pc = .ended sock) :
      ThreadMove s c t (.close c) (s.closeStep c t sock)

/-- The moves of `main`. -/
inductive MainMove (s : ServerState) : ServerState → Prop
  | accept {fd : Int} (hfree : s.fds fd = none) : MainMove s (s.acceptStep fd)
  | acceptFails : MainMove s s
  | malloc {clientSock : Int} {client addr : Nat}
      (hmain : s.main = .accepted clientSock client) (hfree : s.cells addr = none) :
      MainMove s (s.mallocStep clientSock client addr)
  | spawn {clientSock : Int} {client arg : Nat}
      (hmain : s.main = .allocated clientSock client arg) :
      MainMove s (s.spawnStep clientSock client arg)
  | spawnFails : MainMove s { s with main := .accepting }

section

variable {s s' : ServerState} {a : ServerAction} {c : Nat} {t : Thread}

theorem threadMove_of_threadStep (ha : a.thread? = some c) (h : s.threadStep c t a = some s') :
    ThreadMove s c t a s' := by
  cases a with
  | convert b =>
    obtain rfl := Option.some.inj ha
    rw [threadStep] at h
    split at h
    · exact Option.some.inj h ▸ .convert ‹_›
    · cases h
  | recv b data =>
    obtain rfl := Option.some.inj ha
    rw [threadStep] at h
    split at h
    · split at h
      · obtain ⟨conn, hopen, rfl⟩ := Option.map_eq_some_iff.mp h
        exact .recv ‹_› hopen
      · cases h
    · cases h
  | recvEnds b =>
    obtain rfl := Option.some.inj ha
    rw [threadStep] at h
    split at h
    · exact Option.some.inj h ▸ .recvEnds ‹_›
    · cases h
  | append b =>
    obtain rfl := Option.some.inj ha
    rw [threadStep] at h
    split at h
    · exact Option.some.inj h ▸ .append ‹_›
    · cases h
  | appendFails b =>
    obtain rfl := Option.some.inj ha
    rw [threadStep] at h
    split at h
    · exact Option.some.inj h ▸ .appendFails ‹_›
    · cases h
  | close b =>
    obtain rfl := Option.some.inj ha
    rw [threadStep] at h
    split at h
    · exact Option.some.inj h ▸ .close ‹_›
    · cases h
  | _ => cases ha

theorem mainMove_of_mainStep (h : s.mainStep a = some s') : MainMove s s' := by
  cases a with
  | accept fd =>
    obtain ⟨hok, heq⟩ := Option.ite_none_right_eq_some.mp h
    exact Option.some.inj heq ▸ .accept hok.2.2.2
  | acceptFails =>
    obtain ⟨-, heq⟩ := Option.ite_none_right_eq_some.mp h
    exact Option.some.inj heq ▸ .acceptFails
  | malloc addr =>
    rw [mainStep] at h
    split at h
    · obtain ⟨hok, heq⟩ := Option.ite_none_right_eq_some.mp h
      exact Option.some.inj heq ▸ .malloc ‹_› hok.2.2
    · cases h
  | spawn =>
    rw [mainStep] at h
    split at h
    · exact Option.some.inj h ▸ .spawn ‹_›
    · cases h
  | spawnFails =>
    rw [mainStep] at h
    split at h
    · exact Option.some.inj h ▸ .spawnFails
    · cases h
  | _ => cases h

theorem serverStep_cases (h : serverStep s a = some s') :
    MainMove s s' ∧ a.thread? = none ∨ ∃ c t, s.threads c = some t ∧ ThreadMove s c t a s' := by
  rw [serverStep] at h
  split at h
  · obtain ⟨t, ht, hstep⟩ := Option.bind_eq_some_iff.mp h
    exact .inr ⟨_, t, ht, threadMove_of_threadStep ‹_› hstep⟩
  · exact .inl ⟨mainMove_of_mainStep h, ‹_›⟩

end

/-! ## Records -/

theorem length_line (data : Bytes) : (line data).length = (cstr data).length + 1 := by
  rw [line, buffer, cstr_append_zeros, List.length_append, List.length_singleton]

theorem line_eq {data : Bytes} (h : 0 ∉ data) : line data = data ++ [10] := by
  rw [line, buffer, cstr_append_zeros, cstr_eq_self h]

section

variable {old : Bytes} {s s' : ServerState} {c : Nat} {data : Bytes}

theorem held_of_threads {b : Nat} (h : s'.threads b = s.threads b) : s'.held b = s.held b := by
  rw [held, held, h]

theorem held_eq {t : Thread} (h : s.threads c = some t) : s.held c = t.pc.held := by
  rw [held, h]

theorem held_other {u : Thread} (h : s'.threads = Function.update s.threads c (some u)) (b : Nat)
    (hb : b ≠ c) : s'.held b = s.held b :=
  held_of_threads (by rw [h, Function.update_of_ne hb])

theorem held_self {u : Thread} (h : s'.threads = Function.update s.threads c (some u))
    {l : List Bytes} (hpc : u.pc.held = l) : s'.held c = l :=
  (held_eq (by rw [h, Function.update_self])).trans hpc

theorem held_same {u : Thread} (h : s'.threads = Function.update s.threads c (some u))
    (hsame : u.pc.held = s.held c) (b : Nat) : s'.held b = s.held b := by
  by_cases hb : b = c
  · rw [hb, held_self h hsame]
  · exact held_other h b hb

/-- Nothing is received or appended. -/
theorem Log.of_held (h : Log old s) (htmp : s'.tmpTxt = s.tmpTxt)
    (hreceived : s'.received = s.received) (hheld : ∀ b, s'.held b = s.held b) : Log old s' := by
  obtain ⟨records, htxt, hmerge⟩ := h
  refine ⟨records, htmp.trans htxt, fun b => ?_⟩
  rw [hreceived, hheld b]
  exact hmerge b

theorem Log.received (h : Log old s) (htmp : s'.tmpTxt = s.tmpTxt)
    (hreceived : s'.received = s.received ++ [(c, data)]) (hbefore : s.held c = [])
    (hafter : s'.held c = [data]) (hother : ∀ b, b ≠ c → s'.held b = s.held b) : Log old s' := by
  obtain ⟨records, htxt, hmerge⟩ := h
  refine ⟨records, htmp.trans htxt, fun b => ?_⟩
  rw [hreceived]
  by_cases hb : b = c
  · rw [hb, restrict_concat_self, hmerge, hbefore, hafter, List.append_nil]
  · rw [restrict_concat_of_ne (Ne.symm hb), hother b hb]
    exact hmerge b

theorem Log.appended (h : Log old s) (htmp : s'.tmpTxt = s.tmpTxt ++ (data ++ [10]))
    (hreceived : s'.received = s.received) (hbefore : s.held c = [data])
    (hafter : s'.held c = []) (hother : ∀ b, b ≠ c → s'.held b = s.held b) : Log old s' := by
  obtain ⟨records, htxt, hmerge⟩ := h
  refine ⟨records ++ [(c, data)], ?_, fun b => ?_⟩
  · rw [htmp, htxt, List.flatMap_append, List.append_assoc, List.flatMap_singleton]
  · rw [hreceived]
    by_cases hb : b = c
    · rw [hb, restrict_concat_self, hmerge, hbefore, hafter, List.append_nil]
    · rw [restrict_concat_of_ne (Ne.symm hb), hother b hb]
      exact hmerge b

/-- A message that is no longer held is in the file, so the file has grown by
its record. -/
theorem Log.length_eq (h : Log old s) (h' : Log old s') (hreceived : s'.received = s.received)
    (hbefore : s.held c = [data]) (hafter : s'.held c = [])
    (hother : ∀ b, b ≠ c → s'.held b = s.held b) :
    s'.tmpTxt.length = s.tmpTxt.length + (data.length + 1) := by
  obtain ⟨records, htxt, hmerge⟩ := h
  obtain ⟨records', htxt', hmerge'⟩ := h'
  have hsame : ∀ b, restrict b records' = restrict b (records ++ [(c, data)]) := by
    intro b
    have hb' := hmerge' b
    rw [hreceived, hmerge b] at hb'
    by_cases hb : b = c
    · rw [hb, hbefore, hafter, List.append_nil] at hb'
      rw [hb, restrict_concat_self, hb']
    · rw [hother b hb] at hb'
      rw [restrict_concat_of_ne (Ne.symm hb), List.append_cancel_right hb']
  have hperm := (perm_of_restrict hsame).flatMap_right (fun r => r.2 ++ [10])
  have hlen := hperm.length_eq
  rw [List.flatMap_append, List.flatMap_singleton, List.length_append, List.length_append,
    List.length_singleton] at hlen
  rw [htxt', htxt, List.length_append, List.length_append, hlen, Nat.add_assoc]

end

/-! ## The invariant -/

/-- A thread that has not yet read its cell owns it, and one that has uses the
descriptor of its own connection. -/
def ThreadOk (s : ServerState) (c : Nat) (t : Thread) : Prop :=
  match t.pc with
  | .started arg => s.fds t.clientSock = some c ∧ s.cells arg = some t.clientSock
  | .receiving sock | .received sock _ | .ended sock =>
    sock = t.clientSock ∧ s.fds sock = some c
  | .finished => True

/-- Client `c` has been accepted and has no thread yet. -/
structure Waiting (s : ServerState) (clientSock : Int) (c : Nat) : Prop where
  accepted : c < s.nextClient
  thread : s.threads c = none
  socket : s.fds clientSock = some c

def MainOk (s : ServerState) : Prop :=
  match s.main with
  | .accepting => True
  | .accepted clientSock c => Waiting s clientSock c
  | .allocated clientSock c arg => Waiting s clientSock c ∧ s.cells arg = some clientSock

structure Inv (old : Bytes) (s : ServerState) : Prop where
  thread : ∀ c t, s.threads c = some t → ThreadOk s c t
  fresh : ∀ c, s.nextClient ≤ c → s.threads c = none
  main : MainOk s
  log : Log old s

/-- Descriptors of the other clients stay open for them, and the cells with
these descriptors stay allocated. -/
def Keeps (s s' : ServerState) (c : Nat) : Prop :=
  ∀ sock b, b ≠ c → s.fds sock = some b →
    s'.fds sock = some b ∧ ∀ arg, s.cells arg = some sock → s'.cells arg = some sock

section

variable {old : Bytes} {s s' : ServerState} {a : ServerAction} {c : Nat} {t : Thread}

theorem keeps_of_eq (hfds : s'.fds = s.fds) (hcells : s'.cells = s.cells) : Keeps s s' c := by
  intro sock b _ hsock
  rw [hfds, hcells]
  exact ⟨hsock, fun _ h => h⟩

theorem keeps_acceptStep {fd : Int} (hfree : s.fds fd = none) : Keeps s (s.acceptStep fd) c := by
  intro sock b _ hsock
  refine ⟨?_, fun _ h => h⟩
  have hne : sock ≠ fd := by
    rintro rfl
    rw [hfree] at hsock
    cases hsock
  exact (Function.update_of_ne hne _ _).trans hsock

theorem keeps_mallocStep {clientSock : Int} {client addr : Nat} (hfree : s.cells addr = none) :
    Keeps s (s.mallocStep clientSock client addr) c := by
  intro sock b _ hsock
  refine ⟨hsock, fun arg harg => ?_⟩
  have hne : arg ≠ addr := by
    rintro rfl
    rw [hfree] at harg
    cases harg
  exact (Function.update_of_ne hne _ _).trans harg

/-- The freed cell holds the client's own descriptor. -/
theorem keeps_convertStep {arg : Nat} {clientSock : Int} (hcell : s.cells arg = some clientSock)
    (hopen : s.fds clientSock = some c) : Keeps s (s.convertStep c t arg) c := by
  intro sock b hb hsock
  refine ⟨hsock, fun arg' harg' => ?_⟩
  have hne : arg' ≠ arg := by
    rintro rfl
    rw [harg', Option.some.injEq] at hcell
    rw [hcell, hopen, Option.some.injEq] at hsock
    exact hb hsock.symm
  exact (Function.update_of_ne hne _ _).trans harg'

theorem keeps_closeStep {sock : Int} (hopen : s.fds sock = some c) :
    Keeps s (s.closeStep c t sock) c := by
  intro sock' b hb hsock'
  refine ⟨?_, fun _ h => h⟩
  have hne : sock' ≠ sock := by
    rintro rfl
    rw [hopen, Option.some.injEq] at hsock'
    exact hb hsock'.symm
  exact (Function.update_of_ne hne _ _).trans hsock'

theorem ThreadOk.keep {b : Nat} {u : Thread} (h : ThreadOk s b u) (hk : Keeps s s' c)
    (hb : b ≠ c) : ThreadOk s' b u := by
  obtain ⟨clientSock, pc⟩ := u
  cases pc with
  | started arg =>
    have hkeep := hk _ b hb h.1
    exact ⟨hkeep.1, hkeep.2 arg h.2⟩
  | receiving sock => exact ⟨h.1, (hk _ b hb h.2).1⟩
  | received sock data => exact ⟨h.1, (hk _ b hb h.2).1⟩
  | ended sock => exact ⟨h.1, (hk _ b hb h.2).1⟩
  | finished => trivial

theorem Waiting.keep {clientSock : Int} {b : Nat} (h : Waiting s clientSock b)
    (hk : Keeps s s' c) (hb : b ≠ c) (hnext : s'.nextClient = s.nextClient)
    (hthread : s'.threads b = s.threads b) : Waiting s' clientSock b where
  accepted := hnext ▸ h.accepted
  thread := hthread.trans h.thread
  socket := (hk _ b hb h.socket).1

/-- What `main` knows about the client it works on survives the steps of a
thread. -/
theorem MainOk.keep (h : MainOk s) (hk : Keeps s s' c) (ht : s.threads c = some t)
    (hmain : s'.main = s.main) (hnext : s'.nextClient = s.nextClient)
    (hthreads : ∀ b, b ≠ c → s'.threads b = s.threads b) : MainOk s' := by
  have hother : ∀ clientSock b, Waiting s clientSock b → b ≠ c := by
    rintro clientSock b hw rfl
    rw [hw.thread] at ht
    cases ht
  rw [MainOk, hmain]
  rw [MainOk] at h
  cases hm : s.main with
  | accepting => trivial
  | accepted clientSock b =>
    rw [hm] at h
    have hb := hother clientSock b h
    exact Waiting.keep h hk hb hnext (hthreads b hb)
  | allocated clientSock b arg =>
    rw [hm] at h
    have hb := hother clientSock b h.1
    exact ⟨h.1.keep hk hb hnext (hthreads b hb), (hk _ b hb h.1.socket).2 arg h.2⟩

namespace Inv

/-- One client is concerned; what is known of the others stays. -/
theorem frame (h : Inv old s) (hk : Keeps s s' c)
    (hthreads : ∀ b, b ≠ c → s'.threads b = s.threads b)
    (hself : ∀ t, s'.threads c = some t → ThreadOk s' c t) (hc : c < s'.nextClient)
    (hnext : s.nextClient ≤ s'.nextClient) (hmain : MainOk s') (hlog : Log old s') :
    Inv old s' where
  thread b u hu := by
    by_cases hb : b = c
    · exact hb ▸ hself u (hb ▸ hu)
    · rw [hthreads b hb] at hu
      exact (h.thread b u hu).keep hk hb
  fresh b hb := by
    rw [hthreads b (by omega)]
    exact h.fresh b (hnext.trans hb)
  main := hmain
  log := hlog

theorem no_thread (h : s.threads c = none) {P : Prop} (ht : s.threads c = some t) : P := by
  rw [h] at ht
  cases ht

/-- The thread of client `c` moves. -/
theorem moved (h : Inv old s) (ht : s.threads c = some t) {u : Thread} (hk : Keeps s s' c)
    (hthreads : s'.threads = Function.update s.threads c (some u)) (hmain : s'.main = s.main)
    (hnext : s'.nextClient = s.nextClient) (hok : ThreadOk s' c u) (hlog : Log old s') :
    Inv old s' := by
  have hother : ∀ b, b ≠ c → s'.threads b = s.threads b := by
    intro b hb
    rw [hthreads, Function.update_of_ne hb]
  have hc : c < s.nextClient := by
    by_contra hge
    exact no_thread (h.fresh c (Nat.not_lt.mp hge)) ht
  refine h.frame hk hother ?_ (hnext ▸ hc) (Nat.le_of_eq hnext.symm)
    (h.main.keep hk ht hmain hnext hother) hlog
  intro v hv
  rw [hthreads, Function.update_self, Option.some.injEq] at hv
  exact hv ▸ hok

theorem mainMove (h : Inv old s) (hmove : MainMove s s') : Inv old s' := by
  cases hmove with
  | accept hfree =>
    have hnone := h.fresh _ (Nat.le_refl s.nextClient)
    refine h.frame (keeps_acceptStep hfree) (fun _ _ => rfl) ?_ (Nat.lt_succ_self _)
      (Nat.le_succ _) ?_ (h.log.of_held rfl rfl fun _ => rfl)
    · exact fun t ht => no_thread hnone ht
    · exact ⟨Nat.lt_succ_self _, hnone, Function.update_self _ _ _⟩
  | acceptFails => exact h
  | malloc hmain hfree =>
    have hm := h.main
    rw [MainOk, hmain] at hm
    refine h.frame (keeps_mallocStep hfree) (fun _ _ => rfl) ?_ hm.accepted (Nat.le_refl _) ?_
      (h.log.of_held rfl rfl fun _ => rfl)
    · exact fun t ht => no_thread hm.thread ht
    · exact ⟨⟨hm.accepted, hm.thread, hm.socket⟩, Function.update_self _ _ _⟩
  | @spawn _ c _ hmain =>
    have hm := h.main
    rw [MainOk, hmain] at hm
    have hheld : s.held c = [] := by rw [held, hm.1.thread]
    refine h.frame (keeps_of_eq rfl rfl) (fun b hb => Function.update_of_ne hb _ _) ?_
      hm.1.accepted (Nat.le_refl _) trivial (h.log.of_held rfl rfl (held_same rfl hheld.symm))
    intro t ht
    simp only [spawnStep, Function.update_self, Option.some.injEq] at ht
    exact ht ▸ ⟨hm.1.socket, hm.2⟩
  | spawnFails =>
    exact { thread := h.thread, fresh := h.fresh, main := trivial,
            log := h.log.of_held rfl rfl fun _ => rfl }

/-- A thread whose step is `Good` keeps the invariant. -/
theorem threadMove (h : Inv old s) (ht : s.threads c = some t) (hmove : ThreadMove s c t a s')
    (hgood : Good s a) : Inv old s' := by
  have hok := h.thread c t ht
  have hheld := held_eq ht
  cases hmove with
  | convert hpc =>
    rw [ThreadOk, hpc] at hok
    rw [hpc] at hheld
    have hsock := hgood t _ ht hpc
    rw [hok.2, Option.some.injEq] at hsock
    exact h.moved ht (keeps_convertStep hok.2 hok.1) rfl rfl rfl ⟨hsock.symm, hsock ▸ hok.1⟩
      (h.log.of_held rfl rfl (held_same rfl hheld.symm))
  | recv hpc hopen =>
    rw [ThreadOk, hpc] at hok
    rw [hpc] at hheld
    -- The thread reads from its own connection.
    rw [hok.2, Option.some.injEq] at hopen
    obtain rfl := hopen
    exact h.moved ht (keeps_of_eq rfl rfl) rfl rfl rfl hok
      (h.log.received rfl rfl hheld (held_self rfl rfl) (held_other rfl))
  | recvEnds hpc =>
    rw [ThreadOk, hpc] at hok
    rw [hpc] at hheld
    exact h.moved ht (keeps_of_eq rfl rfl) rfl rfl rfl hok
      (h.log.of_held rfl rfl (held_same rfl hheld.symm))
  | append hpc =>
    rw [ThreadOk, hpc] at hok
    rw [hpc] at hheld
    have hline := congrArg (s.tmpTxt ++ ·) (line_eq (hgood t _ _ ht hpc))
    exact h.moved ht (keeps_of_eq rfl rfl) rfl rfl rfl hok
      (h.log.appended hline rfl hheld (held_self rfl rfl) (held_other rfl))
  | appendFails hpc => exact absurd hpc (hgood t _ _ ht)
  | close hpc =>
    rw [ThreadOk, hpc] at hok
    rw [hpc] at hheld
    exact h.moved ht (keeps_closeStep hok.2) rfl rfl rfl trivial
      (h.log.of_held rfl rfl (held_same rfl hheld.symm))

theorem step (h : Inv old s) (hgood : Good s a) (hstep : serverStep s a = some s') :
    Inv old s' := by
  rcases serverStep_cases hstep with ⟨hmove, -⟩ | ⟨c, t, ht, hmove⟩
  · exact h.mainMove hmove
  · exact h.threadMove ht hmove hgood

theorem merged (h : Inv old s) : Merged old s where
  socket c t sock ht hsock := by
    have hok := h.thread c t ht
    obtain ⟨clientSock, pc⟩ := t
    cases pc with
    | receiving sock' => exact Option.some.inj hsock ▸ hok
    | received sock' data => exact Option.some.inj hsock ▸ hok
    | ended sock' => exact Option.some.inj hsock ▸ hok
    | _ => cases hsock
  log := h.log

theorem start (old : Bytes) : Inv old (start old) where
  thread _ _ ht := nomatch ht
  fresh _ _ := rfl
  main := trivial
  log := ⟨[], (List.append_nil old).symm, fun _ => rfl⟩

/-- A step of a thread after which the descriptors and the log are still right
was `Good`. -/
theorem good (h : Inv old s) (ht : s.threads c = some t) (hmove : ThreadMove s c t a s')
    (h' : Merged old s') : Good s a := by
  have hheld := held_eq ht
  cases hmove with
  | convert hpc =>
    intro u arg hu hupc
    obtain rfl := Option.some.inj (ht.symm.trans hu)
    rw [hpc, ThreadPc.started.injEq] at hupc
    subst hupc
    have hok := h.thread c t ht
    rw [ThreadOk, hpc] at hok
    have hsock := (h'.socket c _ _ (Function.update_self _ _ _) rfl).1
    rw [hok.2, Option.some.injEq]
    exact hsock.symm
  | append hpc =>
    intro u sock data hu hupc hzero
    obtain rfl := Option.some.inj (ht.symm.trans hu)
    rw [hupc] at hheld
    rw [hpc, ThreadPc.received.injEq] at hupc
    obtain ⟨-, rfl⟩ := hupc
    have hlen := h.log.length_eq h'.log rfl hheld (held_self rfl rfl) (held_other rfl)
    have hlt := length_cstr_lt hzero
    rw [appendStep, List.length_append, length_line] at hlen
    omega
  | appendFails hpc =>
    intro u sock data hu hupc
    obtain rfl := Option.some.inj (ht.symm.trans hu)
    rw [hupc] at hheld
    have hlen := h.log.length_eq h'.log rfl hheld (held_self rfl rfl) (held_other rfl)
    dsimp only [setPc] at hlen
    omega
  | _ => trivial

end Inv

theorem good_of_thread_none (h : a.thread? = none) : Good s a := by
  cases a with
  | convert | append | appendFails => cases h
  | _ => trivial

/-- Only a step that is taken can be wrong. -/
theorem good_of_none (h : serverStep s a = none) : Good s a := by
  cases a with
  | convert c =>
    intro t arg ht hpc
    simp [serverStep, ServerAction.thread?, ht, threadStep, hpc] at h
  | append c =>
    intro t sock data ht hpc
    simp [serverStep, ServerAction.thread?, ht, threadStep, hpc] at h
  | appendFails c =>
    intro t sock data ht hpc
    simp [serverStep, ServerAction.thread?, ht, threadStep, hpc] at h
  | _ => trivial

theorem Inv.good_of_step (h : Inv old s) (hstep : serverStep s a = some s')
    (h' : Merged old s') : Good s a := by
  rcases serverStep_cases hstep with ⟨-, ha⟩ | ⟨c, t, ht, hmove⟩
  · exact good_of_thread_none ha
  · exact h.good ht hmove h'

end

/-- Along every run the threads use their own descriptors and the log is a merge
of the messages exactly if each step is `Good`. -/
theorem merged_iff (old : Bytes) (as : List ServerAction) :
    (telnet old).Throughout (Merged old) (start old) as ↔
      (telnet old).Along Good (start old) as :=
  System.throughout_iff_along (fun _ h => h.merged) (fun _ _ _ h hgood hstep => h.step hgood hstep)
    (fun _ _ _ h hstep h' => h.good_of_step hstep h') (fun _ _ hnone => good_of_none hnone)
    (Inv.start old) as

/-- The thread of the first client takes the address of its cell for the
descriptor. -/
theorem address_as_descriptor : ¬ ∀ old as,
    (telnet old).Throughout (Merged old) (start old) as := by
  intro h
  obtain ⟨s, hrun, hthread⟩ := Option.map_eq_some_iff.mp
    (show ((telnet []).run (start [])
        [.accept 4, .malloc 0x55d0c0de12a0, .spawn, .convert 0]).map (fun s => s.threads 0) =
      some (some { clientSock := 4, pc := .receiving (-1059188064) }) by decide)
  have hsock := ((h [] _).last hrun).socket 0 _ _ hthread rfl
  exact absurd hsock.1 (by decide)

end Telnet
end NetLab
