import Mathlib.Data.List.Nodup
import Mathlib.Logic.Function.Basic
import NetLab.Library.Bytes
import NetLab.Library.Transition

/-!
# The chat room with a thread for each client

The accept loop and the handlers share one descriptor table and the array
`g_sockets`.  Each section under `g_mutex` is one step, and so is each system
call; everything else interleaves freely.  The array is unbounded here.
-/

namespace NetLab
namespace Chat
namespace ThreadRoom

open Transition

def bufferSize : Nat := 1024

/-- Where a handler stands: in `recv`, before the broadcast of what it received,
before the section that clears its entry, before `close`, or at its end. -/
inductive HandlerPc
  | receiving
  | received (data : Bytes)
  | ended
  | cleared
  | finished
  deriving DecidableEq, Repr

def HandlerPc.isCleared : HandlerPc → Bool
  | .cleared | .finished => true
  | _ => false

/-- A running `client_handler` with its two arguments. -/
structure Handler where
  clientSocket : Nat
  clientIndex : Nat
  pc : HandlerPc
  deriving DecidableEq, Repr

/-- Where `main` stands: in `accept`, before the section that registers the
client, or before `pthread_create`.  The connection behind an accepted
descriptor is carried along for the statements. -/
inductive MainPc
  | accepting
  | accepted (clientSocket client : Nat)
  | registered (clientSocket currentIndex : Nat)
  deriving DecidableEq, Repr

/-- `fds` says which connection a descriptor is open for.  Connections are
counted in the order in which they are accepted, and `registered` lists them by
index.  `sent` is what the broadcasts sent so far, and on which connection: none
when the descriptor was not open. -/
structure RoomState where
  fds : Nat → Option Nat
  nextClient : Nat
  gSockets : Nat → Nat
  gCount : Nat
  registered : List Nat
  main : MainPc
  handlers : List Handler
  sent : List (Option Nat × Bytes)

inductive RoomAction
  | accept (fd : Nat)
  | acceptFails
  | register
  | spawn
  | spawnFails
  | recv (handler : Nat) (data : Bytes)
  | recvEnds (handler : Nat)
  | broadcast (handler : Nat)
  | clear (handler : Nat)
  | close (handler : Nat)
  deriving DecidableEq, Repr

namespace RoomState

/-- The calls of `send` in the section that broadcasts: descriptor and data. -/
def sends (s : RoomState) (t : Handler) (data : Bytes) : List (Nat × Bytes) :=
  (((List.range s.gCount).map s.gSockets).filter fun v => v ≠ 0 ∧ v ≠ t.clientSocket).map
    fun v => (v, data)

/-- The connections that these calls reach. -/
def recipients (s : RoomState) (t : Handler) (data : Bytes) : List (Option Nat × Bytes) :=
  (s.sends t data).map fun m => (s.fds m.1, m.2)

/-- Handler `i`, which is `t`, goes on to `pc`. -/
def setPc (s : RoomState) (i : Nat) (t : Handler) (pc : HandlerPc) : RoomState :=
  { s with handlers := s.handlers.set i { t with pc := pc } }

def acceptStep (s : RoomState) (fd : Nat) : RoomState :=
  { s with
    fds := Function.update s.fds fd (some s.nextClient)
    nextClient := s.nextClient + 1
    main := .accepted fd s.nextClient }

def registerStep (s : RoomState) (clientSocket client : Nat) : RoomState :=
  { s with
    gSockets := Function.update s.gSockets s.gCount clientSocket
    gCount := s.gCount + 1
    registered := s.registered ++ [client]
    main := .registered clientSocket s.gCount }

def spawnStep (s : RoomState) (clientSocket currentIndex : Nat) : RoomState :=
  { s with
    main := .accepting
    handlers := s.handlers ++
      [{ clientSocket := clientSocket, clientIndex := currentIndex, pc := .receiving }] }

/-- A step of a handler. -/
def handlerStep (s : RoomState) (i : Nat) (t : Handler) : RoomAction → Option RoomState
  | .recv _ data =>
    if t.pc = .receiving ∧ data ≠ [] ∧ data.length < bufferSize then
      some (s.setPc i t (.received data))
    else none
  | .recvEnds _ => if t.pc = .receiving then some (s.setPc i t .ended) else none
  | .broadcast _ =>
    match t.pc with
    | .received data =>
      some { s.setPc i t .receiving with sent := s.sent ++ s.recipients t data }
    | _ => none
  | .clear _ =>
    if t.pc = .ended then
      some { s.setPc i t .cleared with gSockets := Function.update s.gSockets t.clientIndex 0 }
    else none
  | .close _ =>
    if t.pc = .cleared then
      some { s.setPc i t .finished with fds := Function.update s.fds t.clientSocket none }
    else none
  | _ => none

/-- A step of `main`. -/
def mainStep (s : RoomState) : RoomAction → Option RoomState
  | .accept fd =>
    if s.main = .accepting ∧ 0 < fd ∧ s.fds fd = none then some (s.acceptStep fd) else none
  | .acceptFails => if s.main = .accepting then some s else none
  | .register =>
    match s.main with
    | .accepted clientSocket client => some (s.registerStep clientSocket client)
    | _ => none
  | .spawn =>
    match s.main with
    | .registered clientSocket index => some (s.spawnStep clientSocket index)
    | _ => none
  | .spawnFails =>
    match s.main with
    | .registered _ _ => some { s with main := .accepting }
    | _ => none
  | _ => none

/-- No client yet.  Whatever else the process has open is not free for
`accept`, and stays out of the model. -/
def start : RoomState :=
  { fds := fun _ => none
    nextClient := 0
    gSockets := fun _ => 0
    gCount := 0
    registered := []
    main := .accepting
    handlers := []
    sent := [] }

end RoomState

/-- The handler an action belongs to. -/
def RoomAction.handler? : RoomAction → Option Nat
  | .recv i _ | .recvEnds i | .broadcast i | .clear i | .close i => some i
  | _ => none

def roomStep (s : RoomState) (a : RoomAction) : Option RoomState :=
  match a.handler? with
  | some i => (s.handlers[i]?).bind fun t => s.handlerStep i t a
  | none => s.mainStep a

def room : System RoomState RoomAction where
  init s := s = .start
  step := roomStep

/-! ## Handlers and the entries they have cleared -/

/-- The handler of an index has been through the section that clears its
entry. -/
def Cleared (hs : List Handler) (n : Nat) : Prop :=
  ∃ t ∈ hs, t.clientIndex = n ∧ t.pc.isCleared = true

section

variable {hs : List Handler} {i : Nat} {t : Handler}

theorem map_index_setPc (ht : hs[i]? = some t) (pc : HandlerPc) :
    (hs.set i { t with pc := pc }).map (·.clientIndex) = hs.map (·.clientIndex) := by
  obtain ⟨hi, rfl⟩ := List.getElem?_eq_some_iff.mp ht
  apply List.ext_getElem (by simp)
  intro j _ _
  by_cases hij : i = j
  · subst hij
    simp
  · simp [hij]

/-- Only one handler has the index of the one that moves. -/
theorem mem_setPc (hnd : (hs.map (·.clientIndex)).Nodup) (ht : hs[i]? = some t) {u : Handler}
    {pc : HandlerPc} (h : u ∈ hs.set i { t with pc := pc }) :
    u = { t with pc := pc } ∨ u ∈ hs ∧ u.clientIndex ≠ t.clientIndex := by
  have hi : i < hs.length := (List.getElem?_eq_some_iff.mp ht).1
  have hmem : ({ t with pc := pc } : Handler) ∈ hs.set i { t with pc := pc } :=
    List.mem_set hi _
  by_cases hindex : u.clientIndex = t.clientIndex
  · exact .inl (List.inj_on_of_nodup_map (map_index_setPc ht pc ▸ hnd) h hmem hindex)
  · rcases List.mem_or_eq_of_mem_set h with hu | hu
    · exact .inr ⟨hu, hindex⟩
    · exact .inl hu

theorem index_setPc (hnd : (hs.map (·.clientIndex)).Nodup) (ht : hs[i]? = some t)
    (pc : HandlerPc) :
    ∀ u ∈ hs.set i { t with pc := pc }, ∃ v ∈ hs, v.clientIndex = u.clientIndex := by
  intro u hu
  rcases mem_setPc hnd ht hu with rfl | ⟨hu, -⟩
  · exact ⟨t, List.mem_of_getElem? ht, rfl⟩
  · exact ⟨u, hu, rfl⟩

theorem cleared_index_iff (hnd : (hs.map (·.clientIndex)).Nodup) (ht : t ∈ hs) :
    Cleared hs t.clientIndex ↔ t.pc.isCleared = true := by
  refine ⟨fun h => ?_, fun h => ⟨t, ht, rfl, h⟩⟩
  obtain ⟨u, hu, hindex, hcl⟩ := h
  have hut : u = t := List.inj_on_of_nodup_map hnd hu ht hindex
  exact hut ▸ hcl

/-- What a step of one handler does to the set of cleared indices. -/
theorem cleared_setPc_iff (hnd : (hs.map (·.clientIndex)).Nodup) (ht : hs[i]? = some t)
    (pc : HandlerPc) (n : Nat) :
    Cleared (hs.set i { t with pc := pc }) n ↔
      if n = t.clientIndex then pc.isCleared = true else Cleared hs n := by
  have hi : i < hs.length := (List.getElem?_eq_some_iff.mp ht).1
  have hmem : ({ t with pc := pc } : Handler) ∈ hs.set i { t with pc := pc } :=
    List.mem_set hi _
  have hnd' := map_index_setPc ht pc ▸ hnd
  by_cases hn : n = t.clientIndex
  · rw [if_pos hn, hn]
    exact cleared_index_iff hnd' hmem
  · rw [if_neg hn]
    constructor
    · rintro ⟨u, hu, hindex, hcl⟩
      rcases mem_setPc hnd ht hu with rfl | ⟨hu, -⟩
      · exact absurd hindex.symm hn
      · exact ⟨u, hu, hindex, hcl⟩
    · rintro ⟨u, hu, hindex, hcl⟩
      obtain ⟨j, hj⟩ := List.getElem?_of_mem hu
      have hij : i ≠ j := by
        rintro rfl
        rw [ht, Option.some.injEq] at hj
        exact hn (hj ▸ hindex.symm)
      exact ⟨u, List.mem_of_getElem? ((List.getElem?_set_ne hij).trans hj), hindex, hcl⟩

end

/-! ## The invariant -/

/-- What `main` knows about the client it is about to register or to start a
handler for. -/
def MainOk (s : RoomState) : Prop :=
  match s.main with
  | .accepting => True
  | .accepted clientSocket client =>
    0 < clientSocket ∧ s.fds clientSocket = some client ∧ client ∉ s.registered ∧
      client < s.nextClient
  | .registered clientSocket index =>
    index < s.gCount ∧ s.gSockets index = clientSocket ∧
      ∀ t ∈ s.handlers, t.clientIndex ≠ index

structure Inv (s : RoomState) : Prop where
  count : s.registered.length = s.gCount
  nodup : s.registered.Nodup
  fresh : ∀ c ∈ s.registered, c < s.nextClient
  indices : (s.handlers.map (·.clientIndex)).Nodup
  index_lt : ∀ t ∈ s.handlers, t.clientIndex < s.gCount
  zero : ∀ n, n < s.gCount → Cleared s.handlers n → s.gSockets n = 0
  entry : ∀ n, n < s.gCount → ¬ Cleared s.handlers n →
    0 < s.gSockets n ∧ s.fds (s.gSockets n) = s.registered[n]?
  socket : ∀ t ∈ s.handlers, t.pc.isCleared = false → s.gSockets t.clientIndex = t.clientSocket
  closing : ∀ t ∈ s.handlers, t.pc = .cleared → s.fds t.clientSocket = s.registered[t.clientIndex]?
  main : MainOk s

/-- What `main` knows survives the steps of the handlers. -/
theorem MainOk.of_eq {s s' : RoomState} (h : MainOk s) (hmain : s'.main = s.main)
    (hregistered : s'.registered = s.registered) (hnext : s'.nextClient = s.nextClient)
    (hcount : s'.gCount = s.gCount)
    (hfds : ∀ d c, s.fds d = some c → c ∉ s.registered → s'.fds d = some c)
    (hentry : ∀ n, n < s.gCount → (∀ t ∈ s.handlers, t.clientIndex ≠ n) →
      s'.gSockets n = s.gSockets n)
    (hindex : ∀ t ∈ s'.handlers, ∃ u ∈ s.handlers, u.clientIndex = t.clientIndex) :
    MainOk s' := by
  rw [MainOk, hmain]
  rw [MainOk] at h
  cases hm : s.main with
  | accepting => trivial
  | accepted clientSocket c =>
    rw [hm] at h
    obtain ⟨hpos, hopen, hnew, hlt⟩ := h
    exact ⟨hpos, hfds _ _ hopen hnew, hregistered ▸ hnew, hnext ▸ hlt⟩
  | registered clientSocket index =>
    rw [hm] at h
    obtain ⟨hlt, hsocket, hnone⟩ := h
    refine ⟨hcount ▸ hlt, (hentry index hlt hnone).trans hsocket, fun t ht => ?_⟩
    obtain ⟨u, hu, hut⟩ := hindex t ht
    exact hut ▸ hnone u hu

theorem inv_start : Inv .start := by
  constructor <;> simp [RoomState.start, MainOk]

namespace Inv

variable {s : RoomState}

/-- Every index below the count has a client. -/
theorem client (h : Inv s) {n : Nat} (hn : n < s.gCount) : ∃ c, s.registered[n]? = some c :=
  ⟨_, List.getElem?_eq_getElem (h.count ▸ hn)⟩

theorem client_inj (h : Inv s) {n m : Nat} (hn : n < s.gCount)
    (heq : s.registered[n]? = s.registered[m]?) : n = m :=
  (List.getElem?_inj (h.count.symm ▸ hn) h.nodup).mp heq

/-- Entries in use are pairwise distinct. -/
theorem entry_inj (h : Inv s) {n m : Nat} (hn : n < s.gCount) (hm : m < s.gCount)
    (hne : s.gSockets n ≠ 0) (heq : s.gSockets n = s.gSockets m) : n = m := by
  have hclearn : ¬ Cleared s.handlers n := fun hc => hne (h.zero n hn hc)
  have hclearm : ¬ Cleared s.handlers m := fun hc => hne (heq.trans (h.zero m hm hc))
  apply h.client_inj hn
  rw [← (h.entry n hn hclearn).2, ← (h.entry m hm hclearm).2, heq]

theorem accept (h : Inv s) {fd : Nat} (hpos : 0 < fd) (hfree : s.fds fd = none) :
    Inv (s.acceptStep fd) := by
  have hopen : ∀ d c, s.fds d = some c → (s.acceptStep fd).fds d = some c := by
    intro d c hd
    have hne : d ≠ fd := by
      rintro rfl
      rw [hfree] at hd
      cases hd
    exact (Function.update_of_ne hne _ _).trans hd
  have hindex : ∀ d n, n < s.gCount → s.fds d = s.registered[n]? →
      (s.acceptStep fd).fds d = s.registered[n]? := by
    intro d n hn hd
    obtain ⟨c, hc⟩ := h.client hn
    rw [hc] at hd ⊢
    exact hopen d c hd
  refine { h with fresh := ?_, entry := ?_, closing := ?_, main := ?_ }
  · intro c hc
    exact Nat.lt_succ_of_lt (h.fresh c hc)
  · intro n hn hc
    exact ⟨(h.entry n hn hc).1, hindex _ n hn (h.entry n hn hc).2⟩
  · intro t ht hpc
    exact hindex _ _ (h.index_lt t ht) (h.closing t ht hpc)
  · refine ⟨hpos, Function.update_self _ _ _, ?_, Nat.lt_succ_self _⟩
    intro hmem
    exact Nat.lt_irrefl _ (h.fresh _ hmem)

theorem register (h : Inv s) {clientSocket c : Nat} (hmain : s.main = .accepted clientSocket c) :
    Inv (s.registerStep clientSocket c) := by
  have hm := h.main
  rw [MainOk, hmain] at hm
  obtain ⟨hpos, hopen, hnew, hlt⟩ := hm
  have hold : ∀ n, n < s.gCount → (s.registerStep clientSocket c).gSockets n = s.gSockets n ∧
      (s.registerStep clientSocket c).registered[n]? = s.registered[n]? := by
    intro n hn
    refine ⟨Function.update_of_ne (Nat.ne_of_lt hn) _ _, ?_⟩
    exact List.getElem?_append_left (h.count.symm ▸ hn)
  have hlast : (s.registerStep clientSocket c).gSockets s.gCount = clientSocket ∧
      (s.registerStep clientSocket c).registered[s.gCount]? = some c := by
    refine ⟨Function.update_self _ _ _, ?_⟩
    show (s.registered ++ [c])[s.gCount]? = some c
    rw [← h.count, List.getElem?_concat_length]
  have hsplit : ∀ n, n < s.gCount + 1 → n < s.gCount ∨ n = s.gCount := by
    intro n hn
    omega
  have hno : ¬ Cleared s.handlers s.gCount := by
    rintro ⟨t, ht, hindex, -⟩
    exact absurd (h.index_lt t ht) (by omega)
  refine { count := ?_, nodup := ?_, fresh := ?_, indices := h.indices, index_lt := ?_,
           zero := ?_, entry := ?_, socket := ?_, closing := ?_, main := ?_ }
  · show (s.registered ++ [c]).length = s.gCount + 1
    rw [List.length_append, h.count]
    rfl
  · exact h.nodup.append (List.nodup_singleton c) (by simpa using hnew)
  · intro b hb
    rcases List.mem_append.mp hb with hb | hb
    · exact h.fresh b hb
    · rw [List.mem_singleton.mp hb]
      exact hlt
  · intro t ht
    exact Nat.lt_succ_of_lt (h.index_lt t ht)
  · intro n hn hc
    rcases hsplit n hn with hn | rfl
    · rw [(hold n hn).1]
      exact h.zero n hn hc
    · exact absurd hc hno
  · intro n hn hc
    rcases hsplit n hn with hn | rfl
    · rw [(hold n hn).1, (hold n hn).2]
      exact h.entry n hn hc
    · rw [hlast.1, hlast.2]
      exact ⟨hpos, hopen⟩
  · intro t ht hpc
    rw [(hold _ (h.index_lt t ht)).1]
    exact h.socket t ht hpc
  · intro t ht hpc
    rw [(hold _ (h.index_lt t ht)).2]
    exact h.closing t ht hpc
  · refine ⟨Nat.lt_succ_self _, hlast.1, ?_⟩
    intro t ht
    exact Nat.ne_of_lt (h.index_lt t ht)

theorem spawn (h : Inv s) {clientSocket index : Nat}
    (hmain : s.main = .registered clientSocket index) :
    Inv (s.spawnStep clientSocket index) := by
  have hm := h.main
  rw [MainOk, hmain] at hm
  obtain ⟨hlt, hsocket, hnone⟩ := hm
  have hmem : ∀ t, t ∈ (s.spawnStep clientSocket index).handlers → t ∈ s.handlers ∨
      t = { clientSocket := clientSocket, clientIndex := index, pc := .receiving } := by
    intro t ht
    exact (List.mem_append.mp ht).imp_right List.mem_singleton.mp
  have hcleared : ∀ n, Cleared (s.spawnStep clientSocket index).handlers n ↔
      Cleared s.handlers n := by
    intro n
    constructor
    · rintro ⟨t, ht, hindex, hcl⟩
      rcases hmem t ht with ht | rfl
      · exact ⟨t, ht, hindex, hcl⟩
      · cases hcl
    · rintro ⟨t, ht, hindex, hcl⟩
      exact ⟨t, List.mem_append_left _ ht, hindex, hcl⟩
  refine { h with indices := ?_, index_lt := ?_, zero := ?_, entry := ?_, socket := ?_,
                  closing := ?_, main := trivial }
  · show ((s.handlers ++ [_]).map (fun t : Handler => t.clientIndex)).Nodup
    rw [List.map_append]
    refine h.indices.append (List.nodup_singleton _) ?_
    rw [List.map_singleton, List.disjoint_singleton]
    intro hin
    obtain ⟨t, ht, hindex⟩ := List.mem_map.mp hin
    exact hnone t ht hindex
  · intro t ht
    rcases hmem t ht with ht | rfl
    · exact h.index_lt t ht
    · exact hlt
  · intro n hn hc
    exact h.zero n hn ((hcleared n).mp hc)
  · intro n hn hc
    exact h.entry n hn (mt (hcleared n).mpr hc)
  · intro t ht hpc
    rcases hmem t ht with ht | rfl
    · exact h.socket t ht hpc
    · exact hsocket
  · intro t ht hpc
    rcases hmem t ht with ht | rfl
    · exact h.closing t ht hpc
    · cases hpc

/-- A handler that goes on without clearing or closing anything. -/
theorem setPc (h : Inv s) {i : Nat} {t : Handler} (ht : s.handlers[i]? = some t) {pc : HandlerPc}
    (hpc : pc.isCleared = t.pc.isCleared) (hclosing : pc ≠ .cleared) : Inv (s.setPc i t pc) := by
  have hmemt : t ∈ s.handlers := List.mem_of_getElem? ht
  have hcleared : ∀ n, Cleared (s.setPc i t pc).handlers n ↔ Cleared s.handlers n := by
    intro n
    refine (cleared_setPc_iff h.indices ht pc n).trans ?_
    by_cases hn : n = t.clientIndex
    · rw [if_pos hn, hn, hpc]
      exact (cleared_index_iff h.indices hmemt).symm
    · rw [if_neg hn]
  refine { h with indices := ?_, index_lt := ?_, zero := ?_, entry := ?_, socket := ?_,
                  closing := ?_, main := ?_ }
  · show ((s.handlers.set i _).map (fun t : Handler => t.clientIndex)).Nodup
    rw [map_index_setPc ht]
    exact h.indices
  · intro u hu
    rcases mem_setPc h.indices ht hu with rfl | ⟨hu, hne⟩
    · exact h.index_lt t hmemt
    · exact h.index_lt u hu
  · intro n hn hc
    exact h.zero n hn ((hcleared n).mp hc)
  · intro n hn hc
    exact h.entry n hn (mt (hcleared n).mpr hc)
  · intro u hu hc
    rcases mem_setPc h.indices ht hu with rfl | ⟨hu, hne⟩
    · exact h.socket t hmemt (hpc ▸ hc)
    · exact h.socket u hu hc
  · intro u hu hc
    rcases mem_setPc h.indices ht hu with rfl | ⟨hu, hne⟩
    · exact absurd hc hclosing
    · exact h.closing u hu hc
  · exact h.main.of_eq rfl rfl rfl rfl (fun _ _ hd _ => hd) (fun _ _ _ => rfl)
      (index_setPc h.indices ht pc)

/-- The section that clears the handler's entry. -/
theorem clear (h : Inv s) {i : Nat} {t : Handler} (ht : s.handlers[i]? = some t)
    (hpc : t.pc = .ended) :
    Inv { s.setPc i t .cleared with gSockets := Function.update s.gSockets t.clientIndex 0 } := by
  have hmemt : t ∈ s.handlers := List.mem_of_getElem? ht
  have hidx := h.index_lt t hmemt
  have hother : ∀ n, n ≠ t.clientIndex →
      Function.update s.gSockets t.clientIndex 0 n = s.gSockets n :=
    fun n hn => Function.update_of_ne hn _ _
  have hcleared := cleared_setPc_iff h.indices ht .cleared
  refine { h with indices := ?_, index_lt := ?_, zero := ?_, entry := ?_, socket := ?_,
                  closing := ?_, main := ?_ }
  · show ((s.handlers.set i _).map (fun t : Handler => t.clientIndex)).Nodup
    rw [map_index_setPc ht]
    exact h.indices
  · intro u hu
    rcases mem_setPc h.indices ht hu with rfl | ⟨hu, hne⟩
    · exact hidx
    · exact h.index_lt u hu
  · intro n hn hc
    by_cases he : n = t.clientIndex
    · rw [he]
      exact Function.update_self _ _ _
    · have hc' := (hcleared n).mp hc
      rw [if_neg he] at hc'
      exact (hother n he).trans (h.zero n hn hc')
  · intro n hn hc
    have hc' := mt (hcleared n).mpr hc
    by_cases he : n = t.clientIndex
    · rw [if_pos he] at hc'
      exact absurd rfl hc'
    · rw [if_neg he] at hc'
      show 0 < Function.update s.gSockets t.clientIndex 0 n ∧
        s.fds (Function.update s.gSockets t.clientIndex 0 n) = _
      rw [hother n he]
      exact h.entry n hn hc'
  · intro u hu hc
    rcases mem_setPc h.indices ht hu with rfl | ⟨hu, hne⟩
    · cases hc
    · exact (hother _ hne).trans (h.socket u hu hc)
  · intro u hu hc
    rcases mem_setPc h.indices ht hu with rfl | ⟨hu, hne⟩
    · have hno : ¬ Cleared s.handlers t.clientIndex := by
        rw [cleared_index_iff h.indices hmemt, hpc]
        exact Bool.false_ne_true
      have hsocket := h.socket t hmemt (by rw [hpc]; rfl)
      show s.fds t.clientSocket = _
      rw [← hsocket]
      exact (h.entry _ hidx hno).2
    · exact h.closing u hu hc
  · refine h.main.of_eq rfl rfl rfl rfl (fun _ _ hd _ => hd) ?_ (index_setPc h.indices ht _)
    intro n _ hnone
    exact hother n (hnone t hmemt).symm

/-- Closing the descriptor of a client whose entry has been cleared. -/
theorem close (h : Inv s) {i : Nat} {t : Handler} (ht : s.handlers[i]? = some t)
    (hpc : t.pc = .cleared) :
    Inv { s.setPc i t .finished with fds := Function.update s.fds t.clientSocket none } := by
  have hmemt : t ∈ s.handlers := List.mem_of_getElem? ht
  have hidx := h.index_lt t hmemt
  have hown := h.closing t hmemt hpc
  -- No other client's descriptor is the one that is closed.
  have hother : ∀ d n, n < s.gCount → n ≠ t.clientIndex → s.fds d = s.registered[n]? →
      Function.update s.fds t.clientSocket none d = s.registered[n]? := by
    intro d n hn hne hd
    rw [Function.update_of_ne ?_, hd]
    rintro rfl
    exact hne (h.client_inj hn (hd.symm.trans hown))
  have hcl : Cleared s.handlers t.clientIndex :=
    ⟨t, hmemt, rfl, by rw [hpc]; rfl⟩
  have hcleared : ∀ n, Cleared (s.setPc i t .finished).handlers n ↔ Cleared s.handlers n := by
    intro n
    refine (cleared_setPc_iff h.indices ht .finished n).trans ?_
    by_cases hn : n = t.clientIndex
    · rw [if_pos hn, hn]
      exact iff_of_true rfl hcl
    · rw [if_neg hn]
  refine { h with indices := ?_, index_lt := ?_, zero := ?_, entry := ?_, socket := ?_,
                  closing := ?_, main := ?_ }
  · show ((s.handlers.set i _).map (fun t : Handler => t.clientIndex)).Nodup
    rw [map_index_setPc ht]
    exact h.indices
  · intro u hu
    rcases mem_setPc h.indices ht hu with rfl | ⟨hu, -⟩
    · exact hidx
    · exact h.index_lt u hu
  · intro n hn hc
    exact h.zero n hn ((hcleared n).mp hc)
  · intro n hn hc
    have hc' := mt (hcleared n).mpr hc
    have hne : n ≠ t.clientIndex := by
      rintro rfl
      exact hc' hcl
    exact ⟨(h.entry n hn hc').1, hother _ n hn hne (h.entry n hn hc').2⟩
  · intro u hu hc
    rcases mem_setPc h.indices ht hu with rfl | ⟨hu, -⟩
    · cases hc
    · exact h.socket u hu hc
  · intro u hu hc
    rcases mem_setPc h.indices ht hu with rfl | ⟨hu, hne⟩
    · cases hc
    · exact hother _ _ (h.index_lt u hu) hne (h.closing u hu hc)
  · refine h.main.of_eq rfl rfl rfl rfl ?_ (fun _ _ _ => rfl) (index_setPc h.indices ht _)
    intro d c hd hnew
    show Function.update s.fds t.clientSocket none d = some c
    rw [Function.update_of_ne ?_, hd]
    rintro rfl
    obtain ⟨b, hb⟩ := h.client hidx
    rw [hown, hb, Option.some.injEq] at hd
    exact hnew (hd ▸ List.mem_of_getElem? hb)

/-- The log does not matter. -/
theorem of_sent (h : Inv s) (sent : List (Option Nat × Bytes)) : Inv { s with sent := sent } :=
  { h with }

theorem handlerStep (h : Inv s) {i : Nat} {t : Handler} (ht : s.handlers[i]? = some t)
    {a : RoomAction} {s' : RoomState} (hs : s.handlerStep i t a = some s') : Inv s' := by
  cases a with
  | recv j data =>
    simp only [RoomState.handlerStep, Option.ite_none_right_eq_some, Option.some.injEq] at hs
    obtain ⟨⟨hpc, -⟩, rfl⟩ := hs
    exact h.setPc ht (by rw [hpc]; rfl) HandlerPc.noConfusion
  | recvEnds j =>
    simp only [RoomState.handlerStep, Option.ite_none_right_eq_some, Option.some.injEq] at hs
    obtain ⟨hpc, rfl⟩ := hs
    exact h.setPc ht (by rw [hpc]; rfl) HandlerPc.noConfusion
  | broadcast j =>
    simp only [RoomState.handlerStep] at hs
    cases hpc : t.pc with
    | received data =>
      simp only [hpc, Option.some.injEq] at hs
      subst hs
      exact (h.setPc ht (by rw [hpc]; rfl) HandlerPc.noConfusion).of_sent _
    | receiving | ended | cleared | finished =>
      simp only [hpc] at hs
      cases hs
  | clear j =>
    simp only [RoomState.handlerStep, Option.ite_none_right_eq_some, Option.some.injEq] at hs
    obtain ⟨hpc, rfl⟩ := hs
    exact h.clear ht hpc
  | close j =>
    simp only [RoomState.handlerStep, Option.ite_none_right_eq_some, Option.some.injEq] at hs
    obtain ⟨hpc, rfl⟩ := hs
    exact h.close ht hpc
  | accept _ | acceptFails | register | spawn | spawnFails => cases hs

theorem mainStep (h : Inv s) {a : RoomAction} {s' : RoomState} (hs : s.mainStep a = some s') :
    Inv s' := by
  cases a with
  | accept fd =>
    simp only [RoomState.mainStep, Option.ite_none_right_eq_some, Option.some.injEq] at hs
    obtain ⟨⟨-, hpos, hfree⟩, rfl⟩ := hs
    exact h.accept hpos hfree
  | acceptFails =>
    simp only [RoomState.mainStep, Option.ite_none_right_eq_some, Option.some.injEq] at hs
    exact hs.2 ▸ h
  | register =>
    simp only [RoomState.mainStep] at hs
    split at hs
    · rename_i hmain
      exact Option.some.inj hs ▸ h.register hmain
    · cases hs
  | spawn =>
    simp only [RoomState.mainStep] at hs
    split at hs
    · rename_i hmain
      exact Option.some.inj hs ▸ h.spawn hmain
    · cases hs
  | spawnFails =>
    simp only [RoomState.mainStep] at hs
    split at hs
    · exact Option.some.inj hs ▸ { h with main := trivial }
    · cases hs
  | recv _ _ | recvEnds _ | broadcast _ | clear _ | close _ => cases hs

theorem step (h : Inv s) {a : RoomAction} {s' : RoomState} (hs : roomStep s a = some s') :
    Inv s' := by
  rw [roomStep] at hs
  split at hs
  · obtain ⟨t, ht, hs⟩ := Option.bind_eq_some_iff.mp hs
    exact h.handlerStep ht hs
  · exact h.mainStep hs

end Inv

theorem reachable_inv {s : RoomState} (h : room.Reachable s) : Inv s := by
  apply System.Reachable.invariant (I := Inv) _ _ h
  · rintro s rfl
    exact inv_start
  · intro s a s' hi hs
    exact hi.step hs

/-! ## Registry and delivery -/

/-- The client registered at an index, as long as its handler has not cleared
the entry. -/
def Live (s : RoomState) (n : Nat) : Prop := n < s.gCount ∧ ¬ Cleared s.handlers n

structure Registry (s : RoomState) : Prop where
  distinct : ∀ n m, n < s.gCount → m < s.gCount → s.gSockets n ≠ 0 →
    s.gSockets n = s.gSockets m → n = m
  isOpen : ∀ n, n < s.gCount → s.gSockets n ≠ 0 →
    Live s n ∧ ∃ c, s.registered[n]? = some c ∧ s.fds (s.gSockets n) = some c

/-- The broadcast of `data` by handler `t` reaches every other registered client
once, and nobody else: not its own client, and no closed or reused
descriptor. -/
structure Delivered (s : RoomState) (t : Handler) (data : Bytes) : Prop where
  once : ∀ n c, Live s n → n ≠ t.clientIndex → s.registered[n]? = some c →
    (s.recipients t data).count (some c, data) = 1
  only : ∀ m ∈ s.recipients t data, ∃ n c, Live s n ∧ n ≠ t.clientIndex ∧
    s.registered[n]? = some c ∧ m = (some c, data)
  sender : ∀ c, s.registered[t.clientIndex]? = some c → (some c, data) ∉ s.recipients t data

section

variable {s : RoomState}

theorem Inv.registry (h : Inv s) : Registry s where
  distinct _ _ hn hm hne heq := h.entry_inj hn hm hne heq
  isOpen n hn hne := by
    have hlive : ¬ Cleared s.handlers n := fun hc => hne (h.zero n hn hc)
    obtain ⟨c, hc⟩ := h.client hn
    exact ⟨⟨hn, hlive⟩, c, hc, (h.entry n hn hlive).2.trans hc⟩

/-- The test in the loop picks the other clients that are still registered. -/
theorem Inv.target_iff (h : Inv s) {t : Handler} (ht : t ∈ s.handlers)
    (hpc : t.pc.isCleared = false) {n : Nat} (hn : n < s.gCount) :
    (s.gSockets n ≠ 0 ∧ s.gSockets n ≠ t.clientSocket) ↔ Live s n ∧ n ≠ t.clientIndex := by
  have hidx := h.index_lt t ht
  have hsocket := h.socket t ht hpc
  constructor
  · rintro ⟨hne, hself⟩
    refine ⟨⟨hn, fun hc => hne (h.zero n hn hc)⟩, ?_⟩
    rintro rfl
    exact hself hsocket
  · rintro ⟨⟨_, hlive⟩, hother⟩
    have hpos := (h.entry n hn hlive).1
    refine ⟨by omega, fun he => hother ?_⟩
    exact h.entry_inj hn hidx (by omega) (he.trans hsocket.symm)

/-- The recipients of a broadcast, by index. -/
theorem Inv.recipients_eq (h : Inv s) {t : Handler} (ht : t ∈ s.handlers)
    (hpc : t.pc.isCleared = false) (data : Bytes) :
    ∃ ns : List Nat, ns.Nodup ∧ (∀ n, n ∈ ns ↔ Live s n ∧ n ≠ t.clientIndex) ∧
      s.recipients t data = ns.map fun n => (s.registered[n]?, data) := by
  let ns := (List.range s.gCount).filter fun n =>
    decide (s.gSockets n ≠ 0 ∧ s.gSockets n ≠ t.clientSocket)
  have hmem : ∀ n, n ∈ ns ↔ Live s n ∧ n ≠ t.clientIndex := by
    intro n
    rw [List.mem_filter, List.mem_range, decide_eq_true_eq]
    constructor
    · rintro ⟨hn, hc⟩
      exact (h.target_iff ht hpc hn).mp hc
    · intro hc
      exact ⟨hc.1.1, (h.target_iff ht hpc hc.1.1).mpr hc⟩
  refine ⟨ns, List.nodup_range.filter _, hmem, ?_⟩
  rw [RoomState.recipients, RoomState.sends, List.filter_map, List.map_map, List.map_map]
  apply List.map_congr_left
  intro n hn
  obtain ⟨hlive, -⟩ := (hmem n).mp hn
  show (s.fds (s.gSockets n), data) = (s.registered[n]?, data)
  rw [(h.entry n hlive.1 hlive.2).2]

theorem Inv.delivered (h : Inv s) {t : Handler} (ht : t ∈ s.handlers)
    (hpc : t.pc.isCleared = false) (data : Bytes) : Delivered s t data := by
  obtain ⟨ns, hnd, hmem, heq⟩ := h.recipients_eq ht hpc data
  have hinj : ∀ n ∈ ns, ∀ m ∈ ns, (s.registered[n]?, data) = (s.registered[m]?, data) → n = m := by
    intro n hn m _ he
    exact h.client_inj ((hmem n).mp hn).1.1 (congrArg Prod.fst he)
  refine { once := ?_, only := ?_, sender := ?_ }
  · intro n c hlive hne hc
    rw [heq]
    apply List.count_eq_one_of_mem (hnd.map_on hinj)
    exact List.mem_map.mpr ⟨n, (hmem n).mpr ⟨hlive, hne⟩, by rw [hc]⟩
  · intro m hm
    rw [heq] at hm
    obtain ⟨n, hn, rfl⟩ := List.mem_map.mp hm
    obtain ⟨hlive, hne⟩ := (hmem n).mp hn
    obtain ⟨c, hc⟩ := h.client hlive.1
    exact ⟨n, c, hlive, hne, hc, by rw [hc]⟩
  · intro c hc hm
    rw [heq] at hm
    obtain ⟨n, hn, he⟩ := List.mem_map.mp hm
    obtain ⟨hlive, hne⟩ := (hmem n).mp hn
    exact hne (h.client_inj hlive.1 ((congrArg Prod.fst he).trans hc.symm))

end

/-- In every reachable state the entries in use are the open descriptors of the
registered clients, and a handler that has received a message sends it to all
the others. -/
theorem thread_room_delivery {s : RoomState} (h : room.Reachable s) :
    Registry s ∧ ∀ i t data, s.handlers[i]? = some t → t.pc = .received data →
      Delivered s t data ∧ ∃ s', roomStep s (.broadcast i) = some s' ∧
        s'.sent = s.sent ++ s.recipients t data := by
  have hinv := reachable_inv h
  refine ⟨hinv.registry, fun i t data ht hpc => ⟨?_, ?_⟩⟩
  · exact hinv.delivered (List.mem_of_getElem? ht) (by rw [hpc]; rfl) data
  · refine ⟨{ s.setPc i t .receiving with sent := s.sent ++ s.recipients t data }, ?_, rfl⟩
    show (s.handlers[i]?).bind (fun t => s.handlerStep i t (.broadcast i)) = _
    rw [ht, Option.bind_some, RoomState.handlerStep, hpc]

/-- The first client leaves, its descriptor goes to the third one, and the second
one sends a message. -/
theorem thread_room_delivery_reused :
    ∃ s, room.Reachable s ∧ (List.range s.gCount).map s.gSockets = [0, 5, 4] ∧ Registry s ∧
      ∃ t, s.handlers[1]? = some t ∧ Delivered s t [7] := by
  obtain ⟨s, hs, hret⟩ := System.exists_reachable (M := room)
    (f := fun s => ((List.range s.gCount).map s.gSockets, s.handlers[1]?))
    (c := ([0, 5, 4], some ⟨5, 1, .received [7]⟩)) (s := .start)
    (l := [.accept 4, .register, .spawn, .accept 5, .register, .spawn, .recvEnds 0, .clear 0,
      .close 0, .accept 4, .register, .spawn, .recv 1 [7]]) rfl (by decide)
  rw [Prod.mk.injEq] at hret
  obtain ⟨hreg, hall⟩ := thread_room_delivery hs
  exact ⟨s, hs, hret.1, hreg, _, hret.2, (hall 1 _ [7] hret.2 rfl).1⟩

end ThreadRoom
end Chat
end NetLab
