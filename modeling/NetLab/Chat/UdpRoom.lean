import NetLab.Library.Inet
import NetLab.Library.Registry

/-!
# The chat room over UDP

One socket serves all clients.  Whoever sends a datagram is registered, and the
datagram is passed on to everyone registered but its sender.
-/

namespace NetLab
namespace Chat
namespace UdpRoom

open CString Inet Registry

/-- `struct sockaddr_in`, with the numbers that `ntohs` and `ntohl` give. -/
structure SockaddrIn where
  sinFamily : UInt16
  sinPort : UInt16
  sAddr : UInt32
  sinZero : UInt64
  deriving DecidableEq, Repr

structure ClientInfo where
  addr : SockaddrIn
  deriving DecidableEq, Repr

/-- `ClientInfo::operator==`. -/
def ClientInfo.eq (a b : ClientInfo) : Bool :=
  a.addr.sAddr = b.addr.sAddr ∧ a.addr.sinPort = b.addr.sinPort

/-- What one call of `recvfrom` finds: the sender's address and the datagram. -/
structure Datagram where
  clientAddr : SockaddrIn
  data : Bytes
  deriving DecidableEq, Repr

/-- `sizeof(buffer)`. -/
def bufferSize : Nat := 4096

/-- The text that goes to the others: the buffer is read up to its first NUL. -/
def message (d : Datagram) : Bytes :=
  ascii "[" ++ inetNtop d.clientAddr.sAddr ++ ascii ":" ++ decimal d.clientAddr.sinPort.toNat
    ++ ascii "] " ++ cstr (d.data.take (bufferSize - 1))

/-- `std::find` and `push_back`. -/
def addClient (clients : List ClientInfo) (currentClient : ClientInfo) : List ClientInfo :=
  if clients.any fun client => client.eq currentClient then clients
  else clients ++ [currentClient]

/-- The forward loop. -/
def forwards (clients : List ClientInfo) (currentClient : ClientInfo) (text : Bytes) :
    List (SockaddrIn × Bytes) :=
  (clients.filter fun client => !client.eq currentClient).map fun client => (client.addr, text)

/-- One turn of the loop, with what it sends.  A failed `recvfrom` is skipped. -/
def turn (clients : List ClientInfo) : Option Datagram →
    List ClientInfo × List (SockaddrIn × Bytes)
  | none => (clients, [])
  | some d =>
    let currentClient : ClientInfo := { addr := d.clientAddr }
    let clients := addClient clients currentClient
    (clients, forwards clients currentClient (message d))

/-- `clients` after the turns so far. -/
def clientsAfter (turns : List (Option Datagram)) : List ClientInfo :=
  turns.foldl (fun clients received => (turn clients received).1) []

/-! ## Sources -/

/-- An address and a port. -/
structure Source where
  sAddr : UInt32
  sinPort : UInt16
  deriving DecidableEq, Repr

def SockaddrIn.source (addr : SockaddrIn) : Source :=
  { sAddr := addr.sAddr, sinPort := addr.sinPort }

/-- The sources of the datagrams received so far. -/
def sources (turns : List (Option Datagram)) : List Source :=
  turns.filterMap fun received => received.map fun d => d.clientAddr.source

def ClientInfo.key (client : ClientInfo) : Source := client.addr.source

/-- The equality of the code is equality of sources. -/
theorem eq_iff_key {a b : ClientInfo} : a.eq b = true ↔ a.key = b.key := by
  rw [ClientInfo.eq, decide_eq_true_eq, ClientInfo.key, ClientInfo.key, SockaddrIn.source,
    SockaddrIn.source, Source.mk.injEq]

theorem addClient_eq (clients : List ClientInfo) (client : ClientInfo) :
    addClient clients client = register ClientInfo.key clients client := by
  have hiff : (clients.any fun c => c.eq client) = true ↔
      client.key ∈ clients.map ClientInfo.key := by
    rw [List.any_eq_true, List.mem_map]
    exact exists_congr fun c => and_congr_right fun _ => eq_iff_key
  rw [addClient, register]
  by_cases h : client.key ∈ clients.map ClientInfo.key
  · rw [if_pos (hiff.mpr h), if_pos h]
  · rw [if_neg (mt hiff.mp h), if_neg h]

theorem forwards_eq (clients : List ClientInfo) (client : ClientInfo) (text : Bytes) :
    forwards clients client text =
      (others ClientInfo.key client.key clients).map fun c => (c.addr, text) := by
  rw [forwards, others]
  refine congrArg (List.map _) (List.filter_congr fun c _ => ?_)
  by_cases h : c.key = client.key
  · simp [h, eq_iff_key.mpr h]
  · simp [h, Bool.eq_false_iff.mpr (mt eq_iff_key.mp h)]

theorem sources_concat (turns : List (Option Datagram)) (d : Datagram) :
    sources (turns ++ [some d]) = sources turns ++ [d.clientAddr.source] := by
  rw [sources, List.filterMap_append]
  rfl

theorem clientsAfter_concat (turns : List (Option Datagram)) (received : Option Datagram) :
    clientsAfter (turns ++ [received]) = (turn (clientsAfter turns) received).1 := by
  rw [clientsAfter, List.foldl_concat]
  rfl

/-! ## The room -/

/-- The vector holds the distinct sources seen so far, in order of first
appearance. -/
theorem map_key_clientsAfter (turns : List (Option Datagram)) :
    (clientsAfter turns).map ClientInfo.key = (sources turns).eraseDups := by
  induction turns using List.reverseRecOn with
  | nil => rfl
  | append_singleton turns received ih =>
    rw [clientsAfter_concat]
    cases received with
    | none =>
      rw [sources, List.filterMap_append]
      exact ih.trans (congrArg _ (List.append_nil _).symm)
    | some d =>
      rw [sources_concat]
      show (addClient (clientsAfter turns) { addr := d.clientAddr }).map ClientInfo.key = _
      rw [addClient_eq]
      exact map_register ih _

theorem map_forwards (clients : List ClientInfo) (client : ClientInfo) (text : Bytes) :
    (forwards clients client text).map (fun send => send.1.source) =
      (others ClientInfo.key client.key clients).map ClientInfo.key := by
  rw [forwards_eq, List.map_map]
  rfl

theorem map_key_turn (turns : List (Option Datagram)) (d : Datagram) :
    (turn (clientsAfter turns) (some d)).1.map ClientInfo.key =
      (sources turns ++ [d.clientAddr.source]).eraseDups := by
  show (addClient (clientsAfter turns) { addr := d.clientAddr }).map ClientInfo.key = _
  rw [addClient_eq]
  exact map_register (map_key_clientsAfter turns) _

theorem nodup_map_key_turn (turns : List (Option Datagram)) (d : Datagram) :
    ((turn (clientsAfter turns) (some d)).1.map ClientInfo.key).Nodup := by
  rw [map_key_turn]
  exact nodup_eraseDups _

theorem mem_map_key_turn (turns : List (Option Datagram)) (d : Datagram) (p : Source) :
    p ∈ (turn (clientsAfter turns) (some d)).1.map ClientInfo.key ↔
      p ∈ sources turns ∨ p = d.clientAddr.source := by
  rw [map_key_turn, List.mem_eraseDups, List.mem_append, List.mem_singleton]

/-- Everyone seen before and only they get the datagram, except for its sender. -/
theorem count_recipients (turns : List (Option Datagram)) (d : Datagram) (p : Source) :
    ((turn (clientsAfter turns) (some d)).2.map fun send => send.1.source).count p =
      if p ∈ sources turns ∧ p ≠ d.clientAddr.source then 1 else 0 := by
  show ((forwards (turn (clientsAfter turns) (some d)).1 { addr := d.clientAddr }
    (message d)).map fun send => send.1.source).count p = _
  rw [map_forwards, count_others (nodup_map_key_turn turns d)]
  refine if_congr ?_ rfl rfl
  rw [mem_map_key_turn]
  constructor
  · intro h
    exact ⟨h.1.resolve_right h.2, h.2⟩
  · intro h
    exact ⟨.inl h.1, h.2⟩

theorem length_sent (turns : List (Option Datagram)) (d : Datagram) :
    (turn (clientsAfter turns) (some d)).2.length =
      (turn (clientsAfter turns) (some d)).1.length - 1 := by
  show (forwards (turn (clientsAfter turns) (some d)).1 { addr := d.clientAddr }
    (message d)).length = _
  rw [forwards_eq, List.length_map]
  have hself := (mem_map_key_turn turns d d.clientAddr.source).mpr (.inr rfl)
  exact Nat.eq_sub_of_add_eq (length_others (nodup_map_key_turn turns d) hself)

/-- A datagram reaches everyone seen so far but its sender, each of them once, and
the registry is the list of those seen, in order of first appearance. -/
theorem registry_and_delivery (turns : List (Option Datagram)) (d : Datagram) :
    (clientsAfter turns).map ClientInfo.key = (sources turns).eraseDups ∧
    (turn (clientsAfter turns) (some d)).1.map ClientInfo.key =
      (sources turns ++ [d.clientAddr.source]).eraseDups ∧
    (∀ p, ((turn (clientsAfter turns) (some d)).2.map fun send => send.1.source).count p =
      if p ∈ sources turns ∧ p ≠ d.clientAddr.source then 1 else 0) ∧
    (∀ send ∈ (turn (clientsAfter turns) (some d)).2, send.2 = message d) ∧
    (turn (clientsAfter turns) (some d)).2.length =
      (turn (clientsAfter turns) (some d)).1.length - 1 := by
  refine ⟨map_key_clientsAfter turns, map_key_turn turns d, count_recipients turns d,
    fun send hsend => ?_, length_sent turns d⟩
  obtain ⟨c, -, rfl⟩ := List.mem_map.mp hsend
  rfl

end UdpRoom
end Chat
end NetLab
