import NetLab.Sharing.Service
import NetLab.Sharing.Transfer

/-!
# The SEND command

The line that is typed goes to all clients as it is, and both sides take it apart
by stream extraction.  The client it names opens a port and says so, the sender
connects to it, and the file goes over the connection.  The answer always gives
the loopback address, so the sender connects to its own host.
-/

namespace NetLab
namespace Sharing
namespace Send

open CString IStream NetLab.Sharing.Registry

/-- `iss >> cmd >> filename >> target_name`. -/
def sendWords (msg : Bytes) : Bytes × Bytes × Bytes :=
  let cmd := getString (some msg)
  let filename := getString cmd.2
  (cmd.1, filename.1, (getString filename.2).1)

/-- The file that the sender opens, if the line is a SEND command. -/
def filenameOf (input : Bytes) : Option Bytes :=
  if input.take 5 = ascii "SEND " then some (sendWords input).2.1 else none

/-- The file name that the child of `myName` reads in a datagram, if it is the
target. -/
def accepted (myName datagram : Bytes) : Option Bytes :=
  let words := sendWords (received datagram)
  if words.1 = ascii "SEND" ∧ words.2.2 = myName then some words.2.1 else none

/-- `response`: where the child listens. -/
def response (port : UInt16) : Bytes := ascii "127.0.0.1" ++ ascii " " ++ decimal port.toNat

/-- `resp_iss >> target_ip >> target_port`. -/
def target (datagram : Bytes) : Bytes × Option Int :=
  let ip := getString (some (received datagram))
  (ip.1, (getInt ip.2).1)

/-- `htons(target_port)`. -/
def portOf (n : Int) : UInt16 := UInt16.ofNat (n % 2 ^ 16).toNat

/-- The host that an address names for the programs on `here`.  Loopback is the
host itself, and no answer holds another address. -/
def hostOf (here : Nat) (ip : Bytes) : Option Nat :=
  if ip = ascii "127.0.0.1" then some here else none

/-- Where a sender on `here` connects when it has read an answer. -/
def connectsTo (here : Nat) (datagram : Bytes) : Option (Nat × UInt16) :=
  let asked := target datagram
  (hostOf here asked.1).bind fun host => asked.2.map fun port => (host, portOf port)

/-- A client: the host it runs on, its name, and the port that the system gives
its child to take a file on. -/
structure Client where
  host : Nat
  name : Bytes
  name_ne : name ≠ []
  port : UInt16
  deriving DecidableEq

/-- What the child of `c` answers to a datagram. -/
def answer (c : Client) (datagram : Bytes) : Option Bytes :=
  (accepted c.name datagram).map fun _ => response c.port

/-- What the sender writes to the connection: nothing if it cannot open the file. -/
def stream (files : Bytes → Option Bytes) (accepts : Nat → Nat) (filename : Bytes) : Bytes :=
  match files (cstr filename) with
  | some file => (sendFile accepts file).1
  | none => []

/-- The file that the child of `c` writes for a line typed at a client on `here`,
when the sender reads the answer of `t` and the file can be created.  A child that
has answered is connected to if the sender connects to its host and port. -/
def exchange (files : Bytes → Option Bytes) (accepts cuts : Nat → Nat) (uninit : Bytes)
    (here : Nat) (t c : Client) (input : Bytes) : Option (Bytes × Bytes) :=
  match filenameOf input, answer t input, accepted c.name input with
  | some opened, some datagram, some filename =>
    if connectsTo here datagram = some (c.host, c.port) then
      some (ascii "received_" ++ filename,
        (recvFile cuts uninit (stream files accepts opened)).1)
    else none
  | _, _, _ => none

/-! ## The answer names the port -/

end Send
end Sharing
end NetLab
