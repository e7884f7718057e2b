import NetLab.Library.Bytes

/-!
# Datagrams of the TFTP program

Constants, packet layouts and the socket calls that both transfer functions
share.  A `uint16_t` is a `UInt16`, a buffer is the list of its 516 bytes, and
`ntohs` reads the two bytes at an offset.
-/

namespace NetLab
namespace Tftp

def tftpPort : UInt16 := 69
def blockSize : Nat := 512
def bufferSize : Nat := 516
def maxRetries : Nat := 5

def opRrq : UInt16 := 1
def opWrq : UInt16 := 2
def opData : UInt16 := 3
def opAck : UInt16 := 4
def opError : UInt16 := 5

/-- `struct sockaddr_in`, the address and the port. -/
structure SockAddr where
  ip : UInt32
  port : UInt16
  deriving DecidableEq, Repr

/-- What one call of `recvfrom` reports: `SOCKET_ERROR` with `WSAETIMEDOUT`,
`SOCKET_ERROR` with another code, or a datagram with its source. -/
inductive RecvResult
  | timedOut
  | failed
  | datagram (src : SockAddr) (data : Bytes)
  deriving DecidableEq, Repr

/-- What a transfer does besides changing its own variables.  Of the texts it
prints, only the report of success is kept. -/
inductive Effect
  | sendto (dst : SockAddr) (data : Bytes)
  | fwrite (data : Bytes)
  | transferComplete
  deriving DecidableEq, Repr

/-- Where a call of a transfer function stands.  `undefined` marks behaviour
that the language leaves undefined. -/
inductive Status
  | running
  | returned (code : Int)
  | undefined
  deriving DecidableEq, Repr

/-- `htons(v)` stored as two bytes. -/
def htons (v : UInt16) : Bytes := toBytes 2 v.toNat

/-- `ntohs(*(uint16_t*)(buf + off))`. -/
def ntohs (buf : Bytes) (off : Nat) : UInt16 := UInt16.ofNat (fromBytes ((buf.drop off).take 2))

/-- `sendto(sock, buf, len, ...)`.  The call fails when `len` is negative. -/
def sendto (dst : SockAddr) (buf : Bytes) (len : Int) : List Effect :=
  if len < 0 then [] else [.sendto dst (buf.take len.toNat)]

theorem sendto_length (dst : SockAddr) (buf : Bytes) :
    sendto dst buf buf.length = [.sendto dst buf] := by
  rw [sendto, if_neg (by omega), Int.toNat_natCast, List.take_length]

def ackPacket (blockNum : UInt16) : Bytes := htons opAck ++ htons blockNum

def dataPacket (blockNum : UInt16) (payload : Bytes) : Bytes :=
  htons opData ++ htons blockNum ++ payload

/-- The request that opens a transfer: opcode, file name, mode. -/
def requestPacket (opcode : UInt16) (remoteFile : Bytes) : Bytes :=
  htons opcode ++ remoteFile ++ [0] ++ ascii "octet" ++ [0]

/-- The arguments of a transfer that name the server and the remote file.  The
request has to fit the buffer it is copied to without a check. -/
structure Request where
  serverIp : UInt32
  remoteFile : Bytes
  fits : (requestPacket opRrq remoteFile).length ≤ bufferSize

def Request.serverAddr (q : Request) : SockAddr := { ip := q.serverIp, port := tftpPort }

/-! ## Reading back what was written -/

@[simp] theorem length_htons (v : UInt16) : (htons v).length = 2 := length_toBytes 2 _

@[simp] theorem length_dataPacket (v : UInt16) (payload : Bytes) :
    (dataPacket v payload).length = 4 + payload.length := by
  rw [dataPacket, List.length_append, List.length_append, length_htons, length_htons]

theorem length_requestPacket (opcode : UInt16) (remoteFile : Bytes) :
    (requestPacket opcode remoteFile).length = remoteFile.length + 9 := by
  have hmode : (ascii "octet").length = 5 := rfl
  simp only [requestPacket, List.length_append, length_htons, hmode, List.length_singleton]
  omega

theorem ntohs_htons_append (v : UInt16) (rest : Bytes) : ntohs (htons v ++ rest) 0 = v := by
  have hv : v.toNat < 256 ^ 2 := v.toNat_lt
  rw [ntohs, List.drop_zero, List.take_left' (length_htons v), htons, fromBytes_toBytes_of_lt hv,
    UInt16.ofNat_toNat]

theorem ntohs_second (u v : UInt16) (rest : Bytes) :
    ntohs (htons u ++ (htons v ++ rest)) 2 = v := by
  have h := ntohs_htons_append v rest
  rw [ntohs, List.drop_zero] at h
  rw [ntohs, List.drop_left' (length_htons u), h]

/-- The opcode, the block number and the payload of a datagram just stored. -/
theorem ntohs_store_dataPacket (v : UInt16) (payload buf : Bytes) :
    ntohs (store (dataPacket v payload) buf) 0 = opData ∧
      ntohs (store (dataPacket v payload) buf) 2 = v ∧
      ((store (dataPacket v payload) buf).drop 4).take payload.length = payload := by
  have hcut : (dataPacket v payload ++ buf.drop (dataPacket v payload).length) =
      htons opData ++ (htons v ++ (payload ++ buf.drop (dataPacket v payload).length)) := by
    simp only [dataPacket, List.append_assoc]
  rw [store, hcut]
  refine ⟨ntohs_htons_append _ _, ntohs_second _ _ _, ?_⟩
  rw [← List.append_assoc, List.drop_left' (by rw [List.length_append]; rfl), List.take_left' rfl]

theorem ntohs_store_ackPacket (v : UInt16) (buf : Bytes) :
    ntohs (store (ackPacket v) buf) 0 = opAck ∧ ntohs (store (ackPacket v) buf) 2 = v := by
  have hcut : (ackPacket v ++ buf.drop (ackPacket v).length) =
      htons opAck ++ (htons v ++ buf.drop (ackPacket v).length) := by
    simp only [ackPacket, List.append_assoc]
  rw [store, hcut]
  exact ⟨ntohs_htons_append _ _, ntohs_second _ _ _⟩

/-- The same fields of a datagram that is read where it lies. -/
theorem ntohs_dataPacket (v : UInt16) (payload : Bytes) :
    ntohs (dataPacket v payload) 0 = opData ∧ ntohs (dataPacket v payload) 2 = v ∧
      (dataPacket v payload).drop 4 = payload := by
  have h := ntohs_store_dataPacket v payload []
  rw [store, List.drop_nil, List.append_nil] at h
  refine ⟨h.1, h.2.1, ?_⟩
  rw [dataPacket, List.drop_left' (by rw [List.length_append]; rfl)]

theorem ntohs_requestPacket (opcode : UInt16) (remoteFile : Bytes) :
    ntohs (requestPacket opcode remoteFile) 0 = opcode := by
  simp only [requestPacket, List.append_assoc]
  exact ntohs_htons_append _ _

theorem ntohs_store_htons (v : UInt16) (rest buf : Bytes) :
    ntohs (store (htons v ++ rest) buf) 0 = v := by
  rw [store, List.append_assoc]
  exact ntohs_htons_append _ _

theorem ntohs_take (buf : Bytes) {n : Nat} (hn : 2 ≤ n) : ntohs (buf.take n) 0 = ntohs buf 0 := by
  rw [ntohs, ntohs, List.drop_zero, List.drop_zero, List.take_take, Nat.min_eq_left hn]

theorem ackPacket_inj {u v : UInt16} (h : ackPacket u = ackPacket v) : u = v := by
  have hu := (ntohs_store_ackPacket u []).2
  rw [h, (ntohs_store_ackPacket v []).2] at hu
  exact hu.symm

/-- Block numbers of adjacent blocks differ, however often the counter wraps. -/
theorem ofNat_ne_succ (i : Nat) : UInt16.ofNat i ≠ UInt16.ofNat (i + 1) := by
  intro h
  have := congrArg UInt16.toNat h
  simp only [UInt16.toNat_ofNat'] at this
  omega

end Tftp
end NetLab
