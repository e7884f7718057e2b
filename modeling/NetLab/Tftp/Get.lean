import NetLab.Tftp.Packet

/-!
# `tftp_get`

One iteration of the receive loop is `getStep`: it consumes what `recvfrom`
reported and returns the new variables with the datagrams sent and the bytes
written.  A call that has returned no longer moves.
-/

namespace NetLab
namespace Tftp

/-- The variables of `tftp_get` while it is in its loop, and the data of each
`fwrite` to the local file so far. -/
structure GetState where
  buffer : Bytes
  fromAddr : SockAddr
  retries : Nat
  expectedBlock : UInt16
  writes : List Bytes
  status : Status
  deriving DecidableEq, Repr

/-- The content of the local file. -/
def GetState.file (s : GetState) : Bytes := s.writes.flatten

/-- `recvfrom` timed out.  The acknowledgement goes to `from_addr`, which no
datagram has set when nothing was received yet. -/
def getTimeout (s : GetState) : GetState × List Effect :=
  if s.retries < maxRetries then
    ({ s with retries := s.retries + 1 },
      sendto s.fromAddr (ackPacket (s.expectedBlock - 1)) 4)
  else ({ s with retries := s.retries + 1, status := .returned (-1) }, [])

/-- The DATA branch, after `n` bytes were received.  A negative `data_len`
becomes a huge size in the call of `fwrite`. -/
def getData (s : GetState) (n : Nat) : GetState × List Effect :=
  let blockNum := ntohs s.buffer 2
  let dataLen : Int := n - 4
  if blockNum = s.expectedBlock then
    if dataLen < 0 then ({ s with status := .undefined }, [])
    else
      let payload := (s.buffer.drop 4).take dataLen.toNat
      let ack := sendto s.fromAddr (ackPacket blockNum) 4
      let s := { s with writes := s.writes ++ [payload], expectedBlock := s.expectedBlock + 1 }
      if dataLen < blockSize then
        ({ s with status := .returned 0 }, .fwrite payload :: ack ++ [.transferComplete])
      else (s, .fwrite payload :: ack)
  else if blockNum < s.expectedBlock then (s, sendto s.fromAddr (ackPacket blockNum) 4)
  else (s, [])

/-- The loop body after a successful `recvfrom` of `n` bytes. -/
def getDatagram (s : GetState) (n : Nat) : GetState × List Effect :=
  let recvOpcode := ntohs s.buffer 0
  if recvOpcode = opError then ({ s with status := .returned (-1) }, [])
  else if recvOpcode = opData then getData s n
  else (s, [])

/-- The variables after a datagram was received and before it is looked at. -/
def GetState.receive (s : GetState) (src : SockAddr) (data : Bytes) : GetState :=
  { s with buffer := store data s.buffer, fromAddr := src, retries := 0 }

/-- One iteration of the loop.  A datagram longer than the buffer makes
`recvfrom` fail with `WSAEMSGSIZE`. -/
def getStep (s : GetState) (r : RecvResult) : GetState × List Effect :=
  if s.status = .running then
    match r with
    | .timedOut => getTimeout s
    | .failed => ({ s with status := .returned (-1) }, [])
    | .datagram src data =>
      if bufferSize < data.length then ({ s with status := .returned (-1) }, [])
      else getDatagram (s.receive src data) data.length
  else (s, [])

/-- The loop over a list of results of `recvfrom`. -/
def getRun (s : GetState) : List RecvResult → GetState × List Effect
  | [] => (s, [])
  | r :: rs => ((getRun (getStep s r).1 rs).1, (getStep s r).2 ++ (getRun (getStep s r).1 rs).2)

/-- The variables when the loop is entered.  `uninit` is what the automatic
variables `buffer` and `from_addr` happen to hold before. -/
def getStart (q : Request) (uninit : Bytes) (uninitAddr : SockAddr) : GetState :=
  { buffer := store (requestPacket opRrq q.remoteFile) uninit
    fromAddr := uninitAddr
    retries := 0
    expectedBlock := 1
    writes := []
    status := .running }

/-! ## What one step does -/

theorem sendto_ackPacket (dst : SockAddr) (v : UInt16) :
    sendto dst (ackPacket v) 4 = [.sendto dst (ackPacket v)] := rfl

theorem getStep_of_not_running {s : GetState} (h : s.status ≠ .running) (r : RecvResult) :
    getStep s r = (s, []) := if_neg h

theorem getStep_timedOut {s : GetState} (h : s.status = .running) :
    getStep s .timedOut = getTimeout s := if_pos h

theorem getStep_failed {s : GetState} (h : s.status = .running) :
    getStep s .failed = ({ s with status := .returned (-1) }, []) := if_pos h

theorem getStep_datagram {s : GetState} (h : s.status = .running) (src : SockAddr) {data : Bytes}
    (hlen : data.length ≤ bufferSize) :
    getStep s (.datagram src data) = getDatagram (s.receive src data) data.length := by
  rw [getStep, if_pos h]
  exact if_neg (Nat.not_lt.mpr hlen)

/-- A DATA datagram goes to the DATA branch, which finds its number and its
payload in the buffer. -/
theorem getStep_dataPacket {s : GetState} (h : s.status = .running) (src : SockAddr) (v : UInt16)
    {payload : Bytes} (hlen : payload.length ≤ blockSize) :
    getStep s (.datagram src (dataPacket v payload)) =
      let s' := s.receive src (dataPacket v payload)
      if v = s.expectedBlock then
        ({ s' with
            writes := s.writes ++ [payload]
            expectedBlock := s.expectedBlock + 1
            status := if payload.length < blockSize then .returned 0 else .running },
          [.fwrite payload, .sendto src (ackPacket v)] ++
            if payload.length < blockSize then [.transferComplete] else [])
      else if v < s.expectedBlock then (s', [.sendto src (ackPacket v)])
      else (s', []) := by
  obtain ⟨hop, hnum, hpay⟩ := ntohs_store_dataPacket v payload s.buffer
  have hn : (dataPacket v payload).length = 4 + payload.length := length_dataPacket v payload
  have hsize : (dataPacket v payload).length ≤ bufferSize := by
    have : bufferSize = 4 + blockSize := rfl
    omega
  have hdata : ((dataPacket v payload).length : Int) - 4 = payload.length := by omega
  rw [getStep_datagram h src hsize, getDatagram]
  simp only [GetState.receive, hop]
  rw [if_neg (by decide), if_pos trivial, getData]
  simp only [hnum, hdata, hpay, Int.toNat_natCast, Int.ofNat_lt, sendto_ackPacket]
  by_cases hv : v = s.expectedBlock
  · rw [if_pos hv, if_pos hv, if_neg (by omega)]
    by_cases hshort : payload.length < blockSize
    · simp only [if_pos hshort]
    · simp only [if_neg hshort, h]
      rfl
  · rw [if_neg hv, if_neg hv]

end Tftp
end NetLab
