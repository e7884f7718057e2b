import NetLab.Tftp.Peer

/-!
# `tftp_put`

`putStep` is one iteration of the loop, and also the second `recvfrom` that
follows a short read: the flag `final` tells the two apart.
-/

namespace NetLab
namespace Tftp

/-- The variables of `tftp_put` while it is in its loop.  `rest` is what
`fread` has not delivered yet. -/
structure PutState where
  buffer : Bytes
  fromAddr : SockAddr
  retries : Nat
  blockNum : UInt16
  rest : Bytes
  final : Bool
  status : Status
  deriving DecidableEq, Repr

/-- The value of `recvfrom` on failure. -/
def socketError : Int := -1

def putRequestLen (q : Request) : Nat := (requestPacket opWrq q.remoteFile).length

/-- `recvfrom` timed out.  `n` holds `SOCKET_ERROR` when the second call of
`sendto` computes its length. -/
def putTimeout (q : Request) (s : PutState) : PutState × List Effect :=
  if s.retries < maxRetries then
    ({ s with retries := s.retries + 1 },
      if s.blockNum = 0 then sendto q.serverAddr s.buffer (putRequestLen q)
      else sendto s.fromAddr s.buffer (4 + (socketError - 4)))
  else ({ s with retries := s.retries + 1, status := .returned (-1) }, [])

/-- The awaited acknowledgement came: read the next block and send it.  After a
short read the loop body goes on to the second `recvfrom`. -/
def putNext (s : PutState) : PutState × List Effect :=
  let blockNum := s.blockNum + 1
  let data := s.rest.take blockSize
  let s := { s with
    blockNum := blockNum
    rest := s.rest.drop blockSize
    final := decide (data.length < blockSize) }
  if 0 < data.length then
    ({ s with buffer := store (dataPacket blockNum data) s.buffer },
      sendto s.fromAddr (dataPacket blockNum data) (4 + data.length))
  else (s, [])

/-- The loop body after a successful `recvfrom`. -/
def putDatagram (s : PutState) : PutState × List Effect :=
  let recvOpcode := ntohs s.buffer 0
  if recvOpcode = opError then ({ s with status := .returned (-1) }, [])
  else if recvOpcode = opAck then
    if ntohs s.buffer 2 = s.blockNum then putNext s else (s, [])
  else (s, [])

/-- The variables after the first `recvfrom` delivered a datagram. -/
def PutState.receive (s : PutState) (src : SockAddr) (data : Bytes) : PutState :=
  { s with buffer := store data s.buffer, fromAddr := src, retries := 0 }

/-- The second `recvfrom`.  Every outcome leaves the loop, and the call returns
zero. -/
def putFinal (s : PutState) : RecvResult → PutState × List Effect
  | .datagram src data =>
    if bufferSize < data.length then ({ s with status := .returned 0 }, [])
    else
      let s := { s with buffer := store data s.buffer, fromAddr := src, status := .returned 0 }
      if 0 < data.length ∧ ntohs s.buffer 0 = opAck ∧ ntohs s.buffer 2 = s.blockNum then
        (s, [.transferComplete])
      else (s, [])
  | _ => ({ s with status := .returned 0 }, [])

/-- One call of `recvfrom` and what follows it up to the next. -/
def putStep (q : Request) (s : PutState) (r : RecvResult) : PutState × List Effect :=
  if s.status = .running then
    if s.final then putFinal s r
    else
      match r with
      | .timedOut => putTimeout q s
      | .failed => ({ s with status := .returned (-1) }, [])
      | .datagram src data =>
        if bufferSize < data.length then ({ s with status := .returned (-1) }, [])
        else putDatagram (s.receive src data)
  else (s, [])

/-- The variables when the loop is entered, with the write request in the
buffer. -/
def putStart (q : Request) (file uninit : Bytes) (uninitAddr : SockAddr) : PutState :=
  { buffer := store (requestPacket opWrq q.remoteFile) uninit
    fromAddr := uninitAddr
    retries := 0
    blockNum := 0
    rest := file
    final := false
    status := .running }

/-! ## What one step does -/

variable {q : Request} {s : PutState}

theorem putStep_of_not_running (h : s.status ≠ .running) (r : RecvResult) :
    putStep q s r = (s, []) := if_neg h

theorem putStep_final (h : s.status = .running) (hf : s.final = true) (r : RecvResult) :
    putStep q s r = putFinal s r := by
  unfold putStep
  rw [if_pos h, if_pos hf]

/-- What is known after the second `recvfrom`: the call has ended with zero, the
block variables are as before, and success is at most reported. -/
structure Finished (s : PutState) (out : PutState × List Effect) : Prop where
  status : out.1.status = .returned 0
  blockNum : out.1.blockNum = s.blockNum
  rest : out.1.rest = s.rest
  final : out.1.final = s.final
  effects : out.2 = [] ∨ out.2 = [.transferComplete]

/-- Every outcome of the second `recvfrom` finishes the call. -/
theorem putFinal_finished (s : PutState) (r : RecvResult) : Finished s (putFinal s r) := by
  unfold putFinal
  split
  · split
    · exact ⟨rfl, rfl, rfl, rfl, .inl rfl⟩
    · dsimp only
      split
      · exact ⟨rfl, rfl, rfl, rfl, .inr rfl⟩
      · exact ⟨rfl, rfl, rfl, rfl, .inl rfl⟩
  · exact ⟨rfl, rfl, rfl, rfl, .inl rfl⟩

theorem putStep_timedOut (h : s.status = .running) (hf : s.final = false) :
    putStep q s .timedOut = putTimeout q s := by
  rw [putStep, if_pos h, hf, if_neg Bool.false_ne_true]

theorem putStep_failed (h : s.status = .running) (hf : s.final = false) :
    putStep q s .failed = ({ s with status := .returned (-1) }, []) := by
  rw [putStep, if_pos h, hf, if_neg Bool.false_ne_true]

theorem putStep_datagram (h : s.status = .running) (hf : s.final = false) (src : SockAddr)
    {data : Bytes} (hlen : data.length ≤ bufferSize) :
    putStep q s (.datagram src data) = putDatagram (s.receive src data) := by
  rw [putStep, if_pos h, hf, if_neg Bool.false_ne_true]
  exact if_neg (Nat.not_lt.mpr hlen)

/-- Before the final `recvfrom` the call goes on or fails. -/
theorem putStep_status (h : s.status = .running) (hf : s.final = false) (r : RecvResult) :
    (putStep q s r).1.status = .running ∨ (putStep q s r).1.status = .returned (-1) := by
  cases r with
  | timedOut =>
    rw [putStep_timedOut h hf, putTimeout]
    by_cases hretry : s.retries < maxRetries
    · rw [if_pos hretry]
      exact .inl h
    · rw [if_neg hretry]
      exact .inr rfl
  | failed =>
    rw [putStep_failed h hf]
    exact .inr rfl
  | datagram src data =>
    by_cases hlen : data.length ≤ bufferSize
    · rw [putStep_datagram h hf src hlen, putDatagram]
      split_ifs
      · exact .inr rfl
      · rw [putNext]
        dsimp only
        split_ifs
        · exact .inl h
        · exact .inl h
      · exact .inl h
      · exact .inl h
    · rw [putStep, if_pos h, hf, if_neg Bool.false_ne_true]
      rw [if_pos (Nat.lt_of_not_le hlen)]
      exact .inr rfl

/-- An ERROR datagram ends the call, and nothing is sent. -/
theorem putStep_error (h : s.status = .running) (hf : s.final = false) (src : SockAddr)
    (rest : Bytes) :
    ∃ s', putStep q s (.datagram src (htons opError ++ rest)) = (s', []) ∧
      s'.status = .returned (-1) ∧ s'.blockNum = s.blockNum ∧ s'.rest = s.rest ∧
      s'.final = s.final := by
  by_cases hlen : (htons opError ++ rest).length ≤ bufferSize
  · rw [putStep_datagram h hf src hlen, putDatagram]
    simp only [PutState.receive, ntohs_store_htons]
    exact ⟨_, rfl, rfl, rfl, rfl, rfl⟩
  · rw [putStep, if_pos h, hf, if_neg Bool.false_ne_true]
    rw [if_pos (Nat.lt_of_not_le hlen)]
    exact ⟨_, rfl, rfl, rfl, rfl, rfl⟩

theorem putStep_ackPacket (h : s.status = .running) (hf : s.final = false) (src : SockAddr)
    (a : UInt16) :
    putStep q s (.datagram src (ackPacket a)) =
      if a = s.blockNum then putNext (s.receive src (ackPacket a))
      else (s.receive src (ackPacket a), []) := by
  obtain ⟨hop, hnum⟩ := ntohs_store_ackPacket a s.buffer
  have hsize : (ackPacket a).length ≤ bufferSize := Nat.le_of_ble_eq_true rfl
  rw [putStep_datagram h hf src hsize, putDatagram]
  simp only [PutState.receive, hop, hnum]
  rw [if_neg (by decide), if_pos trivial]

/-! ## The file as it is sent -/

/-- How many blocks `tftp_put` sends: those that are not empty. -/
def putCount (file : Bytes) : Nat := (file.length + (blockSize - 1)) / blockSize

theorem fileBlock_pos_iff (file : Bytes) (k : Nat) :
    0 < (fileBlock file (k + 1)).length ↔ k < putCount file := by
  have hb : blockSize = 512 := rfl
  rw [fileBlock, Blocks.length_block, putCount, Nat.add_sub_cancel, hb]
  omega

theorem putCount_le_blockCount (file : Bytes) : putCount file ≤ blockCount file := by
  have hb : blockSize = 512 := rfl
  rw [putCount, blockCount, hb]
  omega

/-- An empty block is missing exactly when the length is a multiple of the
block size. -/
theorem putCount_eq_blockCount_iff (file : Bytes) :
    putCount file = blockCount file ↔ file.length % blockSize ≠ 0 := by
  have hb : blockSize = 512 := rfl
  rw [putCount, blockCount, hb]
  omega

theorem blockCount_le_putCount_succ (file : Bytes) : blockCount file ≤ putCount file + 1 := by
  have hb : blockSize = 512 := rfl
  rw [putCount, blockCount, hb]
  omega

/-- The read after `k` blocks delivers block `k + 1`, and nothing is sent when
that block is empty. -/
theorem putNext_eq {file : Bytes} {k : Nat} (hb : s.blockNum = UInt16.ofNat k)
    (hr : s.rest = file.drop (blockSize * k)) :
    putNext s =
      ({ s with
          blockNum := UInt16.ofNat (k + 1)
          rest := file.drop (blockSize * (k + 1))
          final := decide (blockCount file ≤ k + 1)
          buffer := if k < putCount file then store (blockDatagram file (k + 1)) s.buffer
            else s.buffer },
        if k < putCount file then [.sendto s.fromAddr (blockDatagram file (k + 1))] else []) := by
  have hdata : s.rest.take blockSize = fileBlock file (k + 1) := by
    rw [hr, fileBlock, Blocks.block, Nat.add_sub_cancel]
  have hrest : s.rest.drop blockSize = file.drop (blockSize * (k + 1)) := by
    rw [hr, List.drop_drop, Nat.mul_succ]
  have hnum : s.blockNum + 1 = UInt16.ofNat (k + 1) := by
    rw [hb]
    exact (UInt16.ofNat_add k 1).symm
  have hfinal : decide ((fileBlock file (k + 1)).length < blockSize) =
      decide (blockCount file ≤ k + 1) :=
    decide_eq_decide.mpr (length_fileBlock_lt_iff file (Nat.succ_pos k))
  have hlen : (4 : Int) + (fileBlock file (k + 1)).length =
      ((blockDatagram file (k + 1)).length : Nat) := by
    rw [blockDatagram, length_dataPacket]
    omega
  unfold putNext
  simp only [hdata, hrest, hnum, hfinal, hlen, fileBlock_pos_iff]
  by_cases hpos : k < putCount file
  · simp only [if_pos hpos]
    rw [← blockDatagram, sendto_length]
  · simp only [if_neg hpos]

end Tftp
end NetLab
