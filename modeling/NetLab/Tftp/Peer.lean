import NetLab.Library.Blocks
import NetLab.Tftp.Packet

/-!
# The other side of a transfer

RFC 1350 parties that `tftp_get` and `tftp_put` talk to.  They are not part of
the program: they say what a transfer may rely on.
-/

namespace NetLab
namespace Tftp

open Blocks

/-! ## A lock-step sender -/

/-- How many blocks a file is sent in.  The last one is shorter than the
others, and empty when the length is a multiple of the block size. -/
def blockCount (file : Bytes) : Nat := file.length / blockSize + 1

/-- Block `j` of a file, counted from one. -/
def fileBlock (file : Bytes) (j : Nat) : Bytes := block blockSize file (j - 1)

/-- The block being sent, and whether the last block has been acknowledged. -/
structure Sender where
  cur : Nat
  done : Bool
  deriving DecidableEq, Repr

def Sender.start : Sender := { cur := 1, done := false }

/-- The DATA datagram of block `j`. -/
def blockDatagram (file : Bytes) (j : Nat) : Bytes :=
  dataPacket (UInt16.ofNat j) (fileBlock file j)

/-- The sender reads a datagram: an acknowledgement of the current block moves
it on, anything else is ignored. -/
def Sender.takeAck (file : Bytes) (p : Sender) (data : Bytes) : Sender :=
  if p.done = false ∧ data = ackPacket (UInt16.ofNat p.cur) then
    if p.cur < blockCount file then { p with cur := p.cur + 1 } else { p with done := true }
  else p

theorem blockCount_pos (file : Bytes) : 0 < blockCount file := Nat.succ_pos _

theorem length_fileBlock_le (file : Bytes) (j : Nat) : (fileBlock file j).length ≤ blockSize :=
  length_block_le blockSize file (j - 1)

/-- The last block of a transfer is the only short one. -/
theorem length_fileBlock_lt_iff (file : Bytes) {j : Nat} (hj : 0 < j) :
    (fileBlock file j).length < blockSize ↔ blockCount file ≤ j := by
  rw [fileBlock, length_block_lt_iff (by decide), blockCount]
  omega

theorem flatten_blocks_blockCount (file : Bytes) :
    (blocks blockSize file (blockCount file)).flatten = file := by
  apply flatten_blocks_of_le
  have hmod := Nat.div_add_mod file.length blockSize
  have hlt : file.length % blockSize < blockSize := Nat.mod_lt _ (by decide)
  rw [blockCount, Nat.mul_succ]
  omega

theorem blocks_fileBlock (file : Bytes) (m : Nat) :
    blocks blockSize file (m + 1) = blocks blockSize file m ++ [fileBlock file (m + 1)] :=
  blocks_succ blockSize file m

/-- The datagrams among the effects of a step that leave for `addr`. -/
def datagramsTo (addr : SockAddr) (effects : List Effect) : List Bytes :=
  effects.filterMap fun
    | .sendto dst data => if dst = addr then some data else none
    | _ => none

@[simp] theorem datagramsTo_nil (addr : SockAddr) : datagramsTo addr [] = [] := rfl

@[simp] theorem datagramsTo_self (addr : SockAddr) (data : Bytes) :
    datagramsTo addr [.sendto addr data] = [data] := by
  simp [datagramsTo]

/-! ## A receiver -/

inductive Phase
  | idle
  | receiving
  | finished
  deriving DecidableEq, Repr

/-- The receiver of an upload and the blocks it has appended to its file. -/
structure Receiver where
  phase : Phase
  blocks : List Bytes
  deriving DecidableEq, Repr

namespace Receiver

def start : Receiver := { phase := .idle, blocks := [] }

def file (r : Receiver) : Bytes := r.blocks.flatten

/-- The acknowledgement of the last block, or of the request. -/
def lastAck (r : Receiver) : Bytes := ackPacket (UInt16.ofNat r.blocks.length)

/-- A datagram at the listening port.  A request that is repeated before any
data came is answered again. -/
def takeRequest (r : Receiver) (data : Bytes) : Receiver × List Bytes :=
  if ntohs data 0 = opWrq then
    match r.phase with
    | .idle => ({ r with phase := .receiving }, [r.lastAck])
    | .receiving => if r.blocks = [] then (r, [r.lastAck]) else (r, [])
    | .finished => (r, [])
  else (r, [])

/-- A datagram at the port of the transfer.  The next block is appended, a
repeated last block is acknowledged again. -/
def takeData (r : Receiver) (data : Bytes) : Receiver × List Bytes :=
  if r.phase ≠ .idle ∧ ntohs data 0 = opData then
    let payload := data.drop 4
    if r.phase = .receiving ∧ ntohs data 2 = UInt16.ofNat (r.blocks.length + 1) then
      ({ phase := if payload.length < blockSize then .finished else .receiving
         blocks := r.blocks ++ [payload] },
        [ackPacket (UInt16.ofNat (r.blocks.length + 1))])
    else if ntohs data 2 = UInt16.ofNat r.blocks.length then (r, [r.lastAck])
    else (r, [])
  else (r, [])

theorem takeRequest_of_finished {r : Receiver} (h : r.phase = .finished) (data : Bytes) :
    r.takeRequest data = (r, []) := by
  rw [takeRequest, h]
  exact ite_self _

theorem takeData_of_finished {r : Receiver} (h : r.phase = .finished) (data : Bytes) :
    (r.takeData data).1 = r := by
  have hphase : r.phase ≠ .receiving := by
    rw [h]
    decide
  rw [takeData]
  by_cases hdata : r.phase ≠ .idle ∧ ntohs data 0 = opData
  · rw [if_pos hdata]
    dsimp only
    rw [if_neg fun hc => hphase hc.1]
    by_cases hlast : ntohs data 2 = UInt16.ofNat r.blocks.length
    · rw [if_pos hlast]
    · rw [if_neg hlast]
  · rw [if_neg hdata]

end Receiver

end Tftp
end NetLab
