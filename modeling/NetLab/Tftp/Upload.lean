import NetLab.Library.StopAndWait
import NetLab.Tftp.Put

/-!
# Uploads over channels that keep the order

`tftp_put` against a receiver, joined by one first-in-first-out channel a
direction that may lose and repeat datagrams.  The write request counts as the
block before the first, so that the system of the two refines `StopAndWait` with
its indices shifted by one.

The second `recvfrom` leaves the loop whatever it reports.  Only an exit through
its acknowledgement says that the receiver has the file.
-/

namespace NetLab
namespace Tftp

open Transition Fifo Blocks

/-- What is fixed for a transfer.  The receiver answers from a port of its own
choice, which is not the listening port. -/
structure UploadConfig where
  request : Request
  file : Bytes
  transferAddr : SockAddr
  transfer_ne : transferAddr ≠ request.serverAddr
  uninit : Bytes
  uninitAddr : SockAddr

/-- The two parties, the datagrams on their way to an address at the server, and
those on their way back from the receiver. -/
structure UploadState where
  client : PutState
  receiver : Receiver
  up : List (SockAddr × Bytes)
  down : List Bytes
  deriving DecidableEq, Repr

inductive UploadAction
  | deliverUp
  | deliverDown
  | timeout
  | recvFails
  | receiverTimeout
  | receiverError (message : Bytes)
  | disturbUp (d : Disturbance)
  | disturbDown (d : Disturbance)
  deriving DecidableEq, Repr

/-- Every datagram among the effects of a step, with its destination. -/
def sends (effects : List Effect) : List (SockAddr × Bytes) :=
  effects.filterMap fun
    | .sendto dst data => some (dst, data)
    | _ => none

namespace UploadState

def clientStep (k : UploadConfig) (s : UploadState) (r : RecvResult) : UploadState :=
  { s with
    client := (putStep k.request s.client r).1
    up := s.up ++ sends (putStep k.request s.client r).2 }

/-- A datagram arrives at the server.  One that is addressed to neither of the
two ports disappears. -/
def receiverStep (k : UploadConfig) (s : UploadState) (m : SockAddr × Bytes) : UploadState :=
  if m.1 = k.request.serverAddr then
    { s with
      receiver := (s.receiver.takeRequest m.2).1
      down := s.down ++ (s.receiver.takeRequest m.2).2 }
  else if m.1 = k.transferAddr then
    { s with
      receiver := (s.receiver.takeData m.2).1
      down := s.down ++ (s.receiver.takeData m.2).2 }
  else s

/-- The client has sent its request and waits in the first `recvfrom`. -/
def start (k : UploadConfig) : UploadState :=
  { client := putStart k.request k.file k.uninit k.uninitAddr
    receiver := .start
    up := [(k.request.serverAddr, requestPacket opWrq k.request.remoteFile)]
    down := [] }

end UploadState

/-- An ERROR may come at any time, with any text. -/
def uploadStep (k : UploadConfig) (s : UploadState) : UploadAction → Option UploadState
  | .deliverUp =>
    match s.up with
    | [] => none
    | m :: rest => some ({ s with up := rest }.receiverStep k m)
  | .deliverDown =>
    match s.down with
    | [] => none
    | d :: rest => some ({ s with down := rest }.clientStep k (.datagram k.transferAddr d))
  | .timeout => some (s.clientStep k .timedOut)
  | .recvFails => some (s.clientStep k .failed)
  | .receiverTimeout =>
    if s.receiver.phase = .idle then none
    else some { s with down := s.down ++ [s.receiver.lastAck] }
  | .receiverError message => some { s with down := s.down ++ [htons opError ++ message] }
  | .disturbUp d => some { s with up := disturb d s.up }
  | .disturbDown d => some { s with down := disturb d s.down }

def upload (k : UploadConfig) : System UploadState UploadAction where
  init s := s = .start k
  step := uploadStep k

theorem sends_putFinal (c : PutState) (r : RecvResult) : sends (putFinal c r).2 = [] := by
  obtain he | he := (putFinal_finished c r).effects
  · rw [he]
    rfl
  · rw [he]
    rfl

/-! ## Refinement of stop and wait -/

/-- The number of a block when the write request has index one. -/
def uploadNum (i : Nat) : UInt16 := UInt16.ofNat (i + 65535)

theorem uploadNum_succ (i : Nat) : uploadNum (i + 1) = UInt16.ofNat i := by
  rw [uploadNum, ← UInt16.toNat_inj, UInt16.toNat_ofNat', UInt16.toNat_ofNat']
  omega

theorem uploadNum_ne_succ (i : Nat) : uploadNum i ≠ uploadNum (i + 1) := by
  have h := ofNat_ne_succ (i + 65535)
  rwa [Nat.add_right_comm] at h

/-- The write request and the blocks that are not empty. -/
abbrev uploadTransfer (file : Bytes) : System StopAndWait.State StopAndWait.Action :=
  StopAndWait.system uploadNum (putCount file + 1)

/-- What a datagram on the way to the server stands for.  A stray one is ignored
there. -/
inductive CarriesUp (k : UploadConfig) : SockAddr × Bytes → Option Nat → Prop
  | request :
      CarriesUp k (k.request.serverAddr, requestPacket opWrq k.request.remoteFile) (some 1)
  | block (j : Nat) : CarriesUp k (k.transferAddr, blockDatagram k.file (j + 1)) (some (j + 2))
  | stray (data : Bytes) : ntohs data 0 ≠ opWrq → CarriesUp k (k.request.serverAddr, data) none

inductive CarriesDown : Bytes → Option Nat → Prop
  | ack (a : Nat) : CarriesDown (ackPacket (UInt16.ofNat a)) (some (a + 1))
  | error (message : Bytes) : CarriesDown (htons opError ++ message) none

/-- The variables of `tftp_put` after `j` blocks. -/
structure PutProgress (k : UploadConfig) (j : Nat) (c : PutState) : Prop where
  num : c.blockNum = UInt16.ofNat j
  rest : c.rest = k.file.drop (blockSize * j)
  final : c.final = decide (blockCount k.file ≤ j)
  request : j = 0 → c.status = .running →
    c.buffer = store (requestPacket opWrq k.request.remoteFile) k.uninit
  opcode : 0 < j → c.status = .running → ntohs c.buffer 0 ≠ opWrq

/-- The receiver after the first `n` of the request and the blocks. -/
def Received (file : Bytes) : Nat → Receiver → Prop
  | 0, r => r = .start
  | m + 1, r => r.blocks = blocks blockSize file m ∧
      r.phase = if m < blockCount file then .receiving else .finished

structure UploadRelated (k : UploadConfig) (s : UploadState) (t : StopAndWait.State) : Prop where
  client : ∃ j, t.cur = j + 1 ∧ PutProgress k j s.client
  receiver : Received k.file t.got s.receiver
  up : List.Forall₂ (CarriesUp k) s.up t.data
  down : List.Forall₂ CarriesDown s.down t.acks

section

variable {k : UploadConfig} {s : UploadState} {t : StopAndWait.State}

/-- Variables that the invariant does not speak about may change. -/
theorem PutProgress.of_eq {j : Nat} {c c' : PutState} (h : PutProgress k j c)
    (hn : c'.blockNum = c.blockNum) (hr : c'.rest = c.rest) (hf : c'.final = c.final)
    (hs : c'.status = .running → c.status = .running ∧ c'.buffer = c.buffer) :
    PutProgress k j c' where
  num := hn.trans h.num
  rest := hr.trans h.rest
  final := hf.trans h.final
  request hj hrun := (hs hrun).2.trans (h.request hj (hs hrun).1)
  opcode hj hrun := (hs hrun).2 ▸ h.opcode hj (hs hrun).1

theorem UploadRelated.start (k : UploadConfig) :
    ∃ t, (uploadTransfer k.file).Reachable t ∧ UploadRelated k (.start k) t := by
  have hlast : StopAndWait.start.cur ≤ putCount k.file + 1 := Nat.succ_pos _
  have hstep : (uploadTransfer k.file).step StopAndWait.start .transmit =
      some { StopAndWait.start with data := [some 1] } := StopAndWait.system_transmit hlast
  refine ⟨_, System.Reachable.step (.init rfl) hstep, ?_⟩
  refine { client := ⟨0, rfl, ?_⟩, receiver := rfl, up := .cons .request .nil, down := .nil }
  exact {
    num := rfl
    rest := rfl
    final := (decide_eq_false (Nat.not_le.mpr (blockCount_pos k.file))).symm
    request := fun _ _ => rfl
    opcode := fun hj => absurd hj (Nat.lt_irrefl 0) }

/-! ### The receiver's steps -/

/-- The request opens the transfer, or is answered again before any data. -/
theorem Received.request {file : Bytes} {n : Nat} {r : Receiver} (h : Received file n r)
    (hn : n = 1 ∨ n + 1 = 1) (remoteFile : Bytes) :
    Received file 1 (r.takeRequest (requestPacket opWrq remoteFile)).1 ∧
      (r.takeRequest (requestPacket opWrq remoteFile)).2 = [ackPacket (UInt16.ofNat 0)] := by
  have hpos := blockCount_pos file
  rw [Receiver.takeRequest, if_pos (ntohs_requestPacket opWrq remoteFile)]
  rcases hn with rfl | hn
  · obtain ⟨hblocks, hphase⟩ := h
    rw [if_pos hpos] at hphase
    have hnil : r.blocks = [] := hblocks
    rw [hphase]
    dsimp only
    rw [if_pos hnil, Receiver.lastAck, hnil]
    exact ⟨⟨hblocks, hphase.trans (if_pos hpos).symm⟩, rfl⟩
  · obtain rfl : n = 0 := by omega
    have hstart : r = .start := h
    subst hstart
    exact ⟨⟨rfl, (if_pos hpos).symm⟩, rfl⟩

/-- A block is appended when it is the next one, and acknowledged either way. -/
theorem Received.block {file : Bytes} {n j : Nat} {r : Receiver} (h : Received file n r)
    (hn : n = j + 2 ∨ n + 1 = j + 2) (hj : j < blockCount file) :
    Received file (j + 2) (r.takeData (blockDatagram file (j + 1))).1 ∧
      (r.takeData (blockDatagram file (j + 1))).2 = [ackPacket (UInt16.ofNat (j + 1))] := by
  obtain ⟨hop, hnum, hpay⟩ := ntohs_dataPacket (UInt16.ofNat (j + 1)) (fileBlock file (j + 1))
  have hlast := length_fileBlock_lt_iff file (Nat.succ_pos j)
  rw [blockDatagram, Receiver.takeData]
  rcases hn with rfl | hn
  · -- The last block again.
    obtain ⟨hblocks, hphase⟩ := h
    have hlen : r.blocks.length = j + 1 := by rw [hblocks, length_blocks]
    have hne := ofNat_ne_succ (j + 1)
    have hidle : r.phase ≠ .idle := by
      rw [hphase]
      split_ifs <;> exact Phase.noConfusion
    rw [if_pos ⟨hidle, hop⟩]
    simp only [hnum, hlen]
    rw [if_neg fun hc => hne hc.2, if_pos trivial, Receiver.lastAck, hlen]
    exact ⟨⟨hblocks, hphase⟩, rfl⟩
  · obtain rfl : n = j + 1 := by omega
    obtain ⟨hblocks, hphase⟩ := h
    rw [if_pos hj] at hphase
    have hlen : r.blocks.length = j := by rw [hblocks, length_blocks]
    have hidle : r.phase ≠ .idle := by
      rw [hphase]
      exact Phase.noConfusion
    rw [if_pos ⟨hidle, hop⟩]
    simp only [hnum, hlen, hpay]
    rw [if_pos ⟨hphase, trivial⟩]
    refine ⟨⟨?_, ?_⟩, rfl⟩
    · show r.blocks ++ [fileBlock file (j + 1)] = blocks blockSize file (j + 1)
      rw [hblocks, blocks_fileBlock]
    · by_cases hshort : (fileBlock file (j + 1)).length < blockSize
      · rw [if_pos hshort, if_neg (by have := hlast.mp hshort; omega)]
      · rw [if_neg hshort, if_pos (by have := mt hlast.mpr hshort; omega)]

/-- The receiver's handling of what is at the head of its channel. -/
theorem UploadRelated.deliverUp (h : UploadRelated k s t)
    (hinv : StopAndWait.Inv (putCount k.file + 1) t) {m : SockAddr × Bytes}
    {rest : List (SockAddr × Bytes)} (hd : s.up = m :: rest) :
    ∃ bs t', (uploadTransfer k.file).run t bs = some t' ∧
      UploadRelated k ({ s with up := rest }.receiverStep k m) t' := by
  obtain ⟨x, rest', hx, hrest, htd⟩ := List.forall₂_cons_left_iff.mp (hd ▸ h.up)
  -- Every block and every request is acknowledged, new or not.
  have htake : ∀ i, x = some i → some i ∈ t.data ∧ (t.got = i ∨ t.got + 1 = i) ∧
      (uploadTransfer k.file).step t (.receive true) =
        some { t with data := rest', got := i, acks := t.acks ++ [some i] } := by
    rintro i rfl
    have hmem : some i ∈ t.data := htd ▸ List.mem_cons_self
    obtain ⟨hgot, hres⟩ := hinv.takeBlock_true uploadNum_ne_succ hmem rest'
    refine ⟨hmem, hgot, ?_⟩
    rw [← hres]
    simp only [StopAndWait.system, StopAndWait.step, htd]
  cases hx with
  | request =>
    obtain ⟨_, hgot, hstep⟩ := htake 1 rfl
    obtain ⟨hrecv, hack⟩ := h.receiver.request hgot k.request.remoteFile
    refine ⟨_, _, System.run_singleton hstep, ?_⟩
    rw [UploadState.receiverStep, if_pos rfl, hack]
    exact { client := h.client, receiver := hrecv, up := hrest,
            down := forall₂_concat h.down (.ack 0) }
  | block j =>
    obtain ⟨hmem, hgot, hstep⟩ := htake (j + 2) rfl
    have hj : j < blockCount k.file := by
      have := hinv.data_le_last _ hmem
      have := putCount_le_blockCount k.file
      omega
    obtain ⟨hrecv, hack⟩ := h.receiver.block hgot hj
    refine ⟨_, _, System.run_singleton hstep, ?_⟩
    rw [UploadState.receiverStep, if_neg k.transfer_ne, if_pos rfl, hack]
    exact { client := h.client, receiver := hrecv, up := hrest,
            down := forall₂_concat h.down (.ack (j + 1)) }
  | stray data hdata =>
    have hstep : (uploadTransfer k.file).step t (.receive false) =
        some { t with data := rest' } := by
      simp only [StopAndWait.system, StopAndWait.step, htd]
    refine ⟨_, _, System.run_singleton hstep, ?_⟩
    rw [UploadState.receiverStep, if_pos rfl, Receiver.takeRequest, if_neg hdata]
    exact { h with up := hrest, down := by simpa using h.down }

/-! ### The client's steps -/

/-- The awaited acknowledgement moves the client on to the next block. -/
theorem PutProgress.next {j : Nat} {c : PutState} (h : PutProgress k j c)
    (hrun : c.status = .running) (hf : c.final = false) :
    PutProgress k (j + 1) (putStep k.request c (.datagram k.transferAddr
        (ackPacket (UInt16.ofNat j)))).1 ∧
      sends (putStep k.request c (.datagram k.transferAddr (ackPacket (UInt16.ofNat j)))).2 =
        if j < putCount k.file then [(k.transferAddr, blockDatagram k.file (j + 1))] else [] := by
  have hop := ntohs_store_dataPacket (UInt16.ofNat (j + 1)) (fileBlock k.file (j + 1))
  have hack := ntohs_store_ackPacket (UInt16.ofNat j) c.buffer
  rw [putStep_ackPacket hrun hf, if_pos h.num.symm,
    putNext_eq (k := j)
      (s := c.receive k.transferAddr (ackPacket (UInt16.ofNat j))) h.num h.rest]
  constructor
  · refine { num := rfl, rest := rfl, final := rfl, request := ?_, opcode := ?_ }
    · intro hj
      exact absurd hj (Nat.succ_ne_zero j)
    · intro _ _
      by_cases hsent : j < putCount k.file
      · simp only [if_pos hsent]
        rw [blockDatagram, (hop _).1]
        decide
      · simp only [if_neg hsent]
        show ntohs (store _ _) 0 ≠ opWrq
        rw [hack.1]
        decide
  · by_cases hsent : j < putCount k.file
    · simp only [if_pos hsent]
      rfl
    · simp only [if_neg hsent]
      rfl

/-- A timeout repeats the request, or sends bytes that are no request. -/
theorem PutProgress.timedOut {j : Nat} {c : PutState} (h : PutProgress k j c)
    (hrun : c.status = .running) (hf : c.final = false) :
    PutProgress k j (putStep k.request c .timedOut).1 ∧
      (sends (putStep k.request c .timedOut).2 = [] ∨
        ∃ data, sends (putStep k.request c .timedOut).2 = [(k.request.serverAddr, data)] ∧
          (j = 0 ∧ data = requestPacket opWrq k.request.remoteFile ∨
            ntohs data 0 ≠ opWrq)) := by
  rw [putStep_timedOut hrun hf, putTimeout]
  by_cases hretry : c.retries < maxRetries
  · rw [if_pos hretry]
    refine ⟨h.of_eq rfl rfl rfl fun hr => ⟨hr, rfl⟩, ?_⟩
    by_cases hzero : c.blockNum = 0
    · simp only [if_pos hzero]
      refine .inr ⟨c.buffer.take (putRequestLen k.request), ?_, ?_⟩
      · rw [sendto, if_neg (by omega), Int.toNat_natCast]
        rfl
      · rcases Nat.eq_zero_or_pos j with hj | hj
        · refine .inl ⟨hj, ?_⟩
          rw [h.request hj hrun, store, putRequestLen, List.take_left]
        · -- The block number has wrapped: the buffer no longer holds the request.
          refine .inr ?_
          rw [ntohs_take _ (by rw [putRequestLen, length_requestPacket]; omega)]
          exact h.opcode hj hrun
    · simp only [if_neg hzero]
      exact .inl rfl
  · rw [if_neg hretry]
    exact ⟨h.of_eq rfl rfl rfl fun hr => Status.noConfusion hr, .inl rfl⟩

/-- A step that ends the call sends nothing and keeps the variables. -/
theorem PutProgress.final_step {j : Nat} {c : PutState} (h : PutProgress k j c)
    (hrun : c.status = .running) (hf : c.final = true) (r : RecvResult) :
    PutProgress k j (putStep k.request c r).1 ∧ sends (putStep k.request c r).2 = [] := by
  have hfinished := putFinal_finished c r
  rw [putStep_final hrun hf]
  refine ⟨h.of_eq hfinished.blockNum hfinished.rest hfinished.final ?_, sends_putFinal c r⟩
  intro hr
  rw [hfinished.status] at hr
  cases hr

/-- An acknowledgement that the client reads in its loop. -/
theorem UploadRelated.deliverAck (h : UploadRelated k s t) {a j : Nat} {rest : List Bytes}
    {rest' : List (Option Nat)} (hta : t.acks = some (a + 1) :: rest')
    (hrest : List.Forall₂ CarriesDown rest rest')
    (hinv : StopAndWait.Inv (putCount k.file + 1) t) (hcur : t.cur = j + 1)
    (hprog : PutProgress k j s.client) (hrun : s.client.status = .running)
    (hf : s.client.final = false) :
    ∃ bs t', (uploadTransfer k.file).run t bs = some t' ∧
      UploadRelated k ({ s with down := rest }.clientStep k
        (.datagram k.transferAddr (ackPacket (UInt16.ofNat a)))) t' := by
  have hmem : some (a + 1) ∈ t.acks := hta ▸ List.mem_cons_self
  have hstep : (uploadTransfer k.file).step t .advance =
      some (StopAndWait.State.takeAck uploadNum { t with acks := rest' } (a + 1)) := by
    simp only [StopAndWait.system, StopAndWait.step, hta]
  rw [StopAndWait.State.takeAck, hcur, uploadNum_succ, uploadNum_succ] at hstep
  by_cases hnum : UInt16.ofNat a = UInt16.ofNat j
  · rw [if_pos hnum] at hstep
    obtain ⟨hprog', hsent⟩ := hprog.next hrun hf
    rw [← hnum] at hprog' hsent
    by_cases hj : j < putCount k.file
    · rw [if_pos hj] at hsent
      have hcur' : j + 1 + 1 ≤ putCount k.file + 1 := by omega
      refine ⟨[.advance, .transmit], _, (System.run_cons hstep _).trans
        (System.run_singleton (StopAndWait.system_transmit hcur')), ?_⟩
      refine { h with client := ⟨j + 1, rfl, hprog'⟩, down := hrest, up := ?_ }
      show List.Forall₂ (CarriesUp k) (s.up ++ sends _) _
      rw [hsent]
      exact forall₂_concat h.up (.block j)
    · rw [if_neg hj] at hsent
      refine ⟨_, _, System.run_singleton hstep, ?_⟩
      refine { h with client := ⟨j + 1, rfl, hprog'⟩, down := hrest, up := ?_ }
      show List.Forall₂ (CarriesUp k) (s.up ++ sends _) _
      rw [hsent, List.append_nil]
      exact h.up
  · rw [if_neg hnum] at hstep
    refine ⟨_, _, System.run_singleton hstep, ?_⟩
    have hignored := putStep_ackPacket (q := k.request) hrun hf k.transferAddr (UInt16.ofNat a)
    rw [hprog.num, if_neg hnum] at hignored
    rw [UploadState.clientStep, hignored]
    refine { h with client := ⟨j, rfl, ?_⟩, down := hrest, up := by simpa [sends] using h.up }
    refine { hprog with request := ?_, opcode := ?_ }
    · -- Before the first block only the request can have been acknowledged.
      intro hj _
      have h₁ := hinv.acks_le _ hmem
      have h₂ := hinv.got_le_cur
      exact absurd (by rw [show a = j by omega]) hnum
    · intro _ _
      show ntohs (store _ _) 0 ≠ opWrq
      rw [(ntohs_store_ackPacket _ _).1]
      decide

/-- The client's handling of what is at the head of its channel. -/
theorem UploadRelated.deliverDown (h : UploadRelated k s t) {d : Bytes} {rest : List Bytes}
    (hd : s.down = d :: rest) (hinv : StopAndWait.Inv (putCount k.file + 1) t) :
    ∃ bs t', (uploadTransfer k.file).run t bs = some t' ∧
      UploadRelated k ({ s with down := rest }.clientStep k (.datagram k.transferAddr d)) t' := by
  obtain ⟨x, rest', hx, hrest, hta⟩ := List.forall₂_cons_left_iff.mp (hd ▸ h.down)
  obtain ⟨j, hcur, hprog⟩ := h.client
  have hlose : (uploadTransfer k.file).step t (.disturbAcks (.lose 0)) =
      some { t with acks := rest' } := by
    simp only [StopAndWait.system, StopAndWait.step, hta]
    rfl
  by_cases hrun : s.client.status = .running
  · cases hf : s.client.final with
    | true =>
      obtain ⟨hprog', hsent⟩ := hprog.final_step hrun hf (.datagram k.transferAddr d)
      refine ⟨_, _, System.run_singleton hlose, ?_⟩
      refine { h with client := ⟨j, hcur, hprog'⟩, down := hrest, up := ?_ }
      show List.Forall₂ (CarriesUp k) (s.up ++ sends _) t.data
      rw [hsent, List.append_nil]
      exact h.up
    | false =>
      cases hx with
      | error message =>
        obtain ⟨c', hc, hstatus, hn, hr, hfin⟩ :=
          putStep_error (q := k.request) hrun hf k.transferAddr message
        refine ⟨_, _, System.run_singleton hlose, ?_⟩
        rw [UploadState.clientStep, hc]
        refine { h with client := ⟨j, hcur, ?_⟩, down := hrest, up := by simpa [sends] using h.up }
        apply hprog.of_eq hn hr hfin
        intro hr
        rw [hstatus] at hr
        cases hr
      | ack a => exact h.deliverAck hta hrest hinv hcur hprog hrun hf
  · -- A call that has returned reads nothing.
    refine ⟨_, _, System.run_singleton hlose, ?_⟩
    rw [UploadState.clientStep, putStep_of_not_running hrun]
    exact { h with down := hrest, up := by simpa [sends] using h.up }

theorem UploadRelated.timeout (h : UploadRelated k s t) :
    ∃ bs t', (uploadTransfer k.file).run t bs = some t' ∧
      UploadRelated k (s.clientStep k .timedOut) t' := by
  obtain ⟨j, hcur, hprog⟩ := h.client
  by_cases hrun : s.client.status = .running
  · cases hf : s.client.final with
    | true =>
      obtain ⟨hprog', hsent⟩ := hprog.final_step hrun hf .timedOut
      refine ⟨[], t, rfl, { h with client := ⟨j, hcur, hprog'⟩, up := ?_ }⟩
      show List.Forall₂ (CarriesUp k) (s.up ++ sends _) t.data
      rw [hsent, List.append_nil]
      exact h.up
    | false =>
      obtain ⟨hprog', hsent | ⟨data, hsent, hdata⟩⟩ := hprog.timedOut hrun hf
      · refine ⟨[], t, rfl, { h with client := ⟨j, hcur, hprog'⟩, up := ?_ }⟩
        show List.Forall₂ (CarriesUp k) (s.up ++ sends _) t.data
        rw [hsent, List.append_nil]
        exact h.up
      · rcases hdata with ⟨rfl, rfl⟩ | hdata
        · have hle : t.cur ≤ putCount k.file + 1 := by omega
          refine ⟨_, _, System.run_singleton (StopAndWait.system_transmit hle), ?_⟩
          refine { h with client := ⟨0, hcur, hprog'⟩, up := ?_ }
          show List.Forall₂ (CarriesUp k) (s.up ++ sends _) (t.data ++ [some t.cur])
          rw [hsent, hcur]
          exact forall₂_concat h.up .request
        · have hstep : (uploadTransfer k.file).step t .noiseData =
              some { t with data := t.data ++ [none] } := rfl
          refine ⟨_, _, System.run_singleton hstep, ?_⟩
          refine { h with client := ⟨j, hcur, hprog'⟩, up := ?_ }
          show List.Forall₂ (CarriesUp k) (s.up ++ sends _) _
          rw [hsent]
          exact forall₂_concat h.up (.stray data hdata)
  · refine ⟨[], t, rfl, ?_⟩
    rw [UploadState.clientStep, putStep_of_not_running hrun]
    exact { h with up := by simpa [sends] using h.up }

theorem UploadRelated.recvFails (h : UploadRelated k s t) :
    UploadRelated k (s.clientStep k .failed) t := by
  obtain ⟨j, hcur, hprog⟩ := h.client
  by_cases hrun : s.client.status = .running
  · cases hf : s.client.final with
    | true =>
      obtain ⟨hprog', hsent⟩ := hprog.final_step hrun hf .failed
      refine { h with client := ⟨j, hcur, hprog'⟩, up := ?_ }
      show List.Forall₂ (CarriesUp k) (s.up ++ sends _) t.data
      rw [hsent, List.append_nil]
      exact h.up
    | false =>
      rw [UploadState.clientStep, putStep_failed hrun hf]
      refine { h with client := ⟨j, hcur, ?_⟩, up := by simpa [sends] using h.up }
      exact hprog.of_eq rfl rfl rfl fun hr => Status.noConfusion hr
  · rw [UploadState.clientStep, putStep_of_not_running hrun]
    exact { h with up := by simpa [sends] using h.up }

theorem UploadRelated.receiverTimeout (h : UploadRelated k s t)
    (hidle : s.receiver.phase ≠ .idle) :
    UploadRelated k { s with down := s.down ++ [s.receiver.lastAck] }
      { t with acks := t.acks ++ [some t.got] } := by
  refine { h with down := ?_ }
  have hrecv := h.receiver
  cases hgot : t.got with
  | zero =>
    rw [hgot] at hrecv
    have hstart : s.receiver = .start := hrecv
    exact absurd (hstart ▸ rfl) hidle
  | succ m =>
    rw [hgot] at hrecv
    rw [Receiver.lastAck, hrecv.1, length_blocks]
    exact forall₂_concat h.down (.ack m)

end

theorem upload_simulates (k : UploadConfig) :
    System.Simulates (upload k) (uploadTransfer k.file) (UploadRelated k) where
  init := by
    rintro s rfl
    exact UploadRelated.start k
  step := by
    intro s a s' t ht h hs
    have hinv := StopAndWait.reachable_inv uploadNum_ne_succ ht
    change uploadStep k s a = some s' at hs
    cases a with
    | deliverUp =>
      cases hd : s.up with
      | nil => simp [uploadStep, hd] at hs
      | cons m rest =>
        simp only [uploadStep, hd, Option.some.injEq] at hs
        exact hs ▸ h.deliverUp hinv hd
    | deliverDown =>
      cases hd : s.down with
      | nil => simp [uploadStep, hd] at hs
      | cons d rest =>
        simp only [uploadStep, hd, Option.some.injEq] at hs
        exact hs ▸ h.deliverDown hd hinv
    | timeout =>
      simp only [uploadStep, Option.some.injEq] at hs
      exact hs ▸ h.timeout
    | recvFails =>
      simp only [uploadStep, Option.some.injEq] at hs
      exact ⟨[], t, rfl, hs ▸ h.recvFails⟩
    | receiverTimeout =>
      by_cases hidle : s.receiver.phase = .idle
      · simp [uploadStep, hidle] at hs
      · simp only [uploadStep, if_neg hidle, Option.some.injEq] at hs
        exact ⟨[.ackLast], _, rfl, hs ▸ h.receiverTimeout hidle⟩
    | receiverError message =>
      simp only [uploadStep, Option.some.injEq] at hs
      subst hs
      exact ⟨[.noiseAck], _, rfl, { h with down := forall₂_concat h.down (.error message) }⟩
    | disturbUp d =>
      simp only [uploadStep, Option.some.injEq] at hs
      subst hs
      exact ⟨[.disturbData d], _, rfl, { h with up := forall₂_disturb h.up d }⟩
    | disturbDown d =>
      simp only [uploadStep, Option.some.injEq] at hs
      subst hs
      exact ⟨[.disturbAcks d], _, rfl, { h with down := forall₂_disturb h.down d }⟩

/-! ## What success means -/

/-- The receiver has finished and holds the whole file. -/
def Delivered (k : UploadConfig) (s : UploadState) : Prop :=
  s.receiver.phase = .finished ∧ s.receiver.file = k.file

/-- While the client waits in the second `recvfrom`, the only thing it is given
is the acknowledgement of the block it counts last. -/
def FinalAck (s : UploadState) (a : UploadAction) : Prop :=
  s.client.status = .running → s.client.final = true →
    a ≠ .timeout ∧ a ≠ .recvFails ∧
      (a = .deliverDown → s.down.head? = some (ackPacket s.client.blockNum))

instance (s : UploadState) (a : UploadAction) : Decidable (FinalAck s a) :=
  inferInstanceAs (Decidable (_ → _ → _ ∧ _ ∧ (_ → _)))

theorem receiverStep_client (k : UploadConfig) (s : UploadState) (m : SockAddr × Bytes) :
    (s.receiverStep k m).client = s.client := by
  rw [UploadState.receiverStep]
  split_ifs <;> rfl

/-- A receiver that has finished keeps its file. -/
theorem Delivered.receiverStep {k : UploadConfig} {s : UploadState} (h : Delivered k s)
    (m : SockAddr × Bytes) : Delivered k (s.receiverStep k m) := by
  rw [UploadState.receiverStep]
  by_cases hserver : m.1 = k.request.serverAddr
  · rw [if_pos hserver, Receiver.takeRequest_of_finished h.1]
    exact h
  · rw [if_neg hserver]
    by_cases htransfer : m.1 = k.transferAddr
    · rw [if_pos htransfer]
      refine ⟨?_, ?_⟩
      · show (s.receiver.takeData m.2).1.phase = .finished
        rw [Receiver.takeData_of_finished h.1, h.1]
      · show (s.receiver.takeData m.2).1.file = k.file
        rw [Receiver.takeData_of_finished h.1, h.2]
    · rw [if_neg htransfer]
      exact h

/-- When the last acknowledgement is at the head of the channel, the receiver has
every block. -/
theorem UploadRelated.delivered {k : UploadConfig} {s : UploadState} {t : StopAndWait.State}
    (h : UploadRelated k s t) (hinv : StopAndWait.Inv (putCount k.file + 1) t)
    (hf : s.client.final = true) {rest : List Bytes}
    (hd : s.down = ackPacket s.client.blockNum :: rest) : Delivered k s := by
  obtain ⟨x, rest', hx, -, hta⟩ := List.forall₂_cons_left_iff.mp (hd ▸ h.down)
  obtain ⟨j, hcur, hprog⟩ := h.client
  have hfinal : blockCount k.file ≤ j := by
    have := hprog.final
    rw [hf, eq_comm, decide_eq_true_eq] at this
    exact this
  generalize hack : ackPacket s.client.blockNum = d at hx
  cases hx with
  | error message =>
    have hop := (ntohs_store_ackPacket s.client.blockNum []).1
    rw [hack, ntohs_store_htons] at hop
    exact absurd hop (by decide)
  | ack a =>
    have hmem : some (a + 1) ∈ t.acks := hta ▸ List.mem_cons_self
    have hnum : uploadNum (a + 1) = uploadNum t.cur := by
      rw [hcur, uploadNum_succ, uploadNum_succ, ← hprog.num]
      exact (ackPacket_inj hack).symm
    obtain ⟨-, hgot⟩ := (hinv.num_eq_cur_iff uploadNum_ne_succ hmem).mp hnum
    have hle := hinv.got_le_last
    have hcount := putCount_le_blockCount k.file
    obtain rfl : j = blockCount k.file := by omega
    have hrecv := h.receiver
    rw [hgot, hcur] at hrecv
    refine ⟨hrecv.2.trans (if_neg (Nat.lt_irrefl _)), ?_⟩
    rw [Receiver.file, hrecv.1, flatten_blocks_blockCount]

/-- A call that was not in the second `recvfrom` does not return zero. -/
theorem clientStep_returned_zero {k : UploadConfig} {s : UploadState} {r : RecvResult}
    (h : (s.clientStep k r).client.status = .returned 0) :
    s.client.status = .returned 0 ∨ s.client.status = .running ∧ s.client.final = true := by
  by_cases hrun : s.client.status = .running
  · refine .inr ⟨hrun, ?_⟩
    cases hf : s.client.final with
    | true => rfl
    | false =>
      change (putStep k.request s.client r).1.status = .returned 0 at h
      rcases putStep_status (q := k.request) hrun hf r with hs | hs
      · rw [hs] at h
        cases h
      · rw [hs] at h
        cases h
  · change (putStep k.request s.client r).1.status = .returned 0 at h
    rw [putStep_of_not_running hrun] at h
    exact .inl h

/-- In every run in which the second `recvfrom` is only ever given the last
acknowledgement, an upload that reports success has been delivered. -/
theorem upload_delivered (k : UploadConfig) {s : UploadState}
    (h : (upload k).ReachableBy FinalAck s) (hret : s.client.status = .returned 0) :
    Delivered k s := by
  suffices hboth : (upload k).Reachable s ∧ (s.client.status = .returned 0 → Delivered k s) from
    hboth.2 hret
  refine System.ReachableBy.invariant
    (I := fun s => (upload k).Reachable s ∧ (s.client.status = .returned 0 → Delivered k s))
    ?_ ?_ h
  · rintro s rfl
    exact ⟨.init rfl, fun hs => Status.noConfusion hs⟩
  · intro s a s' ⟨hreach, hdel⟩ hok hs
    obtain ⟨t, ht, hrel⟩ := (upload_simulates k).reachable hreach
    have hinv := StopAndWait.reachable_inv uploadNum_ne_succ ht
    refine ⟨hreach.step hs, fun hret => ?_⟩
    change uploadStep k s a = some s' at hs
    cases a with
    | deliverUp =>
      cases hd : s.up with
      | nil => simp [uploadStep, hd] at hs
      | cons m rest =>
        simp only [uploadStep, hd, Option.some.injEq] at hs
        subst hs
        rw [receiverStep_client] at hret
        exact (show Delivered k { s with up := rest } from hdel hret).receiverStep m
    | deliverDown =>
      cases hd : s.down with
      | nil => simp [uploadStep, hd] at hs
      | cons d rest =>
        simp only [uploadStep, hd, Option.some.injEq] at hs
        subst hs
        rcases clientStep_returned_zero hret with hret | ⟨hrun, hf⟩
        · exact hdel hret
        · have hhead := (hok hrun hf).2.2 rfl
          rw [hd, List.head?_cons, Option.some.injEq] at hhead
          exact hrel.delivered hinv hf (hhead ▸ hd)
    | timeout =>
      simp only [uploadStep, Option.some.injEq] at hs
      subst hs
      rcases clientStep_returned_zero hret with hret | ⟨hrun, hf⟩
      · exact hdel hret
      · exact absurd rfl (hok hrun hf).1
    | recvFails =>
      simp only [uploadStep, Option.some.injEq] at hs
      subst hs
      rcases clientStep_returned_zero hret with hret | ⟨hrun, hf⟩
      · exact hdel hret
      · exact absurd rfl (hok hrun hf).2.1
    | receiverTimeout =>
      by_cases hidle : s.receiver.phase = .idle
      · simp [uploadStep, hidle] at hs
      · simp only [uploadStep, if_neg hidle, Option.some.injEq] at hs
        subst hs
        exact hdel hret
    | receiverError message | disturbUp d | disturbDown d =>
      simp only [uploadStep, Option.some.injEq] at hs
      subst hs
      exact hdel hret

/-- A file whose length is a multiple of the block size never gets its last
block, and the receiver never finishes. -/
theorem upload_not_finished (k : UploadConfig) {s : UploadState} (h : (upload k).Reachable s)
    (hmod : k.file.length % blockSize = 0) : s.receiver.phase ≠ .finished := by
  obtain ⟨t, ht, hrel⟩ := (upload_simulates k).reachable h
  have hgot := (StopAndWait.reachable_inv uploadNum_ne_succ ht).got_le_last
  have hrecv := hrel.receiver
  have hle := putCount_le_blockCount k.file
  have hne := mt (putCount_eq_blockCount_iff k.file).mp (not_not.mpr hmod)
  cases hn : t.got with
  | zero =>
    rw [hn] at hrecv
    have hstart : s.receiver = .start := hrecv
    rw [hstart]
    exact Phase.noConfusion
  | succ m =>
    rw [hn] at hrecv
    rw [hrecv.2, if_pos (by omega)]
    exact Phase.noConfusion

theorem upload_delivered_one_byte :
    let k : UploadConfig :=
      { request := ⟨0, ascii "f", by decide⟩, file := [7], transferAddr := ⟨0, 2000⟩
        transfer_ne := by decide, uninit := [], uninitAddr := ⟨0, 0⟩ }
    ∃ s, (upload k).ReachableBy FinalAck s ∧ s.client.status = .returned 0 ∧ Delivered k s := by
  intro k
  obtain ⟨s, hs, hret⟩ := System.exists_reachableBy (M := upload k) (P := FinalAck)
    (f := (·.client.status)) (c := .returned 0) (s := .start k)
    (l := [.deliverUp, .deliverDown, .deliverUp, .deliverDown]) rfl (by decide) (by decide)
  exact ⟨s, hs, hret, upload_delivered k hs hret⟩

/-- The only DATA datagram is lost, the second `recvfrom` times out, and the call
returns zero. -/
theorem upload_reports_lost_file :
    ¬ ∀ (k : UploadConfig) (s : UploadState), (upload k).Reachable s →
      s.client.status = .returned 0 → Delivered k s := by
  intro h
  let k : UploadConfig :=
    { request := ⟨0, ascii "f", by decide⟩, file := [7], transferAddr := ⟨0, 2000⟩
      transfer_ne := by decide, uninit := [], uninitAddr := ⟨0, 0⟩ }
  obtain ⟨s, hs, hret⟩ := System.exists_reachable (M := upload k)
    (f := fun s => (s.client.status, s.receiver.phase)) (c := (.returned 0, .receiving))
    (s := .start k) (l := [.deliverUp, .deliverDown, .disturbUp (.lose 0), .timeout]) rfl
    (by decide)
  rw [Prod.mk.injEq] at hret
  have hfinished := (h k s hs hret.1).1
  rw [hret.2] at hfinished
  cases hfinished

end Tftp
end NetLab
