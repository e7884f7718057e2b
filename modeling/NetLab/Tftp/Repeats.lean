import NetLab.Tftp.Sequence

/-!
# What a timeout repeats

`tftp_put` sends its receive buffer again, and `tftp_get` an acknowledgement to
whatever address the last datagram came from.
-/

namespace NetLab
namespace Tftp

open History Insertion

theorem sendto_natCast (dst : SockAddr) (buf : Bytes) (n : Nat) :
    sendto dst buf n = [.sendto dst (buf.take n)] := by
  rw [sendto, if_neg (by omega), Int.toNat_natCast]

/-! ## `tftp_put` -/

/-- What the server has to answer next: the write request, or the last block
that was sent. -/
def outstanding (q : Request) (as : List Answer) : SockAddr × Bytes :=
  match as.getLast? with
  | none => (q.serverAddr, requestPacket opWrq q.remoteFile)
  | some a => (a.dst, a.packet)

/-- A timeout sends that again and nothing else. -/
def Retransmits (q : Request) (as : List Answer) (s : PutState) : Prop :=
  (putStep q s .timedOut).2 = [.sendto (outstanding q as).1 (outstanding q as).2]

/-- Before the first block the buffer still holds the request.  After it the
counter has come back to zero, the request is as long as the buffer, and the
block went to the port of the requests and is still in the buffer. -/
def Intact (q : Request) (as : List Answer) (s : PutState) : Prop :=
  s.final = false ∧
    match as.getLast? with
    | none => s.buffer.take (putRequestLen q) = requestPacket opWrq q.remoteFile
    | some a => as.length % 65536 = 0 ∧ putRequestLen q = bufferSize ∧
        a.dst = q.serverAddr ∧ s.buffer.take bufferSize = a.packet

theorem putRequestLen_le (q : Request) : putRequestLen q ≤ bufferSize := by
  have hfits := q.fits
  rw [length_requestPacket] at hfits
  rw [putRequestLen, length_requestPacket]
  exact hfits

theorem ofNat_eq_zero_iff (k : Nat) : UInt16.ofNat k = 0 ↔ k % 65536 = 0 := by
  rw [← UInt16.toNat_inj, UInt16.toNat_ofNat']
  rfl

section

variable {q : Request} {file : Bytes} {k : Nat} {as : List Answer} {s : PutState}

theorem putTimeout_effects (hretry : s.retries < maxRetries) :
    (putTimeout q s).2 = if s.blockNum = 0 then
      [.sendto q.serverAddr (s.buffer.take (putRequestLen q))] else [] := by
  rw [putTimeout, if_pos hretry]
  by_cases hzero : s.blockNum = 0
  · rw [if_pos hzero, if_pos hzero]
    exact sendto_natCast _ _ _
  · rw [if_neg hzero, if_neg hzero]
    rfl

/-- While the loop waits for an acknowledgement the last block was a full one. -/
theorem PutHistory.length_last (h : PutHistory file k as s) (hf : s.final = false) {a : Answer}
    (ha : as.getLast? = some a) : a.packet.length = bufferSize := by
  have hk : ¬ blockCount file ≤ k := of_decide_eq_false (h.final.symm.trans hf)
  have hlen := h.length_eq hf
  rw [List.getLast?_eq_getElem?] at ha
  have hlt := (List.getElem?_eq_some_iff.mp ha).1
  have hpos : 0 < k := by omega
  have hle := length_fileBlock_le file k
  have hfull := mt (length_fileBlock_lt_iff file hpos).mp hk
  have hsize : bufferSize = 4 + blockSize := rfl
  rw [h.packet _ a ha, hlen, Nat.sub_add_cancel hpos, blockDatagram, length_dataPacket]
  omega

theorem PutHistory.retransmits_iff_intact (h : PutHistory file k as s)
    (hrun : s.status = .running) (hretry : s.retries < maxRetries) :
    Retransmits q as s ↔ Intact q as s := by
  cases hf : s.final with
  | true =>
    refine iff_of_false (fun hsame => ?_) fun hintact => ?_
    · rw [Retransmits, putStep_final hrun hf] at hsame
      cases hsame
    · rw [Intact, hf] at hintact
      exact absurd hintact.1 (by decide)
  | false =>
    have hlen := h.length_eq hf
    rw [Retransmits, putStep_timedOut hrun hf, putTimeout_effects hretry, Intact, hf, outstanding,
      h.blockNum]
    cases hlast : as.getLast? with
    | none =>
      have hk : k = 0 := by
        rw [List.getLast?_eq_none_iff] at hlast
        rw [← hlen, hlast]
        rfl
      have hzero : UInt16.ofNat 0 = 0 := rfl
      rw [hk, if_pos hzero]
      dsimp only
      rw [List.cons.injEq, Effect.sendto.injEq]
      exact ⟨fun hall => ⟨rfl, hall.1.2⟩, fun hall => ⟨⟨rfl, hall.2⟩, rfl⟩⟩
    | some a =>
      have hsize := h.length_last hf hlast
      rw [hlen]
      dsimp only
      by_cases hzero : UInt16.ofNat k = 0
      · rw [if_pos hzero, List.cons.injEq, Effect.sendto.injEq]
        constructor
        · rintro ⟨⟨hdst, hpacket⟩, -⟩
          have htake := congrArg List.length hpacket
          rw [List.length_take, hsize] at htake
          have hle := putRequestLen_le q
          have hmax : putRequestLen q = bufferSize := by omega
          exact ⟨rfl, (ofNat_eq_zero_iff k).mp hzero, hmax, hdst.symm, hmax ▸ hpacket⟩
        · rintro ⟨-, -, hmax, hdst, hpacket⟩
          exact ⟨⟨hdst.symm, hmax.symm ▸ hpacket⟩, rfl⟩
      · rw [if_neg hzero]
        refine iff_of_false (fun hnil => by cases hnil) fun hall => ?_
        exact hzero ((ofNat_eq_zero_iff k).mpr hall.2.1)

end

/-- A timeout repeats the request as long as no datagram has changed it in the
buffer.  A block it repeats only when the counter is back at zero and block and
request agree in length and destination. -/
theorem retransmits_iff (q : Request) (file uninit : Bytes) (uninitAddr : SockAddr)
    (rs : List RecvResult)
    (hrun : (putRun q (putStart q file uninit uninitAddr) rs).1.status = .running)
    (hretry : (putRun q (putStart q file uninit uninitAddr) rs).1.retries < maxRetries) :
    Retransmits q (answers q (putStart q file uninit uninitAddr) rs)
        (putRun q (putStart q file uninit uninitAddr) rs).1 ↔
      Intact q (answers q (putStart q file uninit uninitAddr) rs)
        (putRun q (putStart q file uninit uninitAddr) rs).1 := by
  obtain ⟨k, h⟩ := put_history q file uninit uninitAddr rs
  exact h.retransmits_iff_intact hrun hretry

/-- The request is repeated when nothing has come. -/
theorem retransmits_request :
    Retransmits oneLetter (answers oneLetter (putStart oneLetter [7] [] { ip := 0, port := 0 }) [])
      (putRun oneLetter (putStart oneLetter [7] [] { ip := 0, port := 0 }) []).1 :=
  (retransmits_iff oneLetter [7] [] { ip := 0, port := 0 } [] rfl (by decide)).mpr
    ⟨rfl, show (putStart oneLetter [7] [] { ip := 0, port := 0 }).buffer.take
      (putRequestLen oneLetter) = requestPacket opWrq oneLetter.remoteFile by decide⟩

/-- The server acknowledges the request and the first block is lost. -/
theorem retransmits_fails :
    ¬ ∀ (q : Request) (file uninit : Bytes) (uninitAddr : SockAddr) (rs : List RecvResult),
      (putRun q (putStart q file uninit uninitAddr) rs).1.status = .running →
      (putRun q (putStart q file uninit uninitAddr) rs).1.retries < maxRetries →
      Retransmits q (answers q (putStart q file uninit uninitAddr) rs)
        (putRun q (putStart q file uninit uninitAddr) rs).1 := by
  intro h
  have hsame := h oneLetter (List.replicate 512 0) [] { ip := 0, port := 0 }
    [.datagram { ip := 1, port := 1069 } (ackPacket 0)] (by decide +kernel) (by decide +kernel)
  have hlen := congrArg List.length hsame
  exact absurd hlen (by decide +kernel)

/-! ## `tftp_get` -/

def RecvResult.source? : RecvResult → Option SockAddr
  | .datagram src _ => some src
  | _ => none

/-- Where the last datagram came from. -/
def lastSource (rs : List RecvResult) : Option SockAddr :=
  (rs.filterMap RecvResult.source?).getLast?

/-- A timeout sends what the server waits for: the request when no datagram has
come, and else the ACK of the last block to where that block came from. -/
def Repeats (q : Request) (rs : List RecvResult) (bs : List Arrival) (s : GetState) : Prop :=
  match lastSource rs with
  | none => (getStep s .timedOut).2 = [.sendto q.serverAddr (requestPacket opRrq q.remoteFile)]
  | some _ => ∃ b, bs.getLast? = some b ∧
      (getStep s .timedOut).2 = [.sendto b.src (ackPacket b.number)]

theorem lastSource_concat (rs : List RecvResult) (r : RecvResult) :
    lastSource (rs ++ [r]) = if r.source? = none then lastSource rs else r.source? := by
  rw [lastSource, List.filterMap_append]
  cases r with
  | timedOut => exact congrArg List.getLast? (List.append_nil _)
  | failed => exact congrArg List.getLast? (List.append_nil _)
  | datagram src data => exact List.getLast?_concat

theorem getDatagram_fromAddr (s : GetState) (n : Nat) :
    (getDatagram s n).1.fromAddr = s.fromAddr := by
  unfold getDatagram getData
  dsimp only
  split_ifs
  · rfl
  · rfl
  · rfl
  · rfl
  · rfl
  · rfl
  · rfl

/-- While the loop runs `from_addr` is where the last datagram came from. -/
theorem fromAddr_eq (q : Request) (uninit : Bytes) (uninitAddr : SockAddr) (rs : List RecvResult) :
    (getRun (getStart q uninit uninitAddr) rs).1.status = .running →
      ∀ src, lastSource rs = some src →
        (getRun (getStart q uninit uninitAddr) rs).1.fromAddr = src := by
  rw [getRun_eq]
  refine collect_invariant (f := acceptedAt)
    (I := fun is _ s _ => s.status = .running → ∀ src, lastSource is = some src →
      s.fromAddr = src) ?_ ?_ rs
  · intro _ src hsrc
    cases hsrc
  · intro is _ s _ r ih hstatus src hsrc
    rw [lastSource_concat] at hsrc
    by_cases hrun : s.status = .running
    · cases r with
      | timedOut =>
        rw [getStep_timedOut hrun, getTimeout]
        have haddr := ih hrun src hsrc
        split_ifs
        · exact haddr
        · exact haddr
      | failed =>
        rw [getStep_failed hrun] at hstatus
        cases hstatus
      | datagram from_ data =>
        obtain rfl := Option.some.inj hsrc
        by_cases hlen : data.length ≤ bufferSize
        · rw [getStep_datagram hrun from_ hlen, getDatagram_fromAddr]
          rfl
        · rw [getStep_tooLong hrun from_ (Nat.lt_of_not_le hlen)] at hstatus
          cases hstatus
    · rw [getStep_of_not_running hrun] at hstatus
      exact absurd hstatus hrun

theorem ackPacket_ne_requestPacket (v opcode : UInt16) (remoteFile : Bytes) :
    ackPacket v ≠ requestPacket opcode remoteFile := by
  intro h
  have hlen := congrArg List.length h
  rw [length_requestPacket] at hlen
  have hack : (ackPacket v).length = 4 := rfl
  omega

/-- A timeout repeats the right acknowledgement exactly if a block was accepted
and no datagram from elsewhere has come since. -/
theorem repeats_iff (q : Request) (uninit : Bytes) (uninitAddr : SockAddr) (rs : List RecvResult)
    (hrun : (getRun (getStart q uninit uninitAddr) rs).1.status = .running)
    (hretry : (getRun (getStart q uninit uninitAddr) rs).1.retries < maxRetries) :
    Repeats q rs (accepted (getStart q uninit uninitAddr) rs)
        (getRun (getStart q uninit uninitAddr) rs).1 ↔
      ∃ b, (accepted (getStart q uninit uninitAddr) rs).getLast? = some b ∧
        lastSource rs = some b.src := by
  have h := get_history q uninit uninitAddr rs
  have haddr := fromAddr_eq q uninit uninitAddr rs hrun
  obtain ⟨bs, hbs⟩ : ∃ bs, bs = accepted (getStart q uninit uninitAddr) rs := ⟨_, rfl⟩
  obtain ⟨s, hs⟩ : ∃ s, s = (getRun (getStart q uninit uninitAddr) rs).1 := ⟨_, rfl⟩
  rw [← hbs, ← hs] at h
  rw [← hs] at hrun hretry haddr
  rw [← hs, ← hbs, Repeats, getStep_timedOut hrun, getTimeout, if_pos hretry, sendto_ackPacket]
  dsimp only
  have hnumber : ∀ b, bs.getLast? = some b → s.expectedBlock - 1 = b.number := by
    intro b hb
    rw [h.last_number hb, h.expectedBlock, UInt16.ofNat_add]
    exact UInt16.add_sub_cancel _ _
  cases hsource : lastSource rs with
  | none =>
    refine iff_of_false (fun hsame => ?_) fun hlast => ?_
    · rw [List.cons.injEq, Effect.sendto.injEq] at hsame
      exact ackPacket_ne_requestPacket _ _ _ hsame.1.2
    · obtain ⟨b, -, hb⟩ := hlast
      cases hb
  | some src =>
    rw [haddr src hsource]
    dsimp only
    refine exists_congr fun b => and_congr_right fun hb => ?_
    rw [hnumber b hb, List.cons.injEq, Effect.sendto.injEq, Option.some.injEq]
    exact ⟨fun hall => hall.1.1, fun hsrc => ⟨⟨hsrc, rfl⟩, rfl⟩⟩

/-- A block, and a timeout behind it. -/
theorem repeats_first_block :
    Repeats oneLetter (fullBlocks 1)
      (accepted (getStart oneLetter [] { ip := 0, port := 0 }) (fullBlocks 1))
      (getRun (getStart oneLetter [] { ip := 0, port := 0 }) (fullBlocks 1)).1 := by
  obtain ⟨hrun, hlen⟩ := run_fullBlocks oneLetter [] { ip := 0, port := 0 } 1
  obtain ⟨b, hb⟩ := getLast?_of_length_pos (hlen ▸ Nat.one_pos)
  refine (repeats_iff oneLetter [] { ip := 0, port := 0 } _ hrun (by decide +kernel)).mpr
    ⟨b, hb, ?_⟩
  obtain ⟨packet, hpacket⟩ : ∃ packet,
      fullBlocks 1 = [.datagram { ip := 1, port := 1069 } packet] := ⟨_, rfl⟩
  have hmem := List.mem_of_getElem? (accepted_received (List.mem_of_getLast? hb))
  rw [hpacket, List.mem_singleton, RecvResult.datagram.injEq] at hmem
  rw [hpacket, hmem.1]
  rfl

/-- Nothing has come, and the acknowledgement goes to an address that was never
set. -/
theorem repeats_fails :
    ¬ ∀ (q : Request) (uninit : Bytes) (uninitAddr : SockAddr) (rs : List RecvResult),
      (getRun (getStart q uninit uninitAddr) rs).1.status = .running →
      (getRun (getStart q uninit uninitAddr) rs).1.retries < maxRetries →
      Repeats q rs (accepted (getStart q uninit uninitAddr) rs)
        (getRun (getStart q uninit uninitAddr) rs).1 := by
  intro h
  have hsame := h oneLetter [] { ip := 0, port := 0 } [] rfl (by decide)
  have hsent : [Effect.sendto { ip := 0, port := 0 } (ackPacket 0)] =
      [Effect.sendto oneLetter.serverAddr (requestPacket opRrq oneLetter.remoteFile)] := hsame
  exact absurd hsent (by decide)

end Tftp
end NetLab
