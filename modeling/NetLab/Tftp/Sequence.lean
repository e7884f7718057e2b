import NetLab.Tftp.Accepted
import NetLab.Tftp.Upload

/-!
# The blocks that `tftp_put` sends

The DATA datagrams that leave when an acknowledgement comes, each with the
datagram it answers, and what holds of them and of the variables after any
sequence of events.
-/

namespace NetLab
namespace Tftp

open History Insertion Blocks

/-- A datagram that was sent because another one came. -/
structure Answer where
  ack : Arrival
  dst : SockAddr
  packet : Bytes
  deriving DecidableEq, Repr

/-- The file bytes of the datagram. -/
def Answer.payload (a : Answer) : Bytes := a.packet.drop 4

/-- What leaves because of the datagram of event `n`. -/
def answersAt (q : Request) (n : Nat) (s : PutState) : RecvResult → List Answer
  | .datagram src data =>
    (sends (putStep q s (.datagram src data)).2).map fun m => ⟨⟨n, src, data⟩, m.1, m.2⟩
  | _ => []

/-- All that was sent in answer to a datagram, in order. -/
def answers (q : Request) (s : PutState) (rs : List RecvResult) : List Answer :=
  collect (putStep q) (answersAt q) 0 s rs

/-! ## What one step can do -/

/-- The outcomes of an iteration: the next block is read, or no datagram is
answered and the block variables stay. -/
inductive PutOutcome (s : PutState) (r : RecvResult) (out : PutState × List Effect) : Prop
  | idle (sent : ∀ src data, r = .datagram src data → sends out.2 = [])
      (blockNum : out.1.blockNum = s.blockNum) (rest : out.1.rest = s.rest)
      (final : out.1.final = s.final)
  | next (src : SockAddr) (data : Bytes) (event : r = .datagram src data)
      (final : s.final = false)
      (opcode : ntohs (store data s.buffer) 0 = opAck)
      (number : ntohs (store data s.buffer) 2 = s.blockNum)
      (out_eq : out = putNext (s.receive src data))

theorem putTimeout_outcome (q : Request) (s : PutState) :
    PutOutcome s .timedOut (putTimeout q s) := by
  rw [putTimeout]
  by_cases hmore : s.retries < maxRetries
  · rw [if_pos hmore]
    exact .idle (fun _ _ h => by cases h) rfl rfl rfl
  · rw [if_neg hmore]
    exact .idle (fun _ _ h => by cases h) rfl rfl rfl

/-- All that an iteration can do. -/
theorem putStep_outcome (q : Request) {s : PutState} (hrun : s.status = .running)
    (r : RecvResult) : PutOutcome s r (putStep q s r) := by
  cases hf : s.final with
  | true =>
    rw [putStep_final hrun hf]
    have h := putFinal_finished s r
    exact .idle (fun _ _ _ => sends_putFinal s r) h.blockNum h.rest h.final
  | false =>
    cases r with
    | timedOut =>
      rw [putStep_timedOut hrun hf]
      exact putTimeout_outcome q s
    | failed =>
      rw [putStep_failed hrun hf]
      exact .idle (fun _ _ h => by cases h) rfl rfl rfl
    | datagram src data =>
      by_cases hlen : data.length ≤ bufferSize
      · rw [putStep_datagram hrun hf src hlen, putDatagram]
        by_cases herror : ntohs (s.receive src data).buffer 0 = opError
        · rw [if_pos herror]
          exact .idle (fun _ _ _ => rfl) rfl rfl rfl
        · rw [if_neg herror]
          by_cases hop : ntohs (s.receive src data).buffer 0 = opAck
          · rw [if_pos hop]
            by_cases hnum : ntohs (s.receive src data).buffer 2 = (s.receive src data).blockNum
            · rw [if_pos hnum]
              exact .next src data rfl hf hop hnum rfl
            · rw [if_neg hnum]
              exact .idle (fun _ _ _ => rfl) rfl rfl rfl
          · rw [if_neg hop]
            exact .idle (fun _ _ _ => rfl) rfl rfl rfl
      · rw [putStep_tooLong hrun hf src (Nat.lt_of_not_le hlen)]
        exact .idle (fun _ _ _ => rfl) rfl rfl rfl

theorem answersAt_nil {q : Request} {n : Nat} {s : PutState} {r : RecvResult}
    (h : ∀ src data, r = .datagram src data → sends (putStep q s r).2 = []) :
    answersAt q n s r = [] := by
  cases r with
  | timedOut => rfl
  | failed => rfl
  | datagram src data =>
    rw [answersAt, h src data rfl]
    rfl

/-! ## What holds after any sequence of events -/

/-- The state after `k` reads, and the answers so far. -/
structure PutHistory (file : Bytes) (k : Nat) (as : List Answer) (s : PutState) : Prop where
  blockNum : s.blockNum = UInt16.ofNat k
  rest : s.rest = file.drop (blockSize * k)
  final : s.final = decide (blockCount file ≤ k)
  count : as.length = min k (putCount file)
  packet : ∀ i a, as[i]? = some a → a.packet = blockDatagram file (i + 1)
  header : ∀ i a, as[i]? = some a → 4 ≤ a.ack.data.length →
    ntohs a.ack.data 0 = opAck ∧ ntohs a.ack.data 2 = UInt16.ofNat i

theorem PutHistory.start (q : Request) (file uninit : Bytes) (uninitAddr : SockAddr) :
    PutHistory file 0 [] (putStart q file uninit uninitAddr) where
  blockNum := rfl
  rest := rfl
  final := (decide_eq_false (Nat.not_le.mpr (blockCount_pos file))).symm
  count := (Nat.zero_min _).symm
  packet i a ha := by cases ha
  header i a ha := by cases ha

namespace PutHistory

variable {q : Request} {file : Bytes} {k : Nat} {as : List Answer} {s s' : PutState}

theorem idle (h : PutHistory file k as s) (hnum : s'.blockNum = s.blockNum)
    (hrest : s'.rest = s.rest) (hfinal : s'.final = s.final) : PutHistory file k as s' :=
  { h with
    blockNum := hnum.trans h.blockNum
    rest := hrest.trans h.rest
    final := hfinal.trans h.final }

/-- Before the last read every block that was read has been sent. -/
theorem length_eq (h : PutHistory file k as s) (hf : s.final = false) : as.length = k := by
  have hlt : ¬ blockCount file ≤ k := of_decide_eq_false (h.final.symm.trans hf)
  have hcount := blockCount_le_putCount_succ file
  rw [h.count]
  omega

theorem next (h : PutHistory file k as s) (n : Nat) (src : SockAddr)
    (data : Bytes) (hf : s.final = false) (hop : ntohs (store data s.buffer) 0 = opAck)
    (hnum : ntohs (store data s.buffer) 2 = s.blockNum)
    (hout : putStep q s (.datagram src data) = putNext (s.receive src data)) :
    PutHistory file (k + 1) (as ++ answersAt q n s (.datagram src data))
      (putStep q s (.datagram src data)).1 := by
  have hlen := h.length_eq hf
  have hnext := putNext_eq (s := s.receive src data) h.blockNum h.rest
  have hsent : answersAt q n s (.datagram src data) =
      if k < putCount file then [⟨⟨n, src, data⟩, src, blockDatagram file (k + 1)⟩] else [] := by
    rw [answersAt, hout, hnext]
    by_cases hk : k < putCount file
    · simp only [if_pos hk]
      rfl
    · simp only [if_neg hk]
      rfl
  have hheader : 4 ≤ data.length → ntohs data 0 = opAck ∧ ntohs data 2 = UInt16.ofNat k := by
    intro hfour
    obtain ⟨hopcode, hnumber⟩ := ntohs_store hfour s.buffer
    rw [← hopcode, ← hnumber]
    exact ⟨hop, hnum.trans h.blockNum⟩
  have hstate : (putStep q s (.datagram src data)).1.blockNum = UInt16.ofNat (k + 1) ∧
      (putStep q s (.datagram src data)).1.rest = file.drop (blockSize * (k + 1)) ∧
      (putStep q s (.datagram src data)).1.final = decide (blockCount file ≤ k + 1) := by
    rw [hout, hnext]
    exact ⟨rfl, rfl, rfl⟩
  rw [hsent]
  by_cases hk : k < putCount file
  · rw [if_pos hk]
    refine ⟨hstate.1, hstate.2.1, hstate.2.2, ?_, ?_, ?_⟩
    · rw [List.length_append, hlen, List.length_singleton]
      omega
    · refine forall_concat h.packet ?_
      rw [hlen]
    · refine forall_concat h.header ?_
      rw [hlen]
      exact hheader
  · rw [if_neg hk, List.append_nil]
    refine ⟨hstate.1, hstate.2.1, hstate.2.2, ?_, h.packet, h.header⟩
    have hcount := h.count
    omega

/-- One event, whatever it is. -/
theorem step (h : PutHistory file k as s) (q : Request) (n : Nat) (r : RecvResult) :
    ∃ k', PutHistory file k' (as ++ answersAt q n s r) (putStep q s r).1 := by
  by_cases hrun : s.status = .running
  · cases putStep_outcome q hrun r with
    | idle sent blockNum rest final =>
      rw [answersAt_nil sent, List.append_nil]
      exact ⟨k, h.idle blockNum rest final⟩
    | next src data event final opcode number out_eq =>
      subst event
      exact ⟨k + 1, h.next n src data final opcode number out_eq⟩
  · have hstays := putStep_of_not_running (q := q) hrun r
    rw [answersAt_nil (by intro _ _ _; rw [hstays]; rfl), hstays, List.append_nil]
    exact ⟨k, h⟩

end PutHistory

/-- In every reachable state. -/
theorem put_history (q : Request) (file uninit : Bytes) (uninitAddr : SockAddr)
    (rs : List RecvResult) :
    ∃ k, PutHistory file k (answers q (putStart q file uninit uninitAddr) rs)
      (putRun q (putStart q file uninit uninitAddr) rs).1 := by
  apply collect_invariant (I := fun _ as s _ => ∃ k, PutHistory file k as s)
  · exact ⟨0, .start q file uninit uninitAddr⟩
  · intro is as s es r h
    obtain ⟨k, h⟩ := h
    exact h.step q is.length r

theorem answersAt_mem {q : Request} {n : Nat} {s : PutState} {r : RecvResult} {a : Answer}
    (h : a ∈ answersAt q n s r) : a.ack.event = n ∧ r = .datagram a.ack.src a.ack.data := by
  cases r with
  | timedOut => cases h
  | failed => cases h
  | datagram src data =>
    obtain ⟨m, -, rfl⟩ := List.mem_map.mp h
    exact ⟨rfl, rfl⟩

theorem sends_putNext_length_le (s : PutState) : (sends (putNext s).2).length ≤ 1 := by
  rw [putNext]
  dsimp only
  split_ifs
  · rw [sendto, if_neg (by omega)]
    exact Nat.le_refl 1
  · exact Nat.zero_le 1

/-- No datagram is answered twice. -/
theorem answersAt_length_le (q : Request) (n : Nat) (s : PutState) (r : RecvResult) :
    (answersAt q n s r).length ≤ 1 := by
  by_cases hrun : s.status = .running
  · cases putStep_outcome q hrun r with
    | idle sent blockNum rest final =>
      rw [answersAt_nil sent]
      exact Nat.zero_le 1
    | next src data event final opcode number out_eq =>
      subst event
      rw [answersAt, out_eq, List.length_map]
      exact sends_putNext_length_le _
  · have hstays := putStep_of_not_running (q := q) hrun r
    rw [answersAt_nil (by intro _ _ _; rw [hstays]; rfl)]
    exact Nat.zero_le 1

/-- The datagram that was answered is one of those received. -/
theorem answers_received {q : Request} {s : PutState} {rs : List RecvResult} {a : Answer}
    (h : a ∈ answers q s rs) : rs[a.ack.event]? = some (.datagram a.ack.src a.ack.data) := by
  obtain ⟨k, r, hk, ha⟩ := mem_collect h
  obtain ⟨hevent, hr⟩ := answersAt_mem ha
  rw [Nat.zero_add] at hevent
  rw [hevent, hk, hr]

theorem answers_inOrder (q : Request) (s : PutState) (rs : List RecvResult) :
    (answers q s rs).Pairwise (·.ack.event < ·.ack.event) :=
  pairwise_collect (fun _ _ _ _ ha => (answersAt_mem ha).1) (answersAt_length_le q) 0 s rs

/-! ## The file in the order of its blocks -/

/-- The answers `as` of a run over the events `rs` are the blocks of the file in
order, each sent when the acknowledgement of the one before came, and what has
not been sent has not been read. -/
structure Sequenced (file : Bytes) (rs : List RecvResult) (as : List Answer) (s : PutState) :
    Prop where
  packet : ∀ i a, as[i]? = some a → a.packet = dataPacket (UInt16.ofNat (i + 1))
    ((file.take (blockSize * (i + 1))).drop (blockSize * i))
  acked : ∀ i a, as[i]? = some a → rs[a.ack.event]? = some (.datagram a.ack.src a.ack.data) ∧
    ntohs a.ack.data 0 = opAck ∧ ntohs a.ack.data 2 = UInt16.ofNat i
  inOrder : as.Pairwise (·.ack.event < ·.ack.event)
  isPrefix : (as.map Answer.payload).flatten <+: file
  unread : (as.map Answer.payload).flatten ++ s.rest = file

theorem fileBlock_eq (file : Bytes) (i : Nat) :
    fileBlock file (i + 1) = (file.take (blockSize * (i + 1))).drop (blockSize * i) := by
  rw [fileBlock, block, Nat.add_sub_cancel, List.drop_take, Nat.mul_succ, Nat.add_sub_cancel_left]

/-- The payloads so far, and what is left of the file. -/
theorem PutHistory.payloads {file : Bytes} {k : Nat} {as : List Answer} {s : PutState}
    (h : PutHistory file k as s) :
    (as.map Answer.payload).flatten = file.take (blockSize * as.length) ∧
      (as.map Answer.payload).flatten ++ s.rest = file := by
  have hblocks : as.map Answer.payload = blocks blockSize file as.length := by
    apply List.ext_getElem?
    intro i
    rw [List.getElem?_map]
    rcases Nat.lt_or_ge i as.length with hlt | hge
    · have hi : as[i]? = some as[i] := List.getElem?_eq_getElem hlt
      have hpacket := h.packet i _ hi
      rw [hi, blocks, List.getElem?_map, List.getElem?_range hlt]
      show some (as[i].packet.drop 4) = some (block blockSize file i)
      rw [hpacket, blockDatagram, (ntohs_dataPacket _ _).2.2]
      rfl
    · rw [List.getElem?_eq_none hge, List.getElem?_eq_none (by rw [length_blocks]; exact hge)]
      rfl
  have htake : (as.map Answer.payload).flatten = file.take (blockSize * as.length) := by
    rw [hblocks, flatten_blocks]
  refine ⟨htake, ?_⟩
  rw [htake, h.rest]
  have hcount := h.count
  rcases Nat.le_total k (putCount file) with hle | hge
  · rw [show as.length = k by omega]
    exact List.take_append_drop _ _
  · -- The read at the end of the file delivered nothing.
    have hb : blockSize = 512 := rfl
    have hall : file.length ≤ blockSize * putCount file := by
      rw [putCount, hb]
      omega
    have hmore : blockSize * putCount file ≤ blockSize * k := Nat.mul_le_mul_left _ hge
    rw [show as.length = putCount file by omega, List.take_of_length_le hall,
      List.drop_eq_nil_of_le (hall.trans hmore), List.append_nil]

theorem put_sequenced (q : Request) (file uninit : Bytes) (uninitAddr : SockAddr)
    (rs : List RecvResult) (hrs : ∀ r ∈ rs, r.Regular) :
    Sequenced file rs (answers q (putStart q file uninit uninitAddr) rs)
      (putRun q (putStart q file uninit uninitAddr) rs).1 := by
  obtain ⟨k, h⟩ := put_history q file uninit uninitAddr rs
  obtain ⟨htake, hall⟩ := h.payloads
  refine ⟨?_, ?_, answers_inOrder q _ rs, ?_, hall⟩
  · intro i a ha
    rw [h.packet i a ha, blockDatagram, fileBlock_eq]
  · intro i a ha
    have hreceived := answers_received (List.mem_of_getElem? ha)
    exact ⟨hreceived, h.header i a ha (hrs _ (List.mem_of_getElem? hreceived)).1⟩
  · rw [htake]
    exact List.take_prefix _ _

/-- A file of one byte, requested and acknowledged. -/
theorem put_sequenced_one_byte :
    Sequenced [7] [.datagram { ip := 1, port := 1069 } (ackPacket 0)]
      [⟨⟨0, { ip := 1, port := 1069 }, ackPacket 0⟩, { ip := 1, port := 1069 }, dataPacket 1 [7]⟩]
      (putRun oneLetter (putStart oneLetter [7] [] { ip := 0, port := 0 })
        [.datagram { ip := 1, port := 1069 } (ackPacket 0)]).1 := by
  refine put_sequenced oneLetter [7] [] { ip := 0, port := 0 } _ ?_
  intro r hr
  obtain rfl := List.mem_singleton.mp hr
  exact ⟨by decide, by decide⟩

end Tftp
end NetLab
