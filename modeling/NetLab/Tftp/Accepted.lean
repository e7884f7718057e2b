import NetLab.Library.History
import NetLab.Tftp.Outsiders

/-!
# The blocks that `tftp_get` accepts

The datagrams that made the loop write to the local file, in order, and what
holds of them, of the variables and of the acknowledgements after any sequence
of events.
-/

namespace NetLab
namespace Tftp

open History Insertion

/-- A datagram with its place among the events. -/
structure Arrival where
  event : Nat
  src : SockAddr
  data : Bytes
  deriving DecidableEq, Repr

/-- What `fwrite` gets of a DATA datagram. -/
def Arrival.payload (b : Arrival) : Bytes := b.data.drop 4

/-- The block number in the header. -/
def Arrival.number (b : Arrival) : UInt16 := ntohs b.data 2

def Effect.isWrite : Effect → Bool
  | .fwrite _ => true
  | _ => false

/-- The datagram of event `n`, when the loop writes to the file because of it. -/
def acceptedAt (n : Nat) (s : GetState) : RecvResult → List Arrival
  | .datagram src data =>
    if (getStep s (.datagram src data)).2.any Effect.isWrite then [⟨n, src, data⟩] else []
  | _ => []

/-- The datagrams that were accepted, in the order in which they came. -/
def accepted (s : GetState) (rs : List RecvResult) : List Arrival :=
  collect getStep acceptedAt 0 s rs

/-- Each datagram sent is the ACK of a block that is written by then, or of the
zeroth one.  `n` blocks are written before. -/
def AcksBehind : Nat → List Effect → Prop
  | _, [] => True
  | n, .fwrite _ :: es => AcksBehind (n + 1) es
  | n, .sendto _ packet :: es =>
    (∃ j, j ≤ n ∧ packet = ackPacket (UInt16.ofNat j)) ∧ AcksBehind n es
  | n, .transferComplete :: es => AcksBehind n es

/-! ## What one step can do -/

/-- The outcomes of an iteration: nothing but a change of status, an ACK of an
earlier block, or the next block written and acknowledged. -/
inductive GetOutcome (s : GetState) (r : RecvResult) (out : GetState × List Effect) : Prop
  | silent (effects : out.2 = []) (writes : out.1.writes = s.writes)
      (expectedBlock : out.1.expectedBlock = s.expectedBlock)
  | acked (dst : SockAddr) (v : UInt16) (effects : out.2 = [.sendto dst (ackPacket v)])
      (writes : out.1.writes = s.writes) (expectedBlock : out.1.expectedBlock = s.expectedBlock)
      (number : v = s.expectedBlock - 1 ∨ v < s.expectedBlock)
  | written (src : SockAddr) (data : Bytes) (event : r = .datagram src data)
      (header : 4 ≤ data.length ∧ ntohs data 0 = opData ∧ ntohs data 2 = s.expectedBlock)
      (size : (data.drop 4).length ≤ blockSize)
      (effects : out.2 = .fwrite (data.drop 4) :: .sendto src (ackPacket s.expectedBlock) ::
        if (data.drop 4).length < blockSize then [.transferComplete] else [])
      (writes : out.1.writes = s.writes ++ [data.drop 4])
      (expectedBlock : out.1.expectedBlock = s.expectedBlock + 1)
      (status : out.1.status = if (data.drop 4).length < blockSize then .returned 0 else .running)

/-- A datagram that is long enough has its header to itself. -/
theorem ntohs_store {data : Bytes} (h : 4 ≤ data.length) (buffer : Bytes) :
    ntohs (store data buffer) 0 = ntohs data 0 ∧ ntohs (store data buffer) 2 = ntohs data 2 := by
  apply ntohs_of_take
  rw [store, List.take_append_of_le_length h]

theorem getStep_tooLong {s : GetState} (hrun : s.status = .running) (src : SockAddr) {data : Bytes}
    (hlen : bufferSize < data.length) :
    getStep s (.datagram src data) = ({ s with status := .returned (-1) }, []) := by
  rw [getStep, if_pos hrun]
  exact if_pos hlen

theorem getTimeout_outcome (s : GetState) : GetOutcome s .timedOut (getTimeout s) := by
  rw [getTimeout]
  by_cases hmore : s.retries < maxRetries
  · rw [if_pos hmore]
    exact .acked s.fromAddr (s.expectedBlock - 1) rfl rfl rfl (.inl rfl)
  · rw [if_neg hmore]
    exact .silent rfl rfl rfl

theorem getData_outcome {s : GetState} (hrun : s.status = .running) (src : SockAddr) {data : Bytes}
    (hlen : data.length ≤ bufferSize)
    (hop : ntohs (s.receive src data).buffer 0 = opData) :
    GetOutcome s (.datagram src data) (getData (s.receive src data) data.length) := by
  obtain ⟨t, ht⟩ : ∃ t, t = s.receive src data := ⟨_, rfl⟩
  have hbuffer : t.buffer = store data s.buffer := by rw [ht]; rfl
  have haddr : t.fromAddr = src := by rw [ht]; rfl
  have hwrites : t.writes = s.writes := by rw [ht]; rfl
  have hexpected : t.expectedBlock = s.expectedBlock := by rw [ht]; rfl
  have hstatus : t.status = .running := by rw [ht]; exact hrun
  rw [← ht] at hop ⊢
  rw [getData]
  by_cases hnum : ntohs t.buffer 2 = t.expectedBlock
  · rw [if_pos hnum]
    by_cases hshort : (data.length : Int) - 4 < 0
    · rw [if_pos hshort]
      exact .silent rfl hwrites hexpected
    · have hfour : 4 ≤ data.length := by omega
      obtain ⟨hopcode, hnumber⟩ := ntohs_store hfour s.buffer
      have hpayload : (t.buffer.drop 4).take ((data.length : Int) - 4).toNat = data.drop 4 := by
        rw [hbuffer, payload_store]
      have hsize : (data.drop 4).length = data.length - 4 := List.length_drop
      have hmax : bufferSize = 516 ∧ blockSize = 512 := ⟨rfl, rfl⟩
      rw [hbuffer] at hop hnum
      rw [if_neg hshort]
      dsimp only
      rw [hpayload, hbuffer, hnum, haddr, hwrites, sendto_ackPacket]
      by_cases hlast : (data.length : Int) - 4 < blockSize
      · have hlt : (data.drop 4).length < blockSize := by omega
        rw [if_pos hlast]
        refine .written src data rfl ⟨hfour, hopcode ▸ hop, ?_⟩ (by omega) ?_ rfl ?_ ?_
        · rw [← hnumber, hnum, hexpected]
        · rw [if_pos hlt, ← hexpected]
          rfl
        · exact congrArg (· + 1) hexpected
        · rw [if_pos hlt]
      · have hge : ¬ (data.drop 4).length < blockSize := by omega
        rw [if_neg hlast]
        refine .written src data rfl ⟨hfour, hopcode ▸ hop, ?_⟩ (by omega) ?_ rfl ?_ ?_
        · rw [← hnumber, hnum, hexpected]
        · rw [if_neg hge, ← hexpected]
        · exact congrArg (· + 1) hexpected
        · rw [if_neg hge]
          exact hstatus
  · rw [if_neg hnum]
    by_cases hlt : ntohs t.buffer 2 < t.expectedBlock
    · rw [if_pos hlt, sendto_ackPacket]
      exact .acked t.fromAddr _ rfl hwrites hexpected (.inr (hexpected ▸ hlt))
    · rw [if_neg hlt]
      exact .silent rfl hwrites hexpected

/-- All that an iteration can do. -/
theorem getStep_outcome {s : GetState} (hrun : s.status = .running) (r : RecvResult) :
    GetOutcome s r (getStep s r) := by
  cases r with
  | timedOut =>
    rw [getStep_timedOut hrun]
    exact getTimeout_outcome s
  | failed =>
    rw [getStep_failed hrun]
    exact .silent rfl rfl rfl
  | datagram src data =>
    by_cases hlen : data.length ≤ bufferSize
    · rw [getStep_datagram hrun src hlen, getDatagram]
      by_cases herror : ntohs (s.receive src data).buffer 0 = opError
      · rw [if_pos herror]
        exact .silent rfl rfl rfl
      · rw [if_neg herror]
        by_cases hop : ntohs (s.receive src data).buffer 0 = opData
        · rw [if_pos hop]
          exact getData_outcome hrun src hlen hop
        · rw [if_neg hop]
          exact .silent rfl rfl rfl
    · rw [getStep_tooLong hrun src (Nat.lt_of_not_le hlen)]
      exact .silent rfl rfl rfl

/-- What an outcome adds to the accepted datagrams. -/
theorem acceptedAt_written {n : Nat} {s : GetState} {src : SockAddr} {data : Bytes}
    {es : List Effect}
    (h : (getStep s (.datagram src data)).2 = .fwrite (data.drop 4) :: es) :
    acceptedAt n s (.datagram src data) = [⟨n, src, data⟩] := by
  rw [acceptedAt, h]
  rfl

theorem acceptedAt_nil {n : Nat} {s : GetState} {r : RecvResult}
    (h : (getStep s r).2.any Effect.isWrite = false) : acceptedAt n s r = [] := by
  cases r with
  | timedOut => rfl
  | failed => rfl
  | datagram src data =>
    rw [acceptedAt, h]
    rfl

/-! ## What holds after any sequence of events -/

theorem AcksBehind.append {n : Nat} {es more : List Effect} (h : AcksBehind n es)
    (hmore : AcksBehind (n + es.countP Effect.isWrite) more) : AcksBehind n (es ++ more) := by
  induction es generalizing n with
  | nil => exact hmore
  | cons e es ih =>
    cases e with
    | sendto dst packet => exact ⟨h.1, ih h.2 hmore⟩
    | transferComplete => exact ih h hmore
    | fwrite data =>
      have hcount : n + (Effect.fwrite data :: es).countP Effect.isWrite =
          n + 1 + es.countP Effect.isWrite := by
        rw [List.countP_cons_of_pos rfl]
        omega
      exact ih (show AcksBehind (n + 1) es from h) (hcount ▸ hmore)

/-- The accepted datagrams against the variables and the effects. -/
structure GetHistory (bs : List Arrival) (s : GetState) (es : List Effect) : Prop where
  writes : s.writes = bs.map Arrival.payload
  count : es.countP Effect.isWrite = bs.length
  numbered : ∀ i b, bs[i]? = some b →
    4 ≤ b.data.length ∧ ntohs b.data 0 = opData ∧ b.number = UInt16.ofNat (i + 1)
  full : ∀ b ∈ bs.dropLast, b.payload.length = blockSize
  last : ∀ b, bs.getLast? = some b → b.payload.length ≤ blockSize ∧
    (b.payload.length < blockSize → s.status = .returned 0)
  expectedBlock : s.expectedBlock = UInt16.ofNat (bs.length + 1)
  acks : AcksBehind 0 es

theorem GetHistory.start (q : Request) (uninit : Bytes) (uninitAddr : SockAddr) :
    GetHistory [] (getStart q uninit uninitAddr) [] where
  writes := rfl
  count := rfl
  numbered i b hb := by cases hb
  full b hb := by cases hb
  last b hb := by cases hb
  expectedBlock := rfl
  acks := trivial

namespace GetHistory

variable {bs : List Arrival} {s s' : GetState} {es : List Effect}

/-- While the loop runs no accepted block was short. -/
theorem all_full (h : GetHistory bs s es) (hrun : s.status = .running) :
    ∀ b ∈ bs, b.payload.length = blockSize := by
  intro b hb
  rcases List.eq_nil_or_concat' bs with rfl | ⟨cs, c, rfl⟩
  · cases hb
  · rcases List.mem_append.mp hb with hb | hb
    · exact h.full b (by rwa [List.dropLast_concat])
    · obtain rfl := List.mem_singleton.mp hb
      obtain ⟨hle, hshort⟩ := h.last b List.getLast?_concat
      by_contra hne
      have hstatus := hshort (by omega)
      rw [hrun] at hstatus
      cases hstatus

/-- A step without effect. -/
theorem silent (h : GetHistory bs s es) (hrun : s.status = .running)
    (hwrites : s'.writes = s.writes) (hexpected : s'.expectedBlock = s.expectedBlock) :
    GetHistory bs s' es := by
  refine { h with writes := hwrites.trans h.writes, last := ?_,
                  expectedBlock := hexpected.trans h.expectedBlock }
  intro b hb
  have hfull := h.all_full hrun b (List.mem_of_getLast? hb)
  exact ⟨hfull.le, fun hlt => absurd hfull (Nat.ne_of_lt hlt)⟩

/-- The number of an ACK is that of a block behind it. -/
theorem number_behind (h : GetHistory bs s es) {v : UInt16}
    (hv : v = s.expectedBlock - 1 ∨ v < s.expectedBlock) :
    ∃ j, j ≤ bs.length ∧ v = UInt16.ofNat j := by
  rw [h.expectedBlock] at hv
  rcases hv with rfl | hlt
  · refine ⟨bs.length, Nat.le_refl _, ?_⟩
    rw [UInt16.ofNat_add]
    exact UInt16.add_sub_cancel _ _
  · -- After a wrap every number is that of some block.
    have hnat : v.toNat < (bs.length + 1) % 65536 := UInt16.lt_iff_toNat_lt.mp hlt
    have hmod := Nat.mod_le (bs.length + 1) 65536
    exact ⟨v.toNat, by omega, UInt16.ofNat_toNat.symm⟩

theorem acked (h : GetHistory bs s es) (hrun : s.status = .running) {dst : SockAddr} {v : UInt16}
    (hwrites : s'.writes = s.writes) (hexpected : s'.expectedBlock = s.expectedBlock)
    (hv : v = s.expectedBlock - 1 ∨ v < s.expectedBlock) :
    GetHistory bs s' (es ++ [.sendto dst (ackPacket v)]) := by
  have hsilent := h.silent hrun hwrites hexpected
  obtain ⟨j, hj, rfl⟩ := h.number_behind hv
  refine { hsilent with count := ?_, acks := ?_ }
  · rw [List.countP_append, h.count]
    rfl
  · refine h.acks.append ⟨⟨j, ?_, rfl⟩, trivial⟩
    rw [h.count, Nat.zero_add]
    exact hj

theorem written (h : GetHistory bs s es) (hrun : s.status = .running) (b : Arrival)
    (hheader : 4 ≤ b.data.length ∧ ntohs b.data 0 = opData ∧ b.number = s.expectedBlock)
    (hsize : b.payload.length ≤ blockSize)
    (hwrites : s'.writes = s.writes ++ [b.payload])
    (hexpected : s'.expectedBlock = s.expectedBlock + 1)
    (hstatus : s'.status = if b.payload.length < blockSize then .returned 0 else .running) :
    GetHistory (bs ++ [b]) s'
      (es ++ .fwrite b.payload :: .sendto b.src (ackPacket s.expectedBlock) ::
      if b.payload.length < blockSize then [.transferComplete] else []) where
  writes := by
    rw [hwrites, h.writes, List.map_append]
    rfl
  count := by
    rw [List.countP_append, h.count, List.length_append, List.length_singleton]
    split_ifs
    · rfl
    · rfl
  numbered := forall_concat h.numbered (h.expectedBlock ▸ hheader)
  full c hc := by
    rw [List.dropLast_concat] at hc
    exact h.all_full hrun c hc
  last c hc := by
    rw [List.getLast?_concat, Option.some.injEq] at hc
    subst hc
    refine ⟨hsize, fun hlt => ?_⟩
    rw [hstatus, if_pos hlt]
  expectedBlock := by
    rw [hexpected, h.expectedBlock, List.length_append]
    exact (UInt16.ofNat_add (bs.length + 1) 1).symm
  acks := by
    have hlast : ∃ j, j ≤ 0 + es.countP Effect.isWrite + 1 ∧
        ackPacket s.expectedBlock = ackPacket (UInt16.ofNat j) := by
      refine ⟨bs.length + 1, ?_, by rw [h.expectedBlock]⟩
      rw [h.count]
      omega
    refine h.acks.append ⟨hlast, ?_⟩
    split_ifs
    · trivial
    · trivial

/-- One event, whatever it is. -/
theorem step (h : GetHistory bs s es) (n : Nat) (r : RecvResult) :
    GetHistory (bs ++ acceptedAt n s r) (getStep s r).1 (es ++ (getStep s r).2) := by
  by_cases hrun : s.status = .running
  · cases getStep_outcome hrun r with
    | silent effects writes expectedBlock =>
      rw [acceptedAt_nil (by rw [effects]; rfl), effects, List.append_nil, List.append_nil]
      exact h.silent hrun writes expectedBlock
    | acked dst v effects writes expectedBlock number =>
      rw [acceptedAt_nil (by rw [effects]; rfl), effects, List.append_nil]
      exact h.acked hrun writes expectedBlock number
    | written src data event header size effects writes expectedBlock status =>
      subst event
      rw [acceptedAt_written effects, effects]
      exact h.written hrun ⟨n, src, data⟩ header size writes expectedBlock status
  · have hstays := getStep_of_not_running hrun r
    rw [acceptedAt_nil (by rw [hstays]; rfl), hstays, List.append_nil, List.append_nil]
    exact h

end GetHistory

/-- In every reachable state. -/
theorem get_history (q : Request) (uninit : Bytes) (uninitAddr : SockAddr) (rs : List RecvResult) :
    GetHistory (accepted (getStart q uninit uninitAddr) rs)
      (getRun (getStart q uninit uninitAddr) rs).1
      (getRun (getStart q uninit uninitAddr) rs).2 := by
  rw [getRun_eq]
  apply collect_invariant (I := fun _ bs s es => GetHistory bs s es)
  · exact .start q uninit uninitAddr
  · intro is bs s es r h
    exact h.step is.length r

theorem acceptedAt_mem {n : Nat} {s : GetState} {r : RecvResult} {b : Arrival}
    (h : b ∈ acceptedAt n s r) : b.event = n ∧ r = .datagram b.src b.data := by
  cases r with
  | timedOut => cases h
  | failed => cases h
  | datagram src data =>
    rw [acceptedAt] at h
    split_ifs at h
    · obtain rfl := List.mem_singleton.mp h
      exact ⟨rfl, rfl⟩
    · cases h

theorem acceptedAt_length_le (n : Nat) (s : GetState) (r : RecvResult) :
    (acceptedAt n s r).length ≤ 1 := by
  cases r with
  | timedOut => exact Nat.zero_le 1
  | failed => exact Nat.zero_le 1
  | datagram src data =>
    rw [acceptedAt]
    split_ifs
    · exact Nat.le_refl 1
    · exact Nat.zero_le 1

/-- An accepted datagram is one of those received. -/
theorem accepted_received {s : GetState} {rs : List RecvResult} {b : Arrival}
    (h : b ∈ accepted s rs) : rs[b.event]? = some (.datagram b.src b.data) := by
  obtain ⟨k, r, hk, hb⟩ := mem_collect h
  obtain ⟨hevent, hr⟩ := acceptedAt_mem hb
  rw [Nat.zero_add] at hevent
  rw [hevent, hk, hr]

theorem accepted_inOrder (s : GetState) (rs : List RecvResult) :
    (accepted s rs).Pairwise (·.event < ·.event) :=
  pairwise_collect (fun _ _ _ _ hb => (acceptedAt_mem hb).1) acceptedAt_length_le 0 s rs

/-! ## The invariant over regular events -/

/-- A timeout, or a datagram that has a header and fits the buffer. -/
def RecvResult.Regular : RecvResult → Prop
  | .timedOut => True
  | .failed => False
  | .datagram _ data => 4 ≤ data.length ∧ data.length ≤ bufferSize

/-- A header that was received leaves no negative length. -/
theorem getStep_defined {s : GetState} {r : RecvResult} (hr : r.Regular)
    (h : s.status ≠ .undefined) : (getStep s r).1.status ≠ .undefined := by
  by_cases hrun : s.status = .running
  · cases r with
    | timedOut =>
      rw [getStep_timedOut hrun, getTimeout]
      split_ifs
      · exact h
      · exact Status.noConfusion
    | failed => exact hr.elim
    | datagram src data =>
      have hlen : ¬ (data.length : Int) - 4 < 0 := by
        have hfour := hr.1
        omega
      rw [getStep_datagram hrun src hr.2, getDatagram]
      split_ifs
      · exact Status.noConfusion
      · rw [getData]
        dsimp only
        rw [if_neg hlen]
        split_ifs
        · exact Status.noConfusion
        · exact h
        · exact h
        · exact h
      · exact h
  · rw [getStep_of_not_running hrun]
    exact h

/-- What the accepted blocks `bs` of a run over the events `rs` have to do with
its state and its effects. -/
structure GetInvariant (rs : List RecvResult) (bs : List Arrival) (s : GetState)
    (es : List Effect) : Prop extends GetHistory bs s es where
  received : ∀ b ∈ bs, rs[b.event]? = some (.datagram b.src b.data)
  inOrder : bs.Pairwise (·.event < ·.event)
  file : s.file = (bs.map Arrival.payload).flatten
  defined : s.status ≠ .undefined

/-- The file is made of the accepted payloads, whose numbers count up and wrap;
only the last one may be short, and then the call has returned zero; and every
ACK stands for a block that is written. -/
theorem get_state_invariant (q : Request) (uninit : Bytes) (uninitAddr : SockAddr)
    (rs : List RecvResult) (hrs : ∀ r ∈ rs, r.Regular) :
    GetInvariant rs (accepted (getStart q uninit uninitAddr) rs)
      (getRun (getStart q uninit uninitAddr) rs).1
      (getRun (getStart q uninit uninitAddr) rs).2 := by
  have hhistory := get_history q uninit uninitAddr rs
  refine { hhistory with
    received := fun b hb => accepted_received hb
    inOrder := accepted_inOrder _ rs
    file := by rw [GetState.file, hhistory.writes]
    defined := ?_ }
  rw [getRun_eq]
  refine collect_invariant (f := acceptedAt)
    (I := fun is _ s _ => (∀ r ∈ is, r.Regular) → s.status ≠ .undefined) ?_ ?_ rs hrs
  · intro _
    exact Status.noConfusion
  · intro is _ s _ r ih hall
    apply getStep_defined (hall r (List.mem_append_right _ (List.mem_singleton_self r)))
    exact ih fun r' hr' => hall r' (List.mem_append_left _ hr')

/-- An empty file, after a timeout. -/
theorem get_state_invariant_empty :
    GetInvariant [.timedOut, .datagram { ip := 1, port := 1069 } (dataPacket 1 [])]
      [⟨1, { ip := 1, port := 1069 }, dataPacket 1 []⟩]
      (getRun (getStart oneLetter [] { ip := 0, port := 0 })
        [.timedOut, .datagram { ip := 1, port := 1069 } (dataPacket 1 [])]).1
      (getRun (getStart oneLetter [] { ip := 0, port := 0 })
        [.timedOut, .datagram { ip := 1, port := 1069 } (dataPacket 1 [])]).2 := by
  refine get_state_invariant oneLetter [] { ip := 0, port := 0 } _ ?_
  intro r hr
  rcases List.mem_cons.mp hr with rfl | hr
  · trivial
  · obtain rfl := List.mem_singleton.mp hr
    exact ⟨by decide, by decide⟩

/-! ## A block that comes again -/

/-- The datagram of block `v` is acknowledged, and nothing else happens. -/
structure Reacknowledges (s : GetState) (src : SockAddr) (v : UInt16) (payload : Bytes) : Prop where
  effects : (getStep s (.datagram src (dataPacket v payload))).2 = [.sendto src (ackPacket v)]
  file : (getStep s (.datagram src (dataPacket v payload))).1.file = s.file
  expectedBlock : (getStep s (.datagram src (dataPacket v payload))).1.expectedBlock =
    s.expectedBlock

theorem ofNat_lt_succ_iff (m : Nat) :
    UInt16.ofNat m < UInt16.ofNat (m + 1) ↔ m % 65536 ≠ 65535 := by
  rw [UInt16.lt_iff_toNat_lt, UInt16.toNat_ofNat', UInt16.toNat_ofNat']
  omega

theorem GetHistory.last_number {bs : List Arrival} {s : GetState} {es : List Effect}
    (h : GetHistory bs s es) {b : Arrival} (hb : bs.getLast? = some b) :
    b.number = UInt16.ofNat bs.length := by
  rw [List.getLast?_eq_getElem?] at hb
  have hlt := (List.getElem?_eq_some_iff.mp hb).1
  rw [(h.numbered _ b hb).2.2, show bs.length - 1 + 1 = bs.length by omega]

theorem GetHistory.reacknowledges_iff_length {bs : List Arrival} {s : GetState} {es : List Effect}
    (h : GetHistory bs s es) (hrun : s.status = .running) {b : Arrival}
    (hb : bs.getLast? = some b) (src : SockAddr) {payload : Bytes}
    (hfull : payload.length = blockSize) :
    Reacknowledges s src b.number payload ↔ bs.length % 65536 ≠ 65535 := by
  have hnum := h.last_number hb
  have hne : ¬ b.number = s.expectedBlock := by
    rw [hnum, h.expectedBlock]
    exact ofNat_ne_succ bs.length
  have hstep := getStep_dataPacket hrun src b.number hfull.le
  dsimp only at hstep
  rw [if_neg hne] at hstep
  rw [← ofNat_lt_succ_iff, ← hnum, ← h.expectedBlock]
  by_cases hlt : b.number < s.expectedBlock
  · rw [if_pos hlt] at hstep
    refine iff_of_true ⟨?_, ?_, ?_⟩ hlt
    · rw [hstep]
    · rw [hstep]
      rfl
    · rw [hstep]
      rfl
  · rw [if_neg hlt] at hstep
    refine iff_of_false (fun hagain => ?_) hlt
    have heffects := hagain.effects
    rw [hstep] at heffects
    cases heffects

/-- The last accepted block is acknowledged again unless the counter has just
wrapped to zero, which no number is below. -/
theorem reacknowledges_iff (q : Request) (uninit : Bytes) (uninitAddr : SockAddr)
    (rs : List RecvResult) (b : Arrival) (src : SockAddr) (payload : Bytes)
    (hrun : (getRun (getStart q uninit uninitAddr) rs).1.status = .running)
    (hb : (accepted (getStart q uninit uninitAddr) rs).getLast? = some b)
    (hfull : payload.length = blockSize) :
    Reacknowledges (getRun (getStart q uninit uninitAddr) rs).1 src b.number payload ↔
      (accepted (getStart q uninit uninitAddr) rs).length % 65536 ≠ 65535 :=
  (get_history q uninit uninitAddr rs).reacknowledges_iff_length hrun hb src hfull

/-- The first `n` blocks of a long file. -/
def fullBlocks (n : Nat) : List RecvResult :=
  (List.range n).map fun i =>
    .datagram { ip := 1, port := 1069 } (dataPacket (UInt16.ofNat (i + 1)) (List.replicate 512 0))

theorem run_fullBlocks (q : Request) (uninit : Bytes) (uninitAddr : SockAddr) (n : Nat) :
    (getRun (getStart q uninit uninitAddr) (fullBlocks n)).1.status = .running ∧
      (accepted (getStart q uninit uninitAddr) (fullBlocks n)).length = n := by
  induction n with
  | zero => exact ⟨rfl, rfl⟩
  | succ n ih =>
    obtain ⟨hrun, hlen⟩ := ih
    have hexpected := (get_history q uninit uninitAddr (fullBlocks n)).expectedBlock
    rw [hlen] at hexpected
    obtain ⟨packet, hpacket⟩ : ∃ packet, packet =
      dataPacket (UInt16.ofNat (n + 1)) (List.replicate 512 0) := ⟨_, rfl⟩
    have hdrop : packet.drop 4 = List.replicate 512 0 := by
      rw [hpacket]
      exact (ntohs_dataPacket _ _).2.2
    have hfull : (List.replicate 512 (0 : UInt8)).length = blockSize := List.length_replicate
    have hstep := getStep_dataPacket hrun { ip := 1, port := 1069 } (UInt16.ofNat (n + 1)) hfull.le
    dsimp only at hstep
    rw [if_pos hexpected.symm, if_neg (by rw [hfull]; exact Nat.lt_irrefl _), ← hpacket,
      if_neg (by rw [hfull]; exact Nat.lt_irrefl _), List.append_nil] at hstep
    have hsucc : fullBlocks (n + 1) =
        fullBlocks n ++ [.datagram { ip := 1, port := 1069 } packet] := by
      rw [fullBlocks, List.range_succ, List.map_append, hpacket]
      rfl
    have hwritten := acceptedAt_written (n := 0 + (fullBlocks n).length)
      ((congrArg Prod.snd hstep).trans (by rw [hdrop]))
    rw [getRun_eq] at hrun hstep hwritten
    rw [hsucc, getRun_eq, run_concat, accepted, collect_concat, List.length_append]
    constructor
    · rw [hstep]
    · rw [hwritten]
      show (accepted _ (fullBlocks n)).length + 1 = n + 1
      rw [hlen]

theorem getLast?_of_length_pos {l : List Arrival} (h : 0 < l.length) :
    ∃ b, l.getLast? = some b :=
  ⟨_, List.getLast?_eq_some_getLast (List.ne_nil_of_length_pos h)⟩

/-- The first of two blocks comes again. -/
theorem reacknowledges_first :
    ∃ b, (accepted (getStart oneLetter [] { ip := 0, port := 0 })
        (fullBlocks 1)).getLast? = some b ∧
      Reacknowledges (getRun (getStart oneLetter [] { ip := 0, port := 0 }) (fullBlocks 1)).1
        { ip := 1, port := 1069 } b.number (List.replicate 512 0) := by
  obtain ⟨hrun, hlen⟩ := run_fullBlocks oneLetter [] { ip := 0, port := 0 } 1
  obtain ⟨b, hb⟩ := getLast?_of_length_pos (hlen ▸ Nat.one_pos)
  refine ⟨b, hb, (reacknowledges_iff _ _ _ _ b _ _ hrun hb List.length_replicate).mpr ?_⟩
  rw [hlen]
  decide

/-- After 65535 blocks the last one is passed over when it comes again. -/
theorem reacknowledges_fails :
    ¬ ∀ (q : Request) (uninit : Bytes) (uninitAddr : SockAddr) (rs : List RecvResult) (b : Arrival)
      (src : SockAddr) (payload : Bytes),
      (getRun (getStart q uninit uninitAddr) rs).1.status = .running →
      (accepted (getStart q uninit uninitAddr) rs).getLast? = some b →
      payload.length = blockSize →
      Reacknowledges (getRun (getStart q uninit uninitAddr) rs).1 src b.number payload := by
  intro h
  obtain ⟨n, hn⟩ : ∃ n, n = 65535 := ⟨_, rfl⟩
  obtain ⟨hrun, hlen⟩ := run_fullBlocks oneLetter [] { ip := 0, port := 0 } n
  have hhistory := get_history oneLetter [] { ip := 0, port := 0 } (fullBlocks n)
  obtain ⟨b, hb⟩ := getLast?_of_length_pos (hlen ▸ (by omega : 0 < n))
  have hagain := h _ _ _ _ b { ip := 1, port := 1069 } (List.replicate 512 0) hrun hb
    List.length_replicate
  have hlast := (hhistory.reacknowledges_iff_length hrun hb _ List.length_replicate).mp hagain
  rw [hlen] at hlast
  omega

end Tftp
end NetLab
