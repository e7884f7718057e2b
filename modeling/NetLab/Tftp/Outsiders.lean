import NetLab.Library.Insertion
import NetLab.Tftp.Get
import NetLab.Tftp.Put

/-!
# Datagrams from other hosts

`recvfrom` takes datagrams from anyone.  Each one overwrites the buffer and
`from_addr` and resets the count of retries, also when the loop passes it over.
-/

namespace NetLab
namespace Tftp

open Insertion

/-- A run whose first datagram came from the server, and datagrams of other
hosts that arrive in between later. -/
structure Outsiders (serverIp : UInt32) where
  port : UInt16
  before : List RecvResult
  first : Bytes
  later : List (Marked RecvResult)
  before_silent : ∀ src data, RecvResult.datagram src data ∉ before
  inserted_other : ∀ r, .inserted r ∈ later →
    ∃ src data, r = .datagram src data ∧ src ≠ { ip := serverIp, port := port }

/-- Everything that arrives, in order. -/
def Outsiders.arrivals {serverIp : UInt32} (o : Outsiders serverIp) : List (Marked RecvResult) :=
  (o.before ++ [RecvResult.datagram { ip := serverIp, port := o.port } o.first]).map .kept ++
    o.later

/-- What is compared of the datagrams that are sent: of DATA everything, of an
ACK the destination and the number. -/
inductive Shown
  | data (dst : SockAddr) (packet : Bytes)
  | ack (dst : SockAddr) (blockNum : UInt16)
  deriving DecidableEq, Repr

def shown : Effect → Option Shown
  | .sendto dst packet =>
    if ntohs packet 0 = opData then some (.data dst packet)
    else if ntohs packet 0 = opAck then some (.ack dst (ntohs packet 2))
    else none
  | _ => none

/-- The same outcome of two runs of `tftp_get`. -/
structure SameGet (r r' : GetState × List Effect) : Prop where
  status : r.1.status = r'.1.status
  file : r.1.file = r'.1.file
  shown : r.2.filterMap shown = r'.2.filterMap shown

/-- The same outcome of two runs of `tftp_put`. -/
structure SamePut (r r' : PutState × List Effect) : Prop where
  status : r.1.status = r'.1.status
  shown : r.2.filterMap shown = r'.2.filterMap shown

/-- The loop of `tftp_put` over a list of results of `recvfrom`. -/
def putRun (q : Request) : PutState → List RecvResult → PutState × List Effect := run (putStep q)

/-- What `n` received bytes leave of the opcode and the number before. -/
def SameRest (buffer buffer' : Bytes) (n : Nat) : Prop :=
  (buffer.drop n).take (4 - n) = (buffer'.drop n).take (4 - n)

/-! ## What has to hold at each arrival -/

/-- `tftp_get` passes over neither errors, nor blocks that it waits for or has
had. -/
def GetIgnores (t : GetState) : RecvResult → Prop
  | .datagram _ data => data.length ≤ bufferSize ∧
      ntohs (store data t.buffer) 0 ≠ opError ∧
      (ntohs (store data t.buffer) 0 = opData →
        t.expectedBlock < ntohs (store data t.buffer) 2)
  | _ => False

/-- A timeout finds the retries and, where it repeats an acknowledgement, the
address unchanged, and a short datagram what is left in the buffer. -/
def GetOk (s t : GetState) : Marked RecvResult → List (Marked RecvResult) → Prop
  | .kept .timedOut, _ => s.status = .running →
      (s.retries < maxRetries ↔ t.retries < maxRetries) ∧
      (s.retries < maxRetries → s.fromAddr = t.fromAddr)
  | .kept .failed, _ => True
  | .kept (.datagram _ data), _ => s.status = .running → SameRest s.buffer t.buffer data.length
  | .inserted r, _ => t.status = .running → GetIgnores t r

/-- `tftp_put` passes over neither errors nor the acknowledgement it waits
for. -/
def PutIgnores (t : PutState) : RecvResult → Prop
  | .datagram _ data => data.length ≤ bufferSize ∧
      ntohs (store data t.buffer) 0 ≠ opError ∧
      (ntohs (store data t.buffer) 0 = opAck → ntohs (store data t.buffer) 2 ≠ t.blockNum)
  | _ => False

/-- What is sent again for the request is the same, or neither DATA nor ACK. -/
def SameRequest (q : Request) (s t : PutState) : Prop :=
  s.buffer.take (putRequestLen q) = t.buffer.take (putRequestLen q) ∨
    ∀ opcode, opcode = ntohs s.buffer 0 ∨ opcode = ntohs t.buffer 0 →
      opcode ≠ opData ∧ opcode ≠ opAck

/-- As for `tftp_get`; the last `recvfrom` may take anything, as long as it would
have got something anyway. -/
def PutOk (q : Request) (s t : PutState) : Marked RecvResult → List (Marked RecvResult) → Prop
  | .kept .timedOut, _ => t.status = .running → s.final = false →
      (s.retries < maxRetries ↔ t.retries < maxRetries) ∧
      (s.retries < maxRetries → s.blockNum = 0 → SameRequest q s t)
  | .kept .failed, _ => True
  | .kept (.datagram _ data), _ => t.status = .running → s.final = false →
      SameRest s.buffer t.buffer data.length
  | .inserted r, later => t.status = .running →
      (t.final = true → ∃ r', .kept r' ∈ later) ∧ (t.final = false → PutIgnores t r)

/-! ## The buffer -/

theorem take_store {buffer buffer' data : Bytes} (h : SameRest buffer buffer' data.length) :
    (store data buffer).take 4 = (store data buffer').take 4 := by
  rw [store, store, List.take_append, List.take_append, h]

theorem ntohs_of_take {buf buf' : Bytes} (h : buf.take 4 = buf'.take 4) :
    ntohs buf 0 = ntohs buf' 0 ∧ ntohs buf 2 = ntohs buf' 2 := by
  have hfirst : ∀ b : Bytes, (b.drop 0).take 2 = (b.take 4).take 2 := by
    intro b
    rw [List.drop_zero, List.take_take]
    rfl
  have hsecond : ∀ b : Bytes, (b.drop 2).take 2 = (b.take 4).drop 2 := by
    intro b
    rw [List.drop_take]
  rw [ntohs, ntohs, ntohs, ntohs, hfirst, hfirst, hsecond, hsecond, h]
  exact ⟨rfl, rfl⟩

theorem payload_store (data buffer : Bytes) :
    ((store data buffer).drop 4).take ((data.length : Int) - 4).toNat = data.drop 4 := by
  have hn : ((data.length : Int) - 4).toNat = data.length - 4 := by omega
  rw [hn, ← List.drop_take, store, List.take_left]

/-! ## `tftp_get` -/

/-- What the two runs have in common. -/
structure GetAgrees (s t : GetState) : Prop where
  status : s.status = t.status
  expectedBlock : s.expectedBlock = t.expectedBlock
  writes : s.writes = t.writes

/-- Of the buffer only the header and the payload are read. -/
theorem getDatagram_buffer (s : GetState) (buffer : Bytes) {n : Nat}
    (hopcode : ntohs buffer 0 = ntohs s.buffer 0) (hnum : ntohs buffer 2 = ntohs s.buffer 2)
    (hpayload : (buffer.drop 4).take ((n : Int) - 4).toNat =
      (s.buffer.drop 4).take ((n : Int) - 4).toNat) :
    getDatagram { s with buffer := buffer } n =
      ({ (getDatagram s n).1 with buffer := buffer }, (getDatagram s n).2) := by
  unfold getDatagram getData
  dsimp only
  rw [hopcode, hnum, hpayload]
  split_ifs
  · rfl
  · rfl
  · rfl
  · rfl
  · rfl
  · rfl
  · rfl

theorem getStep_kept {s t : GetState} {r : RecvResult} {l : List (Marked RecvResult)}
    (h : GetAgrees s t) (hok : GetOk s t (.kept r) l) :
    GetAgrees (getStep s r).1 (getStep t r).1 ∧ (getStep s r).2 = (getStep t r).2 := by
  by_cases hrun : s.status = .running
  · have hrun' : t.status = .running := h.status.symm.trans hrun
    cases r with
    | timedOut =>
      obtain ⟨hretries, haddr⟩ := hok hrun
      rw [getStep_timedOut hrun, getStep_timedOut hrun', getTimeout, getTimeout]
      by_cases hmore : s.retries < maxRetries
      · rw [if_pos hmore, if_pos (hretries.mp hmore), haddr hmore, h.expectedBlock]
        exact ⟨⟨h.status, rfl, h.writes⟩, rfl⟩
      · rw [if_neg hmore, if_neg fun hlt => hmore (hretries.mpr hlt)]
        exact ⟨⟨rfl, h.expectedBlock, h.writes⟩, rfl⟩
    | failed =>
      rw [getStep_failed hrun, getStep_failed hrun']
      exact ⟨⟨rfl, h.expectedBlock, h.writes⟩, rfl⟩
    | datagram src data =>
      by_cases hlen : data.length ≤ bufferSize
      · rw [getStep_datagram hrun src hlen, getStep_datagram hrun' src hlen]
        have hreceive : t.receive src data =
            { s.receive src data with buffer := store data t.buffer } := by
          rw [GetState.receive, GetState.receive, h.status, h.expectedBlock, h.writes]
        obtain ⟨hopcode, hnum⟩ := ntohs_of_take (take_store (hok hrun))
        have hpayload : ((store data t.buffer).drop 4).take ((data.length : Int) - 4).toNat =
            ((s.receive src data).buffer.drop 4).take ((data.length : Int) - 4).toNat := by
          rw [payload_store]
          exact (payload_store data s.buffer).symm
        rw [hreceive, getDatagram_buffer _ _ hopcode.symm hnum.symm hpayload]
        exact ⟨⟨rfl, rfl, rfl⟩, rfl⟩
      · have htoo : bufferSize < data.length := Nat.lt_of_not_le hlen
        have hfail : ∀ u : GetState, u.status = .running →
            getStep u (.datagram src data) = ({ u with status := .returned (-1) }, []) := by
          intro u hu
          rw [getStep, if_pos hu]
          exact if_pos htoo
        rw [hfail s hrun, hfail t hrun']
        exact ⟨⟨rfl, h.expectedBlock, h.writes⟩, rfl⟩
  · have hrun' : t.status ≠ .running := fun heq => hrun (h.status.trans heq)
    rw [getStep_of_not_running hrun, getStep_of_not_running hrun']
    exact ⟨h, rfl⟩

/-- A datagram that is passed over changes nothing that is compared. -/
theorem getStep_ignored {t : GetState} {r : RecvResult} (hrun : t.status = .running)
    (h : GetIgnores t r) :
    GetAgrees t (getStep t r).1 ∧ (getStep t r).2 = [] := by
  cases r with
  | timedOut => exact h.elim
  | failed => exact h.elim
  | datagram src data =>
    obtain ⟨hlen, herror, hdata⟩ := h
    obtain ⟨u, hu⟩ : ∃ u, u = t.receive src data := ⟨_, rfl⟩
    have hagrees : GetAgrees t u := by
      rw [hu]
      exact ⟨rfl, rfl, rfl⟩
    have hbuffer : store data t.buffer = u.buffer := by
      rw [hu]
      rfl
    rw [hbuffer] at herror hdata
    rw [hagrees.expectedBlock] at hdata
    rw [getStep_datagram hrun src hlen, ← hu, getDatagram, if_neg herror]
    by_cases hop : ntohs u.buffer 0 = opData
    · have hlt := hdata hop
      rw [if_pos hop, getData]
      dsimp only
      rw [if_neg (UInt16.ne_of_lt hlt).symm, if_neg (UInt16.lt_asymm hlt)]
      exact ⟨hagrees, rfl⟩
    · rw [if_neg hop]
      exact ⟨hagrees, rfl⟩

theorem get_lockstep : Lockstep getStep GetOk shown fun s t _ => GetAgrees s t where
  kept s t i l h hok := by
    obtain ⟨hnext, heffects⟩ := getStep_kept h hok
    rw [heffects]
    exact ⟨hnext, rfl⟩
  inserted s t i l h hok := by
    by_cases hrun : t.status = .running
    · obtain ⟨hnext, heffects⟩ := getStep_ignored hrun (hok hrun)
      rw [heffects]
      exact ⟨⟨h.status.trans hnext.status, h.expectedBlock.trans hnext.expectedBlock,
        h.writes.trans hnext.writes⟩, rfl⟩
    · rw [getStep_of_not_running hrun]
      exact ⟨h, rfl⟩

theorem getRun_eq (s : GetState) (rs : List RecvResult) : getRun s rs = run getStep s rs := by
  induction rs generalizing s with
  | nil => rfl
  | cons r rs ih => rw [getRun, run, ih]

/-! ## `tftp_put` -/

/-- What the two runs have in common, unless the longer one has taken a datagram
of another host for the last one. -/
inductive PutAgrees (s t : PutState) (later : List (Marked RecvResult)) : Prop
  | same (status : s.status = t.status) (blockNum : s.blockNum = t.blockNum)
      (rest : s.rest = t.rest) (final : s.final = t.final)
  | ended (running : s.status = .running) (returned : t.status = .returned 0)
      (blockNum : s.blockNum = t.blockNum) (rest : s.rest = t.rest) (final : s.final = t.final)
      (last : s.final = true) (more : ∃ r, .kept r ∈ later)

/-- The block that is sent depends on the file and not on the buffer. -/
theorem putNext_agrees {s t : PutState} (hstatus : s.status = t.status)
    (hnum : s.blockNum = t.blockNum) (hrest : s.rest = t.rest) (haddr : s.fromAddr = t.fromAddr)
    (l : List (Marked RecvResult)) :
    PutAgrees (putNext s).1 (putNext t).1 l ∧ (putNext s).2 = (putNext t).2 := by
  unfold putNext
  dsimp only
  rw [hnum, hrest, haddr]
  split_ifs
  · exact ⟨.same hstatus rfl rfl rfl, rfl⟩
  · exact ⟨.same hstatus rfl rfl rfl, rfl⟩

theorem putStep_tooLong {q : Request} {s : PutState} (hrun : s.status = .running)
    (hf : s.final = false) (src : SockAddr) {data : Bytes} (hlen : bufferSize < data.length) :
    putStep q s (.datagram src data) = ({ s with status := .returned (-1) }, []) := by
  rw [putStep, if_pos hrun, hf, if_neg Bool.false_ne_true]
  exact if_pos hlen

/-- The opcode and the number decide what a datagram does. -/
theorem putDatagram_agrees {s t : PutState} (hstatus : s.status = t.status)
    (hnum : s.blockNum = t.blockNum) (hrest : s.rest = t.rest) (hfinal : s.final = t.final)
    (haddr : s.fromAddr = t.fromAddr) (hbuffer : s.buffer.take 4 = t.buffer.take 4)
    (l : List (Marked RecvResult)) :
    PutAgrees (putDatagram s).1 (putDatagram t).1 l ∧ (putDatagram s).2 = (putDatagram t).2 := by
  obtain ⟨hopcode, hack⟩ := ntohs_of_take hbuffer
  unfold putDatagram
  dsimp only
  rw [hopcode, hack, hnum]
  split_ifs
  · exact ⟨.same rfl rfl hrest hfinal, rfl⟩
  · exact putNext_agrees hstatus hnum hrest haddr l
  · exact ⟨.same hstatus hnum hrest hfinal, rfl⟩
  · exact ⟨.same hstatus hnum hrest hfinal, rfl⟩

/-- What is sent again counts when it looks like DATA or like an ACK. -/
theorem shown_request {q : Request} {s t : PutState} (h : SameRequest q s t) (dst : SockAddr) :
    (sendto dst s.buffer (putRequestLen q)).filterMap shown =
      (sendto dst t.buffer (putRequestLen q)).filterMap shown := by
  have hlen : 2 ≤ putRequestLen q := by
    rw [putRequestLen, length_requestPacket]
    omega
  have hsend : ∀ buffer : Bytes, sendto dst buffer (putRequestLen q) =
      [.sendto dst (buffer.take (putRequestLen q))] := by
    intro buffer
    rw [sendto, if_neg (by omega), Int.toNat_natCast]
  rw [hsend, hsend]
  rcases h with hsame | hother
  · rw [hsame]
  · have hnone : ∀ buffer : Bytes, ntohs buffer 0 ≠ opData ∧ ntohs buffer 0 ≠ opAck →
        [Effect.sendto dst (buffer.take (putRequestLen q))].filterMap shown = [] := by
      intro buffer hcode
      have hshown : shown (.sendto dst (buffer.take (putRequestLen q))) = none := by
        rw [shown, ntohs_take buffer hlen, if_neg hcode.1, if_neg hcode.2]
      rw [List.filterMap_cons_none hshown]
      rfl
    rw [hnone s.buffer (hother _ (.inl rfl)), hnone t.buffer (hother _ (.inr rfl))]

theorem putFinal_shown (s : PutState) (r : RecvResult) : (putFinal s r).2.filterMap shown = [] := by
  rcases (putFinal_finished s r).effects with heffects | heffects
  · rw [heffects]
    rfl
  · rw [heffects]
    rfl

theorem putStep_kept {q : Request} {s t : PutState} {r : RecvResult}
    {l : List (Marked RecvResult)} (hrun : s.status = .running) (hrun' : t.status = .running)
    (hnum : s.blockNum = t.blockNum) (hrest : s.rest = t.rest) (hf : s.final = false)
    (hf' : t.final = false) (hok : PutOk q s t (.kept r) l) :
    PutAgrees (putStep q s r).1 (putStep q t r).1 l ∧
      (putStep q s r).2.filterMap shown = (putStep q t r).2.filterMap shown := by
  have hfinal : s.final = t.final := hf.trans hf'.symm
  cases r with
  | timedOut =>
    obtain ⟨hretries, hrequest⟩ := hok hrun' hf
    rw [putStep_timedOut hrun hf, putStep_timedOut hrun' hf', putTimeout, putTimeout]
    by_cases hmore : s.retries < maxRetries
    · rw [if_pos hmore, if_pos (hretries.mp hmore)]
      refine ⟨.same (hrun.trans hrun'.symm) hnum hrest hfinal, ?_⟩
      by_cases hzero : s.blockNum = 0
      · rw [if_pos hzero, if_pos (hnum.symm.trans hzero)]
        exact shown_request (hrequest hmore hzero) q.serverAddr
      · rw [if_neg hzero, if_neg fun heq => hzero (hnum.trans heq)]
        rfl
    · rw [if_neg hmore, if_neg fun hlt => hmore (hretries.mpr hlt)]
      exact ⟨.same rfl hnum hrest hfinal, rfl⟩
  | failed =>
    rw [putStep_failed hrun hf, putStep_failed hrun' hf']
    exact ⟨.same rfl hnum hrest hfinal, rfl⟩
  | datagram src data =>
    by_cases hlen : data.length ≤ bufferSize
    · rw [putStep_datagram hrun hf src hlen, putStep_datagram hrun' hf' src hlen]
      obtain ⟨hnext, heffects⟩ := putDatagram_agrees (s := s.receive src data)
        (t := t.receive src data) (hrun.trans hrun'.symm) hnum hrest hfinal rfl
        (take_store (hok hrun' hf)) l
      rw [heffects]
      exact ⟨hnext, rfl⟩
    · have htoo : bufferSize < data.length := Nat.lt_of_not_le hlen
      rw [putStep_tooLong hrun hf src htoo, putStep_tooLong hrun' hf' src htoo]
      exact ⟨.same rfl hnum hrest hfinal, rfl⟩

theorem putStep_ignored {q : Request} {t : PutState} {r : RecvResult} (hrun : t.status = .running)
    (hf : t.final = false) (h : PutIgnores t r) :
    ∃ src data, putStep q t r = (t.receive src data, []) := by
  cases r with
  | timedOut => exact h.elim
  | failed => exact h.elim
  | datagram src data =>
    obtain ⟨hlen, herror, hack⟩ := h
    refine ⟨src, data, ?_⟩
    rw [putStep_datagram hrun hf src hlen, putDatagram]
    obtain ⟨u, hu⟩ : ∃ u, u = t.receive src data := ⟨_, rfl⟩
    have hbuffer : store data t.buffer = u.buffer := by
      rw [hu]
      rfl
    have hnum : t.blockNum = u.blockNum := by
      rw [hu]
      rfl
    rw [hbuffer] at herror hack
    rw [hnum] at hack
    rw [← hu, if_neg herror]
    by_cases hop : ntohs u.buffer 0 = opAck
    · rw [if_pos hop, if_neg (hack hop)]
    · rw [if_neg hop]

theorem putFinal_agrees {s t : PutState} (hnum : s.blockNum = t.blockNum) (hrest : s.rest = t.rest)
    (hfinal : s.final = t.final) (r r' : RecvResult) (l : List (Marked RecvResult)) :
    PutAgrees (putFinal s r).1 (putFinal t r').1 l := by
  have hs := putFinal_finished s r
  have ht := putFinal_finished t r'
  refine .same (hs.status.trans ht.status.symm) ?_ ?_ ?_
  · rw [hs.blockNum, ht.blockNum, hnum]
  · rw [hs.rest, ht.rest, hrest]
  · rw [hs.final, ht.final, hfinal]

theorem PutAgrees.kept {q : Request} {s t : PutState} {r : RecvResult}
    {l : List (Marked RecvResult)} (h : PutAgrees s t (.kept r :: l))
    (hok : PutOk q s t (.kept r) l) :
    PutAgrees (putStep q s r).1 (putStep q t r).1 l ∧
      (putStep q s r).2.filterMap shown = (putStep q t r).2.filterMap shown := by
  cases h with
  | same status blockNum rest final =>
    by_cases hrun : s.status = .running
    · have hrun' : t.status = .running := status.symm.trans hrun
      cases hf : s.final with
      | true =>
        rw [putStep_final hrun hf, putStep_final hrun' (final.symm.trans hf), putFinal_shown,
          putFinal_shown]
        exact ⟨putFinal_agrees blockNum rest final r r l, rfl⟩
      | false => exact putStep_kept hrun hrun' blockNum rest hf (final.symm.trans hf) hok
    · have hrun' : t.status ≠ .running := fun heq => hrun (status.trans heq)
      rw [putStep_of_not_running hrun, putStep_of_not_running hrun']
      exact ⟨.same status blockNum rest final, rfl⟩
  | ended running returned blockNum rest final last more =>
    -- The shorter run gets the datagram that ends it.
    have hstopped : t.status ≠ .running := by
      rw [returned]
      exact Status.noConfusion
    have hs := putFinal_finished s r
    rw [putStep_final running last, putStep_of_not_running hstopped, putFinal_shown]
    refine ⟨.same (hs.status.trans returned.symm) ?_ ?_ ?_, rfl⟩
    · rw [hs.blockNum, blockNum]
    · rw [hs.rest, rest]
    · rw [hs.final, final]

theorem PutAgrees.inserted {q : Request} {s t : PutState} {r : RecvResult}
    {l : List (Marked RecvResult)} (h : PutAgrees s t (.inserted r :: l))
    (hok : PutOk q s t (.inserted r) l) :
    PutAgrees s (putStep q t r).1 l ∧ (putStep q t r).2.filterMap shown = [] := by
  cases h with
  | same status blockNum rest final =>
    by_cases hrun : t.status = .running
    · cases hf : t.final with
      | true =>
        have ht := putFinal_finished t r
        rw [putStep_final hrun hf, putFinal_shown]
        refine ⟨.ended (status.trans hrun) ht.status ?_ ?_ ?_ (final.trans hf) ((hok hrun).1 hf),
          rfl⟩
        · rw [ht.blockNum, blockNum]
        · rw [ht.rest, rest]
        · rw [ht.final, final]
      | false =>
        obtain ⟨src, data, hstep⟩ := putStep_ignored (q := q) hrun hf ((hok hrun).2 hf)
        rw [hstep]
        exact ⟨.same status blockNum rest final, rfl⟩
    · rw [putStep_of_not_running hrun]
      exact ⟨.same status blockNum rest final, rfl⟩
  | ended running returned blockNum rest final last more =>
    have hstopped : t.status ≠ .running := by
      rw [returned]
      exact Status.noConfusion
    obtain ⟨r', hr⟩ := more
    rw [putStep_of_not_running hstopped]
    refine ⟨.ended running returned blockNum rest final last ⟨r', ?_⟩, rfl⟩
    rcases List.mem_cons.mp hr with heq | hr
    · cases heq
    · exact hr

theorem put_lockstep (q : Request) : Lockstep (putStep q) (PutOk q) shown PutAgrees where
  kept _ _ _ _ h hok := h.kept hok
  inserted _ _ _ _ h hok := h.inserted hok

/-! ## Both transfers -/

/-- Where each arrival meets the conditions, the datagrams of other hosts do not
show. -/
theorem outsiders_do_not_show (q : Request) (file uninit : Bytes) (uninitAddr : SockAddr)
    (o : Outsiders q.serverIp) :
    (Along getStep GetOk (getStart q uninit uninitAddr) (getStart q uninit uninitAddr) o.arrivals →
      SameGet (getRun (getStart q uninit uninitAddr) (shorter o.arrivals))
        (getRun (getStart q uninit uninitAddr) (longer o.arrivals))) ∧
    (Along (putStep q) (PutOk q) (putStart q file uninit uninitAddr)
        (putStart q file uninit uninitAddr) o.arrivals →
      SamePut (putRun q (putStart q file uninit uninitAddr) (shorter o.arrivals))
        (putRun q (putStart q file uninit uninitAddr) (longer o.arrivals))) := by
  constructor
  · intro halong
    obtain ⟨hend, hshown⟩ := get_lockstep.run o.arrivals _ _ ⟨rfl, rfl, rfl⟩ halong
    rw [getRun_eq, getRun_eq]
    exact ⟨hend.status, by rw [GetState.file, GetState.file, hend.writes], hshown⟩
  · intro halong
    obtain ⟨hend, hshown⟩ := (put_lockstep q).run o.arrivals _ _ (.same rfl rfl rfl rfl) halong
    refine ⟨?_, hshown⟩
    cases hend with
    | same status blockNum rest final => exact status
    | ended running returned blockNum rest final last more =>
      obtain ⟨r, hr⟩ := more
      cases hr

/-- A request for the file `f`. -/
def oneLetter : Request where
  serverIp := 1
  remoteFile := ascii "f"
  fits := by decide

/-- A server that answers with a block that is not waited for, and a datagram of
another host before the empty file arrives. -/
def stranger (data : Bytes) : Outsiders oneLetter.serverIp where
  port := 1069
  before := []
  first := dataPacket 2 []
  later :=
    [.inserted (.datagram { ip := 2, port := 69 } data),
      .kept (.datagram { ip := 1, port := 1069 } (dataPacket 1 []))]
  before_silent := fun _ _ => List.not_mem_nil
  inserted_other := by
    intro r hr
    rcases List.mem_cons.mp hr with heq | hr
    · obtain rfl := Marked.inserted.inj heq
      exact ⟨_, _, rfl, by decide⟩
    · cases List.mem_singleton.mp hr

/-- An unknown opcode does not show. -/
theorem stranger_does_not_show :
    SameGet
        (getRun (getStart oneLetter [] { ip := 0, port := 0 })
          (shorter (stranger [0, 9]).arrivals))
        (getRun (getStart oneLetter [] { ip := 0, port := 0 })
          (longer (stranger [0, 9]).arrivals)) ∧
      SamePut (putRun oneLetter (putStart oneLetter [] [] { ip := 0, port := 0 })
          (shorter (stranger [0, 9]).arrivals))
        (putRun oneLetter (putStart oneLetter [] [] { ip := 0, port := 0 })
          (longer (stranger [0, 9]).arrivals)) := by
  obtain ⟨hget, hput⟩ :=
    outsiders_do_not_show oneLetter [] [] { ip := 0, port := 0 } (stranger [0, 9])
  constructor
  · refine hget ⟨fun _ => rfl, fun _ => ⟨?_, ?_, ?_⟩, fun _ => rfl, trivial⟩
    · decide +kernel
    · decide +kernel
    · decide +kernel
  · refine hput ⟨fun _ _ => rfl, fun _ => ⟨?_, fun _ => ⟨?_, ?_, ?_⟩⟩, fun _ _ => rfl, trivial⟩
    · intro hfinal
      exact absurd hfinal (by decide +kernel)
    · decide +kernel
    · decide +kernel
    · decide +kernel

/-- With an error in between the download fails, and without it it succeeds. -/
theorem stranger_error_shows :
    ¬ ∀ (q : Request) (file uninit : Bytes) (uninitAddr : SockAddr) (o : Outsiders q.serverIp),
      SameGet (getRun (getStart q uninit uninitAddr) (shorter o.arrivals))
          (getRun (getStart q uninit uninitAddr) (longer o.arrivals)) ∧
        SamePut (putRun q (putStart q file uninit uninitAddr) (shorter o.arrivals))
          (putRun q (putStart q file uninit uninitAddr) (longer o.arrivals)) := by
  intro h
  have hsame := (h oneLetter [] [] { ip := 0, port := 0 } (stranger (htons opError))).1.status
  exact absurd hsame (by decide +kernel)

end Tftp
end NetLab
