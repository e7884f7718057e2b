import NetLab.Library.StopAndWait
import NetLab.Tftp.Get
import NetLab.Tftp.Peer

/-!
# Downloads over channels that keep the order

`tftp_get` against a lock-step sender, joined by one first-in-first-out channel
a direction that may lose and repeat datagrams.  The system of the two refines
`StopAndWait` at the numbering modulo 65536, so the counters may wrap.
-/

namespace NetLab
namespace Tftp

open Transition Fifo Blocks

/-! ## The client after `m` blocks -/

/-- The variables of `tftp_get` once it has accepted the first `m` blocks of
`file` and nothing else. -/
structure GetProgress (file : Bytes) (m : Nat) (c : GetState) : Prop where
  writes : c.writes = blocks blockSize file m
  expected : c.expectedBlock = UInt16.ofNat (m + 1)
  le_count : m ≤ blockCount file
  running : c.status = .running → m < blockCount file
  returned : c.status = .returned 0 → m = blockCount file

namespace GetProgress

variable {file : Bytes} {m : Nat} {c : GetState}

theorem start (file : Bytes) (q : Request) (uninit : Bytes) (uninitAddr : SockAddr) :
    GetProgress file 0 (getStart q uninit uninitAddr) where
  writes := rfl
  expected := rfl
  le_count := Nat.zero_le _
  running _ := blockCount_pos file
  returned h := by simp [getStart] at h

theorem file_eq (h : GetProgress file m c) : c.file = (blocks blockSize file m).flatten := by
  rw [GetState.file, h.writes]

theorem file_eq_of_returned (h : GetProgress file m c) (hret : c.status = .returned 0) :
    c.file = file := by
  rw [h.file_eq, h.returned hret, flatten_blocks_blockCount]

/-- Variables that the invariant does not speak about may change. -/
theorem of_eq {c' : GetState} (h : GetProgress file m c) (hw : c'.writes = c.writes)
    (he : c'.expectedBlock = c.expectedBlock)
    (hs : c'.status = c.status ∨ c'.status = .returned (-1)) : GetProgress file m c' where
  writes := hw.trans h.writes
  expected := he.trans h.expected
  le_count := h.le_count
  running hr := by
    rcases hs with hs | hs
    · exact h.running (hs ▸ hr)
    · rw [hs] at hr
      cases hr
  returned hr := by
    rcases hs with hs | hs
    · exact h.returned (hs ▸ hr)
    · rw [hs] at hr
      cases hr

/-- The next block is written and acknowledged.  The call returns when it is
the last one. -/
theorem accept (h : GetProgress file m c) (hrun : c.status = .running) (src : SockAddr) :
    GetProgress file (m + 1) (getStep c (.datagram src (blockDatagram file (m + 1)))).1 ∧
      datagramsTo src (getStep c (.datagram src (blockDatagram file (m + 1)))).2 =
        [ackPacket (UInt16.ofNat (m + 1))] := by
  have hlt := h.running hrun
  have hlast := length_fileBlock_lt_iff file (Nat.succ_pos m)
  rw [blockDatagram, getStep_dataPacket hrun src _ (length_fileBlock_le file (m + 1))]
  simp only [h.expected, if_true]
  have hnext : UInt16.ofNat (m + 1) + 1 = UInt16.ofNat (m + 1 + 1) :=
    (UInt16.ofNat_add (m + 1) 1).symm
  refine ⟨⟨?_, hnext, hlt, ?_, ?_⟩, ?_⟩
  · show c.writes ++ [fileBlock file (m + 1)] = blocks blockSize file (m + 1)
    rw [h.writes, blocks_fileBlock]
  · intro hs
    by_cases hshort : (fileBlock file (m + 1)).length < blockSize
    · simp only [if_pos hshort] at hs
      cases hs
    · have := mt hlast.mpr hshort
      omega
  · intro hs
    by_cases hshort : (fileBlock file (m + 1)).length < blockSize
    · have := hlast.mp hshort
      omega
    · simp only [if_neg hshort] at hs
      cases hs
  · by_cases hshort : (fileBlock file (m + 1)).length < blockSize
    · rw [if_pos hshort]
      simp [datagramsTo]
    · rw [if_neg hshort]
      simp [datagramsTo]

/-- The loop goes on exactly until the last block. -/
theorem accept_status (h : GetProgress file m c) (hrun : c.status = .running) (src : SockAddr) :
    (getStep c (.datagram src (blockDatagram file (m + 1)))).1.status =
      if m + 1 < blockCount file then .running else .returned 0 := by
  have hlast := length_fileBlock_lt_iff file (Nat.succ_pos m)
  rw [blockDatagram, getStep_dataPacket hrun src _ (length_fileBlock_le file (m + 1))]
  simp only [h.expected, if_true]
  by_cases hlt : m + 1 < blockCount file
  · rw [if_pos hlt, if_neg (mt hlast.mp (by omega))]
  · rw [if_neg hlt, if_pos (hlast.mpr (by omega))]

/-- A block with another number is not written, and at most acknowledged. -/
theorem ignore (h : GetProgress file m c) (hrun : c.status = .running) (src : SockAddr) {j : Nat}
    (hne : UInt16.ofNat j ≠ UInt16.ofNat (m + 1)) :
    GetProgress file m (getStep c (.datagram src (blockDatagram file j))).1 ∧
      ∃ reAck : Bool, datagramsTo src (getStep c (.datagram src (blockDatagram file j))).2 =
        if reAck then [ackPacket (UInt16.ofNat j)] else [] := by
  rw [blockDatagram, getStep_dataPacket hrun src _ (length_fileBlock_le file j)]
  simp only [h.expected, if_neg hne]
  by_cases hlt : UInt16.ofNat j < UInt16.ofNat (m + 1)
  · rw [if_pos hlt]
    exact ⟨h.of_eq rfl rfl (.inl rfl), true, by simp⟩
  · rw [if_neg hlt]
    exact ⟨h.of_eq rfl rfl (.inl rfl), false, by simp⟩

/-- A timeout acknowledges the last accepted block again, or gives up. -/
theorem timedOut (h : GetProgress file m c) (addr : SockAddr) :
    GetProgress file m (getStep c .timedOut).1 ∧
      ∃ again : Bool, datagramsTo addr (getStep c .timedOut).2 =
        if again then [ackPacket (UInt16.ofNat m)] else [] := by
  by_cases hrun : c.status = .running
  · rw [getStep_timedOut hrun, getTimeout]
    by_cases hretry : c.retries < maxRetries
    · have hlast : c.expectedBlock - 1 = UInt16.ofNat m := by
        rw [h.expected, UInt16.ofNat_add]
        exact UInt16.add_sub_cancel _ _
      rw [if_pos hretry, hlast, sendto_ackPacket]
      refine ⟨h.of_eq rfl rfl (.inl rfl), decide (c.fromAddr = addr), ?_⟩
      by_cases haddr : c.fromAddr = addr
      · simp [datagramsTo, haddr]
      · simp [datagramsTo, haddr]
    · rw [if_neg hretry]
      exact ⟨h.of_eq rfl rfl (.inr rfl), false, by simp⟩
  · rw [getStep_of_not_running hrun]
    exact ⟨h, false, by simp⟩

theorem failed (h : GetProgress file m c) (addr : SockAddr) :
    GetProgress file m (getStep c .failed).1 ∧ datagramsTo addr (getStep c .failed).2 = [] := by
  by_cases hrun : c.status = .running
  · rw [getStep_failed hrun]
    exact ⟨h.of_eq rfl rfl (.inr rfl), rfl⟩
  · rw [getStep_of_not_running hrun]
    exact ⟨h, rfl⟩

end GetProgress

/-! ## The two parties and the channels -/

/-- What is fixed for a transfer. -/
structure DownloadConfig where
  request : Request
  file : Bytes
  senderAddr : SockAddr
  uninit : Bytes
  uninitAddr : SockAddr

structure DownloadState where
  client : GetState
  sender : Sender
  data : List Bytes
  acks : List Bytes
  deriving DecidableEq, Repr

inductive DownloadAction
  | transmit
  | deliverData
  | deliverAck
  | timeout
  | recvFails
  | disturbData (d : Disturbance)
  | disturbAcks (d : Disturbance)
  deriving DecidableEq, Repr

/-- The client handles a result of `recvfrom`.  What it sends to the sender's
address enters the channel. -/
def DownloadState.clientStep (k : DownloadConfig) (s : DownloadState) (r : RecvResult) :
    DownloadState :=
  { s with
    client := (getStep s.client r).1
    acks := s.acks ++ datagramsTo k.senderAddr (getStep s.client r).2 }

def downloadStep (k : DownloadConfig) (s : DownloadState) : DownloadAction → Option DownloadState
  | .transmit =>
    if s.sender.done then none
    else some { s with data := s.data ++ [blockDatagram k.file s.sender.cur] }
  | .deliverData =>
    match s.data with
    | [] => none
    | d :: rest => some ({ s with data := rest }.clientStep k (.datagram k.senderAddr d))
  | .deliverAck =>
    match s.acks with
    | [] => none
    | d :: rest => some { s with acks := rest, sender := s.sender.takeAck k.file d }
  | .timeout => some (s.clientStep k .timedOut)
  | .recvFails => some (s.clientStep k .failed)
  | .disturbData d => some { s with data := disturb d s.data }
  | .disturbAcks d => some { s with acks := disturb d s.acks }

def DownloadState.start (k : DownloadConfig) : DownloadState :=
  { client := getStart k.request k.uninit k.uninitAddr
    sender := .start
    data := []
    acks := [] }

def download (k : DownloadConfig) : System DownloadState DownloadAction where
  init s := s = .start k
  step := downloadStep k

/-! ## Refinement of stop and wait -/

/-- The datagram carries the block of this index. -/
def CarriesBlock (file : Bytes) (d : Bytes) (x : Option Nat) : Prop :=
  ∃ i, x = some i ∧ d = blockDatagram file i

/-- The datagram acknowledges the block of this index. -/
def CarriesAck (d : Bytes) (x : Option Nat) : Prop :=
  ∃ a, x = some a ∧ d = ackPacket (UInt16.ofNat a)

/-- The sender's variables, seen as the index of the first block that is not
acknowledged. -/
def Sender.index (p : Sender) : Nat := if p.done then p.cur + 1 else p.cur

structure DownloadRelated (k : DownloadConfig) (s : DownloadState) (t : StopAndWait.State) :
    Prop where
  client : GetProgress k.file t.got s.client
  sender : s.sender.index = t.cur
  sender_done : s.sender.done = true → s.sender.cur = blockCount k.file
  sender_le : s.sender.cur ≤ blockCount k.file
  data : List.Forall₂ (CarriesBlock k.file) s.data t.data
  acks : List.Forall₂ CarriesAck s.acks t.acks

/-- Stop and wait with the block numbers of TFTP. -/
abbrev transfer (file : Bytes) : System StopAndWait.State StopAndWait.Action :=
  StopAndWait.system UInt16.ofNat (blockCount file)

section

variable {k : DownloadConfig} {s : DownloadState} {t : StopAndWait.State}

theorem DownloadRelated.start (k : DownloadConfig) :
    DownloadRelated k (.start k) StopAndWait.start where
  client := GetProgress.start k.file k.request k.uninit k.uninitAddr
  sender := rfl
  sender_done h := by cases h
  sender_le := blockCount_pos k.file
  data := .nil
  acks := .nil

/-- The client's handling of a block at the head of the data channel. -/
theorem DownloadRelated.deliverData (h : DownloadRelated k s t)
    (hinv : StopAndWait.Inv (blockCount k.file) t) {d : Bytes} {rest : List Bytes}
    (hd : s.data = d :: rest) :
    ∃ bs t', (transfer k.file).run t bs = some t' ∧
      DownloadRelated k ({ s with data := rest }.clientStep k (.datagram k.senderAddr d)) t' := by
  obtain ⟨x, rest', hx, hrest, htd⟩ := List.forall₂_cons_left_iff.mp (hd ▸ h.data)
  obtain ⟨i, rfl, rfl⟩ := hx
  have hmem : some i ∈ t.data := htd ▸ List.mem_cons_self
  by_cases hrun : s.client.status = .running
  · have hstep : ∀ reAck, (transfer k.file).step t (.receive reAck) =
        some (StopAndWait.State.takeBlock UInt16.ofNat { t with data := rest' } i reAck) := by
      intro reAck
      simp only [StopAndWait.system, StopAndWait.step, htd]
    by_cases hnum : UInt16.ofNat i = UInt16.ofNat (t.got + 1)
    · obtain rfl := (hinv.num_eq_next_iff ofNat_ne_succ hmem).mp hnum
      obtain ⟨hprog, hack⟩ := h.client.accept hrun k.senderAddr
      refine ⟨_, _, System.run_singleton (hstep false), ?_⟩
      rw [StopAndWait.State.takeBlock, if_pos rfl]
      refine { h with client := hprog, data := hrest, acks := ?_ }
      show List.Forall₂ CarriesAck (s.acks ++ datagramsTo k.senderAddr _) _
      rw [hack]
      exact forall₂_concat h.acks ⟨t.got + 1, rfl, rfl⟩
    · obtain ⟨hprog, reAck, hack⟩ := h.client.ignore hrun k.senderAddr hnum
      refine ⟨_, _, System.run_singleton (hstep reAck), ?_⟩
      rw [StopAndWait.State.takeBlock, if_neg hnum]
      have hacks : s.acks ++ datagramsTo k.senderAddr
          (getStep s.client (.datagram k.senderAddr (blockDatagram k.file i))).2 =
            s.acks ++ if reAck then [ackPacket (UInt16.ofNat i)] else [] := by rw [hack]
      cases reAck with
      | true =>
        refine { h with client := hprog, data := hrest, acks := ?_ }
        show List.Forall₂ CarriesAck (s.acks ++ datagramsTo k.senderAddr _) _
        rw [hacks]
        exact forall₂_concat h.acks ⟨i, rfl, rfl⟩
      | false =>
        refine { h with client := hprog, data := hrest, acks := ?_ }
        show List.Forall₂ CarriesAck (s.acks ++ datagramsTo k.senderAddr _) _
        rw [hacks]
        simpa using h.acks
  · -- A call that has returned reads nothing: the datagram is as good as lost.
    have hstep : (transfer k.file).step t (.disturbData (.lose 0)) =
        some { t with data := rest' } := by
      simp only [StopAndWait.system, StopAndWait.step, htd]
      rfl
    refine ⟨_, _, System.run_singleton hstep, ?_⟩
    rw [DownloadState.clientStep, getStep_of_not_running hrun, datagramsTo_nil, List.append_nil]
    exact { h with data := hrest }

/-- The sender's handling of an acknowledgement at the head of its channel. -/
theorem DownloadRelated.deliverAck (h : DownloadRelated k s t)
    (hinv : StopAndWait.Inv (blockCount k.file) t) {d : Bytes} {rest : List Bytes}
    (hd : s.acks = d :: rest) :
    ∃ bs t', (transfer k.file).run t bs = some t' ∧
      DownloadRelated k { s with acks := rest, sender := s.sender.takeAck k.file d } t' := by
  obtain ⟨x, rest', hx, hrest, hta⟩ := List.forall₂_cons_left_iff.mp (hd ▸ h.acks)
  obtain ⟨a, rfl, rfl⟩ := hx
  have hmem : some a ∈ t.acks := hta ▸ List.mem_cons_self
  have hstep : (transfer k.file).step t .advance =
      some (StopAndWait.State.takeAck UInt16.ofNat { t with acks := rest' } a) := by
    simp only [StopAndWait.system, StopAndWait.step, hta]
  refine ⟨_, _, System.run_singleton hstep, ?_⟩
  have hindex := h.sender
  cases hdone : s.sender.done with
  | true =>
    have hcur := h.sender_done hdone
    rw [Sender.index, if_pos hdone] at hindex
    have hne : UInt16.ofNat a ≠ UInt16.ofNat t.cur := by
      intro heq
      have := (hinv.num_eq_cur_iff ofNat_ne_succ hmem).mp heq
      have := hinv.got_le_last
      omega
    rw [StopAndWait.State.takeAck, if_neg hne, Sender.takeAck, if_neg (by simp [hdone])]
    exact { h with acks := hrest }
  | false =>
    rw [Sender.index, hdone, if_neg Bool.false_ne_true] at hindex
    have hle := h.sender_le
    have hiff : ackPacket (UInt16.ofNat a) = ackPacket (UInt16.ofNat s.sender.cur) ↔
        UInt16.ofNat a = UInt16.ofNat t.cur := by
      rw [hindex]
      exact ⟨ackPacket_inj, congrArg ackPacket⟩
    by_cases hnum : UInt16.ofNat a = UInt16.ofNat t.cur
    · rw [StopAndWait.State.takeAck, if_pos hnum, Sender.takeAck, if_pos ⟨hdone, hiff.mpr hnum⟩]
      by_cases hlt : s.sender.cur < blockCount k.file
      · rw [if_pos hlt]
        refine { h with acks := hrest, sender := ?_, sender_done := ?_, sender_le := ?_ }
        · show (if s.sender.done = true then _ else s.sender.cur + 1) = t.cur + 1
          rw [hdone, if_neg Bool.false_ne_true, hindex]
        · intro hd'
          exact absurd (hdone.symm.trans hd') Bool.false_ne_true
        · exact hlt
      · rw [if_neg hlt]
        refine { h with acks := hrest, sender := ?_, sender_done := ?_ }
        · show s.sender.cur + 1 = t.cur + 1
          rw [hindex]
        · intro _
          show s.sender.cur = blockCount k.file
          omega
    · rw [StopAndWait.State.takeAck, if_neg hnum, Sender.takeAck,
        if_neg fun hc => hnum (hiff.mp hc.2)]
      exact { h with acks := hrest }

theorem DownloadRelated.timeout (h : DownloadRelated k s t) :
    ∃ bs t', (transfer k.file).run t bs = some t' ∧
      DownloadRelated k (s.clientStep k .timedOut) t' := by
  obtain ⟨hprog, again, hack⟩ := h.client.timedOut k.senderAddr
  cases again with
  | true =>
    refine ⟨[.ackLast], _, rfl, { h with client := hprog, acks := ?_ }⟩
    show List.Forall₂ CarriesAck (s.acks ++ datagramsTo k.senderAddr _) _
    rw [hack]
    exact forall₂_concat h.acks ⟨t.got, rfl, rfl⟩
  | false =>
    refine ⟨[], t, rfl, { h with client := hprog, acks := ?_ }⟩
    show List.Forall₂ CarriesAck (s.acks ++ datagramsTo k.senderAddr _) _
    rw [hack]
    simpa using h.acks

theorem DownloadRelated.recvFails (h : DownloadRelated k s t) :
    DownloadRelated k (s.clientStep k .failed) t := by
  obtain ⟨hprog, hack⟩ := h.client.failed k.senderAddr
  refine { h with client := hprog, acks := ?_ }
  show List.Forall₂ CarriesAck (s.acks ++ datagramsTo k.senderAddr _) _
  rw [hack, List.append_nil]
  exact h.acks

end

theorem download_simulates (k : DownloadConfig) :
    System.Simulates (download k) (transfer k.file) (DownloadRelated k) where
  init := by
    rintro s rfl
    exact ⟨StopAndWait.start, .init rfl, DownloadRelated.start k⟩
  step := by
    intro s a s' t ht h hs
    have hinv := StopAndWait.reachable_inv ofNat_ne_succ ht
    change downloadStep k s a = some s' at hs
    cases a with
    | transmit =>
      cases hdone : s.sender.done with
      | true => simp [downloadStep, hdone] at hs
      | false =>
        simp only [downloadStep, hdone, Bool.false_eq_true, if_false, Option.some.injEq] at hs
        subst hs
        have hindex := h.sender
        rw [Sender.index, hdone, if_neg Bool.false_ne_true] at hindex
        have hle : t.cur ≤ blockCount k.file := hindex ▸ h.sender_le
        have hstep : (transfer k.file).step t .transmit =
            some { t with data := t.data ++ [some t.cur] } := if_pos hle
        refine ⟨_, _, System.run_singleton hstep, { h with data := ?_ }⟩
        exact forall₂_concat h.data ⟨t.cur, rfl, by rw [hindex]⟩
    | deliverData =>
      cases hd : s.data with
      | nil => simp [downloadStep, hd] at hs
      | cons d rest =>
        simp only [downloadStep, hd, Option.some.injEq] at hs
        exact hs ▸ h.deliverData hinv hd
    | deliverAck =>
      cases hd : s.acks with
      | nil => simp [downloadStep, hd] at hs
      | cons d rest =>
        simp only [downloadStep, hd, Option.some.injEq] at hs
        exact hs ▸ h.deliverAck hinv hd
    | timeout =>
      simp only [downloadStep, Option.some.injEq] at hs
      exact hs ▸ h.timeout
    | recvFails =>
      simp only [downloadStep, Option.some.injEq] at hs
      exact ⟨[], t, rfl, hs ▸ h.recvFails⟩
    | disturbData d =>
      simp only [downloadStep, Option.some.injEq] at hs
      subst hs
      exact ⟨[.disturbData d], _, rfl, { h with data := forall₂_disturb h.data d }⟩
    | disturbAcks d =>
      simp only [downloadStep, Option.some.injEq] at hs
      subst hs
      exact ⟨[.disturbAcks d], _, rfl, { h with acks := forall₂_disturb h.acks d }⟩

/-- At every point the local file is the first `m` blocks, with `m` the
sender's block or one less, and a download that reports success has the whole
file. -/
theorem download_agreement (k : DownloadConfig) {s : DownloadState}
    (h : (download k).Reachable s) :
    (∃ m, m ≤ blockCount k.file ∧ s.client.file = (blocks blockSize k.file m).flatten ∧
      (m = s.sender.cur ∨ m + 1 = s.sender.cur)) ∧
    (s.client.status = .returned 0 → s.client.file = k.file) := by
  obtain ⟨t, ht, hrel⟩ := (download_simulates k).reachable h
  have hinv := StopAndWait.reachable_inv ofNat_ne_succ ht
  refine ⟨⟨t.got, hrel.client.le_count, hrel.client.file_eq, ?_⟩,
    hrel.client.file_eq_of_returned⟩
  have hindex := hrel.sender
  have hgc := hinv.got_le_cur
  have hcg := hinv.cur_le_got
  have hgl := hinv.got_le_last
  cases hdone : s.sender.done with
  | true =>
    have := hrel.sender_done hdone
    rw [Sender.index, if_pos hdone] at hindex
    omega
  | false =>
    rw [Sender.index, hdone, if_neg Bool.false_ne_true] at hindex
    omega

theorem download_agreement_one_byte :
    let k : DownloadConfig :=
      { request := ⟨0, ascii "f", by decide⟩, file := [7], senderAddr := ⟨1, 2000⟩
        uninit := [], uninitAddr := ⟨0, 0⟩ }
    ∃ s, (download k).Reachable s ∧ s.client.status = .returned 0 ∧ s.client.file = [7] := by
  intro k
  obtain ⟨s, hs, hret⟩ := System.exists_reachable (M := download k) (f := (·.client.status))
    (c := .returned 0) (s := .start k)
    (l := [.timeout, .transmit, .disturbData (.dup 0), .deliverData, .deliverData]) rfl (by decide)
  exact ⟨s, hs, hret, (download_agreement k hs).2 hret⟩

end Tftp
end NetLab
