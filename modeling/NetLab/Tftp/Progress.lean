import NetLab.Library.Possibility
import NetLab.Tftp.Download

/-!
# A download whose sender has started can still succeed

From any state the client and a sender at work may have come to, a network that
has settled brings the rest of the file across: it delivers what is in flight,
in order, and `recvfrom` times out only when nothing is.
-/

namespace NetLab
namespace Tftp

open Transition Blocks Fifo

/-- A step of a network that has settled. -/
def Settled (s : DownloadState) : DownloadAction → Prop
  | .transmit | .deliverData | .deliverAck => True
  | .timeout => s.data = [] ∧ s.acks = []
  | .recvFails | .disturbData _ | .disturbAcks _ => False

/-- The call has succeeded, or goes on with at least `m` blocks. -/
def GetState.Past (m : Nat) (c : GetState) : Prop :=
  c.status = .returned 0 ∨ c.status = .running ∧ m ≤ c.writes.length

section

variable {k : DownloadConfig} {s : DownloadState}

/-- What a DATA datagram of any number does to the variables that decide how the
loop goes on. -/
theorem GetState.past_block {c : GetState} (hrun : c.status = .running) (src : SockAddr)
    (file : Bytes) (j : Nat) :
    (getStep c (.datagram src (blockDatagram file j))).1.Past c.writes.length ∧
      (getStep c (.datagram src (blockDatagram file j))).1.fromAddr = src ∧
      (getStep c (.datagram src (blockDatagram file j))).1.retries = 0 := by
  rw [blockDatagram, getStep_dataPacket hrun src _ (length_fileBlock_le file j)]
  dsimp only
  by_cases hnum : UInt16.ofNat j = c.expectedBlock
  · rw [if_pos hnum]
    refine ⟨?_, rfl, rfl⟩
    by_cases hshort : (fileBlock file j).length < blockSize
    · exact .inl (if_pos hshort)
    · refine .inr ⟨if_neg hshort, ?_⟩
      rw [List.length_append]
      exact Nat.le_add_right _ _
  · rw [if_neg hnum]
    by_cases hlt : UInt16.ofNat j < c.expectedBlock
    · rw [if_pos hlt]
      exact ⟨.inr ⟨hrun, Nat.le_refl _⟩, rfl, rfl⟩
    · rw [if_neg hlt]
      exact ⟨.inr ⟨hrun, Nat.le_refl _⟩, rfl, rfl⟩

/-- Where the two parties stand while the call runs. -/
structure Underway (k : DownloadConfig) (m : Nat) (s : DownloadState) : Prop where
  reachable : (download k).Reachable s
  running : s.client.status = .running
  client : GetProgress k.file m s.client
  blocks : s.client.writes.length = m
  sender : s.sender.done = false
  level : s.sender.cur = m ∨ s.sender.cur = m + 1
  data : ∀ d ∈ s.data, ∃ j, d = blockDatagram k.file j

theorem Underway.lt_count {m : Nat} (h : Underway k m s) : m < blockCount k.file :=
  h.client.running h.running

theorem underway (h : (download k).Reachable s) (hrun : s.client.status = .running) :
    Underway k s.client.writes.length s := by
  obtain ⟨t, ht, hrel⟩ := (download_simulates k).reachable h
  have hinv := StopAndWait.reachable_inv ofNat_ne_succ ht
  have hlen : s.client.writes.length = t.got := by rw [hrel.client.writes, length_blocks]
  have hlt := hrel.client.running hrun
  have hgc := hinv.got_le_cur
  have hcg := hinv.cur_le_got
  have hindex := hrel.sender
  have hdone : s.sender.done = false := by
    cases hd : s.sender.done with
    | false => rfl
    | true =>
      have hlast := hrel.sender_done hd
      rw [Sender.index, if_pos hd] at hindex
      omega
  rw [Sender.index, hdone, if_neg Bool.false_ne_true] at hindex
  refine { reachable := h, running := hrun, client := hlen ▸ hrel.client, blocks := rfl,
           sender := hdone, level := by omega, data := fun d hd => ?_ }
  obtain ⟨_, -, j, -, hj⟩ := exists_related hrel.data hd
  exact ⟨j, hj⟩

/-! ## Emptying the channels -/

/-- Acknowledgements in flight can be delivered while the client waits. -/
theorem can_drain_acks (k : DownloadConfig) (s : DownloadState) :
    (download k).Can Settled
      (fun s' => s'.acks = [] ∧ s'.data = s.data ∧ s'.client = s.client) s := by
  induction hacks : s.acks generalizing s with
  | nil => exact .here ⟨hacks, rfl, rfl⟩
  | cons d rest ih =>
    have hstep : (download k).step s .deliverAck =
        some { s with acks := rest, sender := s.sender.takeAck k.file d } := by
      show downloadStep k s .deliverAck = _
      rw [downloadStep, hacks]
    exact .step hstep trivial
      (ih { s with acks := rest, sender := s.sender.takeAck k.file d } rfl)

/-- Blocks in flight can be delivered.  None of them sets the client back. -/
theorem can_drain_data (h : (download k).Reachable s) (hrun : s.client.status = .running) :
    (download k).Can Settled
      (fun s' => s'.client.Past s.client.writes.length ∧
        (s'.client.status = .running → s'.data = [])) s := by
  induction hdata : s.data generalizing s with
  | nil => exact .here ⟨.inr ⟨hrun, Nat.le_refl _⟩, fun _ => hdata⟩
  | cons d rest ih =>
    have hstep : (download k).step s .deliverData =
        some ({ s with data := rest }.clientStep k (.datagram k.senderAddr d)) := by
      show downloadStep k s .deliverData = _
      rw [downloadStep, hdata]
    obtain ⟨j, rfl⟩ := (underway h hrun).data d (hdata ▸ List.mem_cons_self)
    obtain ⟨hpast, -, -⟩ := GetState.past_block hrun k.senderAddr k.file j
    refine .step hstep trivial ?_
    rcases hpast with hret | ⟨hrun', hle⟩
    · exact .here ⟨.inl hret, fun hr => absurd (hret.symm.trans hr) Status.noConfusion⟩
    · refine (ih (h.step hstep) hrun' rfl).mono fun s' hs' => ⟨?_, hs'.2⟩
      exact hs'.1.imp_right fun hp => ⟨hp.1, Nat.le_trans hle hp.2⟩

/-! ## One more block -/

theorem step_transmit (h : s.sender.done = false) :
    (download k).step s .transmit =
      some { s with data := s.data ++ [blockDatagram k.file s.sender.cur] } := by
  show downloadStep k s .transmit = _
  rw [downloadStep, h, if_neg Bool.false_ne_true]

/-- The sender's block crosses an empty channel. -/
theorem can_cross (hdone : s.sender.done = false) (hdata : s.data = []) {P : DownloadState → Prop}
    (hnext : (download k).Can Settled P
      (s.clientStep k (.datagram k.senderAddr (blockDatagram k.file s.sender.cur)))) :
    (download k).Can Settled P s := by
  refine .step (step_transmit hdone) trivial (.step (a := .deliverData) ?_ trivial hnext)
  show downloadStep k _ .deliverData = _
  rw [hdata]
  obtain ⟨client, sender, data, acks⟩ := s
  obtain rfl : data = [] := hdata
  rfl

/-- When the sender is one block ahead, that block is accepted. -/
theorem can_accept {m : Nat} (h : Underway k m s) (hdata : s.data = [])
    (hcur : s.sender.cur = m + 1) :
    (download k).Can Settled (fun s' => s'.client.Past (m + 1)) s := by
  refine can_cross h.sender hdata (.here ?_)
  rw [hcur]
  obtain ⟨hprog, -⟩ := h.client.accept h.running k.senderAddr
  have hstatus := h.client.accept_status h.running k.senderAddr
  by_cases hlast : m + 1 < blockCount k.file
  · rw [if_pos hlast] at hstatus
    refine .inr ⟨hstatus, ?_⟩
    show m + 1 ≤ (getStep s.client _).1.writes.length
    rw [hprog.writes, length_blocks]
  · rw [if_neg hlast] at hstatus
    exact .inl hstatus

/-- The acknowledgement of block `m` in flight, and nothing else: the sender moves
on when it reads it. -/
theorem can_acknowledge {m : Nat} (h : Underway k m s) (hcur : s.sender.cur = m)
    (hacks : s.acks = [ackPacket (UInt16.ofNat m)]) :
    (download k).Can Settled
      (fun s' => s'.acks = [] ∧ s'.data = s.data ∧ s'.client = s.client ∧
        s'.sender.cur = m + 1) s := by
  have hstep : (download k).step s .deliverAck =
      some { s with
        acks := [], sender := s.sender.takeAck k.file (ackPacket (UInt16.ofNat m)) } := by
    show downloadStep k s .deliverAck = _
    rw [downloadStep, hacks]
  refine .one hstep trivial ⟨rfl, rfl, rfl, ?_⟩
  show (s.sender.takeAck k.file _).cur = m + 1
  rw [Sender.takeAck, if_pos ⟨h.sender, by rw [hcur]⟩, hcur, if_pos h.lt_count]

/-- The client is quiet and the sender is one block ahead. -/
structure Ready (k : DownloadConfig) (m : Nat) (s : DownloadState) : Prop where
  underway : Underway k m s
  data : s.data = []
  acks : s.acks = []
  ahead : s.sender.cur = m + 1

/-- A client that has just read a datagram of the sender acknowledges its last
block when nothing else comes. -/
theorem can_time_out {m : Nat} (h : Underway k m s) (hdata : s.data = []) (hacks : s.acks = [])
    (haddr : s.client.fromAddr = k.senderAddr) (hretries : s.client.retries = 0)
    (hcur : s.sender.cur = m) : (download k).Can Settled (Ready k m) s := by
  have hstep : (download k).step s .timeout = some (s.clientStep k .timedOut) := rfl
  have hlast : s.client.expectedBlock - 1 = UInt16.ofNat m := by
    rw [h.client.expected, UInt16.ofNat_add]
    exact UInt16.add_sub_cancel _ _
  have hclient : getStep s.client .timedOut =
      ({ s.client with retries := 1 }, [.sendto k.senderAddr (ackPacket (UInt16.ofNat m))]) := by
    have hretry : s.client.retries < maxRetries := by
      rw [hretries]
      decide
    rw [getStep_timedOut h.running, getTimeout, if_pos hretry, hretries, ← haddr, hlast,
      sendto_ackPacket]
  have hlater : s.clientStep k .timedOut =
      { s with client := { s.client with retries := 1 }
               acks := [ackPacket (UInt16.ofNat m)] } := by
    rw [DownloadState.clientStep, hclient, datagramsTo_self, hacks, List.nil_append]
  rw [hlater] at hstep
  have hreach := h.reachable.step hstep
  have hagain : Underway k m { s with client := { s.client with retries := 1 }
                                      acks := [ackPacket (UInt16.ofNat m)] } :=
    { h with reachable := hreach, client := h.client.of_eq rfl rfl (.inl rfl) }
  refine .step hstep ⟨hdata, hacks⟩ (((can_acknowledge hagain hcur rfl).reachable hreach).mono ?_)
  rintro s' ⟨hs', hacks', hdata', hclient', hcur'⟩
  have hwrites : s'.client.writes.length = m := by rw [hclient', ← h.blocks]
  have hrun' : s'.client.status = .running := by
    rw [hclient']
    exact h.running
  exact ⟨hwrites ▸ Tftp.underway hs' hrun', hdata'.trans hdata, hacks', hcur'⟩

/-- When the acknowledgement of block `m` was lost, the sender's copy of that
block makes the client acknowledge it again, at once or after a timeout. -/
theorem can_get_ready {m : Nat} (h : Underway k m s) (hdata : s.data = []) (hacks : s.acks = []) :
    (download k).Can Settled (Ready k m) s := by
  rcases h.level with hcur | hcur
  · refine can_cross h.sender hdata ?_
    rw [hcur]
    obtain ⟨hpast, haddr, hretries⟩ := GetState.past_block h.running k.senderAddr k.file m
    obtain ⟨hprog, -⟩ := h.client.ignore h.running k.senderAddr (ofNat_ne_succ m)
    have hrun : (getStep s.client
        (.datagram k.senderAddr (blockDatagram k.file m))).1.status = .running := by
      rcases hpast with hret | hpast
      · have := hprog.returned hret
        have := h.lt_count
        omega
      · exact hpast.1
    have hreach : (download k).Reachable
        (s.clientStep k (.datagram k.senderAddr (blockDatagram k.file m))) := by
      have hsent := h.reachable.step (step_transmit h.sender)
      rw [hcur, hdata, List.nil_append] at hsent
      have hgot := hsent.step (a := .deliverData) rfl
      obtain ⟨client, sender, data, acks⟩ := s
      obtain rfl : data = [] := hdata
      exact hgot
    refine ((can_drain_acks k _).reachable hreach).trans ?_
    rintro s' ⟨hs', hacks', hdata', hclient'⟩
    have hrun' : s'.client.status = .running := by
      rw [hclient']
      exact hrun
    have hwrites : s'.client.writes.length = m := by
      rw [hclient']
      show (getStep s.client _).1.writes.length = m
      rw [hprog.writes, length_blocks]
    have hunder : Underway k m s' := hwrites ▸ Tftp.underway hs' hrun'
    rcases hunder.level with hcur' | hcur'
    · exact can_time_out hunder (hdata'.trans hdata) hacks' (hclient' ▸ haddr)
        (hclient' ▸ hretries) hcur'
    · exact .here ⟨hunder, hdata'.trans hdata, hacks', hcur'⟩
  · exact .here ⟨h, hdata, hacks, hcur⟩

/-- A settled network brings the next block across, whatever was lost before. -/
theorem can_advance {m : Nat} (h : Underway k m s) :
    (download k).Can Settled (fun s' => s'.client.Past (m + 1)) s := by
  refine ((can_drain_data h.reachable h.running).reachable h.reachable).trans ?_
  rintro s₁ ⟨hs₁, hpast, hdata⟩
  rw [h.blocks] at hpast
  rcases hpast with hret | ⟨hrun, hle⟩
  · exact .here (.inl hret)
  rcases Nat.lt_or_ge m s₁.client.writes.length with hlt | hge
  · exact .here (.inr ⟨hrun, hlt⟩)
  have hm : s₁.client.writes.length = m := Nat.le_antisymm hge hle
  refine ((can_drain_acks k s₁).reachable hs₁).trans ?_
  rintro s₂ ⟨hs₂, hacks, hdata₂, hclient⟩
  have hunder : Underway k m s₂ := by
    have hu := Tftp.underway hs₂ (hclient ▸ hrun)
    rwa [hclient, hm] at hu
  refine (can_get_ready hunder (hdata₂.trans (hdata hrun)) hacks).trans fun s₃ hready => ?_
  exact can_accept hready.underway hready.data hready.ahead

end

/-- However many datagrams were lost and repeated so far: as long as the call
has not returned, a network that has settled can bring it to report success, and
then the local file is the whole file. -/
theorem download_can_succeed (k : DownloadConfig) {s : DownloadState}
    (h : (download k).Reachable s) (hrun : s.client.status = .running) :
    ∃ as s', (download k).Along Settled s as ∧ (download k).run s as = some s' ∧
      s'.client.status = .returned 0 ∧ s'.client.file = k.file := by
  rw [← System.can_iff_exists_run]
  suffices hret : (download k).Can Settled (fun s' => s'.client.status = .returned 0) s by
    refine (hret.reachable h).mono fun s' hs' => ⟨hs'.2, ?_⟩
    obtain ⟨t, -, hrel⟩ := (download_simulates k).reachable hs'.1
    exact hrel.client.file_eq_of_returned hs'.2
  refine System.Can.descend (I := fun s => (download k).Reachable s ∧ s.client.status = .running)
    (fun s => blockCount k.file - s.client.writes.length) ?_ ⟨h, hrun⟩
  rintro s ⟨hs, hr⟩
  have hunder := underway hs hr
  have hlt := hunder.lt_count
  refine ((can_advance hunder).reachable hs).mono fun s' hs' => ?_
  rcases hs'.2 with hret | ⟨hr', hle⟩
  · exact .inl hret
  · exact .inr ⟨⟨hs'.1, hr'⟩, by omega⟩

end Tftp
end NetLab
