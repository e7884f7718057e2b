import NetLab.Library.Possibility
import NetLab.Tftp.Upload

/-!
# What an upload can recover from

`tftp_put` never sends a DATA datagram twice.  Once the only copies of one are
lost, the receiver keeps what it has for good; until then the network can still
bring the whole file across.
-/

namespace NetLab
namespace Tftp

open Transition Fifo Blocks

variable {k : UploadConfig} {s s' : UploadState}

/-! ## A block that is lost -/

/-- A datagram on the way to the server that brings nothing after the first `n`
blocks. -/
def Behind (k : UploadConfig) (n : Nat) (m : SockAddr × Bytes) : Prop :=
  ∃ x, CarriesUp k m x ∧ ∀ i ∈ x, i = n + 1

/-- The client has sent block `n + 1`, the receiver has `n` blocks, and no copy
of the block is in flight. -/
structure Lost (k : UploadConfig) (n : Nat) (s : UploadState) : Prop where
  le_count : n ≤ blockCount k.file
  client : PutProgress k (n + 1) s.client
  receiver : Received k.file (n + 1) s.receiver
  up : ∀ m ∈ s.up, Behind k n m
  down : ∀ d ∈ s.down, d = ackPacket (UInt16.ofNat n) ∨ ∃ message, d = htons opError ++ message

theorem Received.unique {file : Bytes} {n : Nat} {r r' : Receiver}
    (h : Received file (n + 1) r) (h' : Received file (n + 1) r') : r' = r := by
  obtain ⟨phase, blocks⟩ := r
  obtain ⟨phase', blocks'⟩ := r'
  obtain ⟨rfl, rfl⟩ := h
  obtain ⟨rfl, rfl⟩ := h'
  rfl

theorem Received.length {file : Bytes} {n : Nat} {r : Receiver} (h : Received file (n + 1) r) :
    r.blocks.length = n := by
  rw [h.1, length_blocks]

namespace Lost

variable {n : Nat}

/-- The receiver's answer to a datagram that brings nothing. -/
theorem receiverStep (h : Lost k n s) {m : SockAddr × Bytes} (hm : Behind k n m) :
    Lost k n (s.receiverStep k m) ∧ (s.receiverStep k m).receiver = s.receiver := by
  have hlate : ∀ r' : Receiver, ∀ i, Received k.file i r' → i = n + 1 → r' = s.receiver := by
    rintro r' i hr' rfl
    exact h.receiver.unique hr'
  obtain ⟨x, hx, hi⟩ := hm
  cases hx with
  | request =>
    obtain rfl : n = 0 := by
      have := hi 1 rfl
      omega
    obtain ⟨hrecv, hack⟩ := h.receiver.request (.inl rfl) k.request.remoteFile
    rw [UploadState.receiverStep, if_pos rfl, hack]
    refine ⟨{ h with receiver := hrecv, down := fun d hd => ?_ }, hlate _ _ hrecv rfl⟩
    rcases List.mem_append.mp hd with hd | hd
    · exact h.down d hd
    · exact .inl (List.mem_singleton.mp hd)
  | block j =>
    obtain rfl : n = j + 1 := by
      have := hi (j + 2) rfl
      omega
    obtain ⟨hrecv, hack⟩ := h.receiver.block (.inl rfl) h.le_count
    rw [UploadState.receiverStep, if_neg k.transfer_ne, if_pos rfl, hack]
    refine ⟨{ h with receiver := hrecv, down := fun d hd => ?_ }, hlate _ _ hrecv rfl⟩
    rcases List.mem_append.mp hd with hd | hd
    · exact h.down d hd
    · exact .inl (List.mem_singleton.mp hd)
  | stray data hdata =>
    rw [UploadState.receiverStep, if_pos rfl, Receiver.takeRequest, if_neg hdata]
    exact ⟨{ h with down := by simpa using h.down }, rfl⟩

/-- A step of the client after which the loss is as before: it sends nothing that
the receiver takes. -/
theorem of_client (h : Lost k n s) {r : RecvResult}
    (hprog : PutProgress k (n + 1) (putStep k.request s.client r).1)
    (hsent : ∀ m ∈ sends (putStep k.request s.client r).2, Behind k n m) :
    Lost k n (s.clientStep k r) := by
  refine { h with client := hprog, up := fun m hm => ?_ }
  rcases List.mem_append.mp hm with hm | hm
  · exact h.up m hm
  · exact hsent m hm

theorem sends_nothing (h : Lost k n s) {r : RecvResult}
    (hprog : PutProgress k (n + 1) (putStep k.request s.client r).1)
    (hsent : sends (putStep k.request s.client r).2 = []) : Lost k n (s.clientStep k r) := by
  refine h.of_client hprog fun m hm => ?_
  rw [hsent] at hm
  cases hm

/-- A call that has returned, or waits in the second `recvfrom`, sends no more. -/
theorem idle_client (h : Lost k n s) (r : RecvResult)
    (hidle : s.client.status ≠ .running ∨ s.client.final = true) : Lost k n (s.clientStep k r) := by
  by_cases hrun : s.client.status = .running
  · obtain ⟨hprog, hsent⟩ := h.client.final_step hrun (hidle.resolve_left (not_not.mpr hrun)) r
    exact h.sends_nothing hprog hsent
  · have hnone := putStep_of_not_running (q := k.request) hrun r
    exact h.sends_nothing (by rw [hnone]; exact h.client) (by rw [hnone]; rfl)

/-- The client reads an acknowledgement it no longer waits for, or an ERROR. -/
theorem deliverDown (h : Lost k n s) {d : Bytes}
    (hd : d = ackPacket (UInt16.ofNat n) ∨ ∃ message, d = htons opError ++ message) :
    Lost k n (s.clientStep k (.datagram k.transferAddr d)) := by
  by_cases hidle : s.client.status ≠ .running ∨ s.client.final = true
  · exact h.idle_client _ hidle
  rw [not_or, not_not, Bool.not_eq_true] at hidle
  obtain ⟨hrun, hf⟩ := hidle
  rcases hd with rfl | ⟨message, rfl⟩
  · have hstep := putStep_ackPacket (q := k.request) hrun hf k.transferAddr (UInt16.ofNat n)
    rw [h.client.num, if_neg (ofNat_ne_succ n)] at hstep
    refine h.sends_nothing ?_ (by rw [hstep]; rfl)
    rw [hstep]
    refine { h.client with request := fun hz => absurd hz (Nat.succ_ne_zero n),
                           opcode := fun _ _ => ?_ }
    show ntohs (store _ _) 0 ≠ opWrq
    rw [(ntohs_store_ackPacket _ _).1]
    decide
  · obtain ⟨c', hc, hstatus, hn, hr, hfin⟩ :=
      putStep_error (q := k.request) hrun hf k.transferAddr message
    refine h.sends_nothing ?_ (by rw [hc]; rfl)
    rw [hc]
    refine h.client.of_eq hn hr hfin fun hr' => ?_
    rw [hstatus] at hr'
    cases hr'

/-- A timeout sends at most bytes that are no request. -/
theorem timeout (h : Lost k n s) : Lost k n (s.clientStep k .timedOut) := by
  by_cases hidle : s.client.status ≠ .running ∨ s.client.final = true
  · exact h.idle_client _ hidle
  rw [not_or, not_not, Bool.not_eq_true] at hidle
  obtain ⟨hprog, hsent | ⟨data, hsent, hdata⟩⟩ := h.client.timedOut hidle.1 hidle.2
  · exact h.sends_nothing hprog hsent
  · have hstray := hdata.resolve_left fun hz => Nat.succ_ne_zero n hz.1
    refine h.of_client hprog fun m hm => ?_
    rw [hsent, List.mem_singleton] at hm
    exact hm ▸ ⟨none, .stray data hstray, fun _ hi => absurd hi (Option.not_mem_none _)⟩

theorem recvFails (h : Lost k n s) : Lost k n (s.clientStep k .failed) := by
  by_cases hidle : s.client.status ≠ .running ∨ s.client.final = true
  · exact h.idle_client _ hidle
  rw [not_or, not_not, Bool.not_eq_true] at hidle
  have hstep := putStep_failed (q := k.request) hidle.1 hidle.2
  refine h.sends_nothing ?_ (by rw [hstep]; rfl)
  rw [hstep]
  exact h.client.of_eq rfl rfl rfl fun hr => Status.noConfusion hr

/-- Nothing that either party or the network does brings the block back. -/
theorem step (h : Lost k n s) {a : UploadAction} (hs : (upload k).step s a = some s') :
    Lost k n s' ∧ s'.receiver = s.receiver := by
  change uploadStep k s a = some s' at hs
  cases a with
  | deliverUp =>
    cases hd : s.up with
    | nil => simp [uploadStep, hd] at hs
    | cons m rest =>
      simp only [uploadStep, hd, Option.some.injEq] at hs
      have hmem := h.up
      rw [hd] at hmem
      have hrest : Lost k n { s with up := rest } :=
        { h with up := fun m' hm' => hmem m' (List.mem_cons_of_mem _ hm') }
      exact hs ▸ hrest.receiverStep (hmem m List.mem_cons_self)
  | deliverDown =>
    cases hd : s.down with
    | nil => simp [uploadStep, hd] at hs
    | cons d rest =>
      simp only [uploadStep, hd, Option.some.injEq] at hs
      have hmem := h.down
      rw [hd] at hmem
      have hrest : Lost k n { s with down := rest } :=
        { h with down := fun d' hd' => hmem d' (List.mem_cons_of_mem _ hd') }
      exact hs ▸ ⟨hrest.deliverDown (hmem d List.mem_cons_self), rfl⟩
  | timeout =>
    simp only [uploadStep, Option.some.injEq] at hs
    exact hs ▸ ⟨h.timeout, rfl⟩
  | recvFails =>
    simp only [uploadStep, Option.some.injEq] at hs
    exact hs ▸ ⟨h.recvFails, rfl⟩
  | receiverTimeout =>
    by_cases hidle : s.receiver.phase = .idle
    · simp [uploadStep, hidle] at hs
    · simp only [uploadStep, if_neg hidle, Option.some.injEq] at hs
      refine hs ▸ ⟨{ h with down := fun d hd => ?_ }, rfl⟩
      rcases List.mem_append.mp hd with hd | hd
      · exact h.down d hd
      · rw [List.mem_singleton, Receiver.lastAck, h.receiver.length] at hd
        exact .inl hd
  | receiverError message =>
    simp only [uploadStep, Option.some.injEq] at hs
    refine hs ▸ ⟨{ h with down := fun d hd => ?_ }, rfl⟩
    rcases List.mem_append.mp hd with hd | hd
    · exact h.down d hd
    · exact .inr ⟨message, List.mem_singleton.mp hd⟩
  | disturbUp d =>
    simp only [uploadStep, Option.some.injEq] at hs
    exact hs ▸ ⟨{ h with up := fun m hm => h.up m (mem_of_mem_disturb hm) }, rfl⟩
  | disturbDown d =>
    simp only [uploadStep, Option.some.injEq] at hs
    exact hs ▸ ⟨{ h with down := fun m hm => h.down m (mem_of_mem_disturb hm) }, rfl⟩

theorem run (h : Lost k n s) {as : List UploadAction} (hs : (upload k).run s as = some s') :
    Lost k n s' ∧ s'.receiver = s.receiver := by
  induction as generalizing s with
  | nil =>
    rw [System.run_nil, Option.some.injEq] at hs
    exact hs ▸ ⟨h, rfl⟩
  | cons a as ih =>
    rw [System.run, Option.bind_eq_some_iff] at hs
    obtain ⟨t, hstep, hrest⟩ := hs
    obtain ⟨ht, hrecv⟩ := h.step hstep
    obtain ⟨hs', hrecv'⟩ := ih ht hrest
    exact ⟨hs', hrecv'.trans hrecv⟩

end Lost

/-! ## Where the parties stand -/

/-- The datagram that brings the receiver its next block. -/
def UploadState.nextBlock (k : UploadConfig) (s : UploadState) : SockAddr × Bytes :=
  (k.transferAddr, blockDatagram k.file (s.receiver.blocks.length + 1))

theorem ofNat_eq_of_blockDatagram {file : Bytes} {i j : Nat}
    (h : blockDatagram file i = blockDatagram file j) : UInt16.ofNat i = UInt16.ofNat j := by
  have hi := (ntohs_dataPacket (UInt16.ofNat i) (fileBlock file i)).2.1
  have hj := (ntohs_dataPacket (UInt16.ofNat j) (fileBlock file j)).2.1
  rw [← blockDatagram, h, blockDatagram, hj] at hi
  exact hi.symm

/-- The receiver waits for block `n + 1`.  The client has sent that block, or
waits for the acknowledgement of the one before. -/
structure Waiting (k : UploadConfig) (n : Nat) (s : UploadState) : Prop where
  reachable : (upload k).Reachable s
  receiver : Received k.file (n + 1) s.receiver
  lt_count : n < blockCount k.file
  client : PutProgress k n s.client ∨ PutProgress k (n + 1) s.client
  sent : s.nextBlock k ∈ s.up → PutProgress k (n + 1) s.client
  lost : PutProgress k (n + 1) s.client → s.nextBlock k ∉ s.up → Lost k n s

theorem waiting (h : (upload k).Reachable s) (hphase : s.receiver.phase = .receiving) :
    Waiting k s.receiver.blocks.length s := by
  obtain ⟨t, ht, hrel⟩ := (upload_simulates k).reachable h
  have hinv := StopAndWait.reachable_inv uploadNum_ne_succ ht
  have hgc := hinv.got_le_cur
  have hcg := hinv.cur_le_got
  have hgl := hinv.got_le_last
  have hcount := putCount_le_blockCount k.file
  obtain ⟨j, hcur, hprog⟩ := hrel.client
  have hrecv := hrel.receiver
  obtain ⟨n, hgot⟩ : ∃ n, t.got = n + 1 := by
    cases hgot : t.got with
    | succ n => exact ⟨n, rfl⟩
    | zero =>
      rw [hgot] at hrecv
      have hstart : s.receiver = .start := hrecv
      rw [hstart] at hphase
      cases hphase
  rw [hgot] at hrecv
  have hlen := hrecv.length
  have hlt : n < blockCount k.file := by
    by_contra hge
    have := hrecv.2
    rw [hphase, if_neg hge] at this
    cases this
  -- What is in flight to the server brings block `n` again or block `n + 1`.
  have hnext : ∀ x, CarriesUp k (s.nextBlock k) x → x ∈ t.data → t.cur = n + 2 := by
    intro x hx hmem
    generalize hm : s.nextBlock k = m at hx
    rw [UploadState.nextBlock, hlen] at hm
    cases hx with
    | request => exact absurd (Prod.mk.inj hm).1 k.transfer_ne
    | stray data hdata => exact absurd (Prod.mk.inj hm).1 k.transfer_ne
    | block i =>
      have hge := hinv.data_ge _ hmem
      have hle := hinv.data_le _ hmem
      have hnum := ofNat_eq_of_blockDatagram (Prod.mk.inj hm).2
      have hne : i + 1 ≠ n := by
        rintro rfl
        exact ofNat_ne_succ (i + 1) hnum.symm
      omega
  refine { reachable := h, receiver := hlen ▸ hrecv, lt_count := hlen ▸ hlt, client := ?_,
           sent := ?_, lost := ?_ }
  · rw [hlen]
    rcases Nat.lt_or_ge j (n + 1) with hj | hj
    · exact .inl ((show j = n by omega) ▸ hprog)
    · exact .inr ((show j = n + 1 by omega) ▸ hprog)
  · intro hmem
    obtain ⟨x, hx, hcarries⟩ := exists_related hrel.up hmem
    have := hnext x hcarries hx
    rw [hlen]
    exact (show j = n + 1 by omega) ▸ hprog
  · intro hsent hnone
    rw [hlen] at hsent ⊢
    have hj : j = n + 1 := by
      have hnum := hprog.num.symm.trans hsent.num
      have hne : j ≠ n := by
        rintro rfl
        exact ofNat_ne_succ j hnum
      omega
    refine { le_count := Nat.le_of_lt hlt, client := hsent, receiver := hrecv,
             up := fun m hm => ?_, down := fun d hd => ?_ }
    · obtain ⟨x, hx, hcarries⟩ := exists_related hrel.up hm
      refine ⟨x, hcarries, fun i hi => ?_⟩
      obtain rfl : x = some i := hi
      have hge := hinv.data_ge i hx
      have hle := hinv.data_le i hx
      have hne : i ≠ n + 2 := by
        rintro rfl
        generalize hz : some (n + 2) = z at hcarries
        cases hcarries with
        | request =>
          have := Option.some.inj hz
          omega
        | stray data hdata => cases hz
        | block i' =>
          obtain rfl : n = i' := by
            have := Option.some.inj hz
            omega
          exact hnone (by rw [UploadState.nextBlock, hlen]; exact hm)
      omega
    · obtain ⟨x, hx, hcarries⟩ := exists_related hrel.down hd
      cases hcarries with
      | error message => exact .inr ⟨message, rfl⟩
      | ack a =>
        have hge := hinv.acks_ge _ hx
        have hle := hinv.acks_le _ hx
        exact .inl (by rw [show a = n by omega])

/-! ## Bringing the file across -/

/-- Any run may continue the transfer. -/
abbrev Free : UploadState → UploadAction → Prop := fun _ _ => True

/-- What lies before a datagram in the channel can be lost. -/
theorem can_come_first (k : UploadConfig) {m : SockAddr × Bytes} (s : UploadState)
    (hm : m ∈ s.up) :
    (upload k).Can Free (fun s' => ∃ rest, s' = { s with up := m :: rest }) s := by
  induction hup : s.up generalizing s with
  | nil =>
    rw [hup] at hm
    cases hm
  | cons m' rest ih =>
    rw [hup] at hm
    rcases List.mem_cons.mp hm with rfl | hm
    · exact .here ⟨rest, by rw [← hup]⟩
    · have hstep : (upload k).step s (.disturbUp (.lose 0)) = some { s with up := rest } := by
        show uploadStep k s (.disturbUp (.lose 0)) = _
        rw [uploadStep, hup]
        rfl
      exact .step hstep trivial (ih { s with up := rest } hm rfl)

theorem can_clear_down (k : UploadConfig) (s : UploadState) :
    (upload k).Can Free (fun s' => s' = { s with down := [] }) s := by
  induction hdown : s.down generalizing s with
  | nil => exact .here (by rw [← hdown])
  | cons d rest ih =>
    have hstep : (upload k).step s (.disturbDown (.lose 0)) = some { s with down := rest } := by
      show uploadStep k s (.disturbDown (.lose 0)) = _
      rw [uploadStep, hdown]
      rfl
    exact .step hstep trivial (ih { s with down := rest } rfl)

/-- A copy of the next block that is in flight can arrive. -/
theorem Waiting.can_take {n : Nat} (h : Waiting k n s) (hlen : s.receiver.blocks.length = n)
    (hsent : s.nextBlock k ∈ s.up) :
    (upload k).Can Free
      (fun s' => Received k.file (n + 2) s'.receiver ∧ s'.client = s.client) s := by
  refine (can_come_first k s hsent).trans ?_
  rintro _ ⟨rest, rfl⟩
  obtain ⟨hrecv, -⟩ := h.receiver.block (.inr rfl) h.lt_count
  refine .one (a := .deliverUp) rfl trivial ⟨?_, receiverStep_client k _ _⟩
  have hmine : (s.nextBlock k).1 ≠ k.request.serverAddr := k.transfer_ne
  have htransfer : (s.nextBlock k).1 = k.transferAddr := rfl
  rw [UploadState.receiverStep, if_neg hmine, if_pos htransfer]
  show Received k.file (n + 2) (s.receiver.takeData (s.nextBlock k).2).1
  rw [UploadState.nextBlock, hlen]
  exact hrecv

/-- The receiver's acknowledgement makes the client send the next block. -/
theorem Waiting.can_send {n : Nat} (h : Waiting k n s) (hlen : s.receiver.blocks.length = n)
    (hmod : k.file.length % blockSize ≠ 0) (hprog : PutProgress k n s.client)
    (hrun : s.client.status = .running) :
    (upload k).Can Free
      (fun s' => s'.receiver = s.receiver ∧ s'.client.status = .running ∧
        s'.nextBlock k ∈ s'.up) s := by
  have hcount := (putCount_eq_blockCount_iff k.file).mpr hmod
  have hlt := h.lt_count
  have hf : s.client.final = false := by
    rw [hprog.final]
    exact decide_eq_false (Nat.not_le.mpr hlt)
  have hphase : s.receiver.phase ≠ .idle := by
    rw [h.receiver.2, if_pos hlt]
    exact Phase.noConfusion
  obtain ⟨-, hsends⟩ := hprog.next hrun hf
  rw [if_pos (hcount ▸ hlt)] at hsends
  refine (can_clear_down k s).trans ?_
  rintro _ rfl
  have hack : (upload k).step { s with down := [] } .receiverTimeout =
      some { s with down := [ackPacket (UInt16.ofNat n)] } := by
    rw [← hlen]
    exact if_neg hphase
  refine .step hack trivial (.one (a := .deliverDown) rfl trivial ⟨rfl, ?_, ?_⟩)
  · show (putStep k.request s.client _).1.status = .running
    rw [putStep_ackPacket hrun hf, if_pos hprog.num.symm,
      putNext_eq (k := n) (s := s.client.receive k.transferAddr (ackPacket (UInt16.ofNat n)))
        hprog.num hprog.rest]
    exact hrun
  · show UploadState.nextBlock k s ∈ s.up ++ sends (putStep k.request s.client _).2
    rw [hsends, UploadState.nextBlock, hlen]
    exact List.mem_append_right _ List.mem_cons_self

/-- The transfer still has every block that the receiver misses. -/
structure Recoverable (k : UploadConfig) (s : UploadState) : Prop where
  reachable : (upload k).Reachable s
  running : s.client.status = .running
  receiving : s.receiver.phase = .receiving
  next : s.client.blockNum = UInt16.ofNat s.receiver.blocks.length ∨ s.nextBlock k ∈ s.up

/-- One more block, and the transfer is over or as recoverable as before. -/
theorem Recoverable.can_advance (h : Recoverable k s) (hmod : k.file.length % blockSize ≠ 0) :
    (upload k).Can Free
      (fun s' => Delivered k s' ∨ Recoverable k s' ∧
        blockCount k.file - s'.receiver.blocks.length <
          blockCount k.file - s.receiver.blocks.length) s := by
  have hw := waiting h.reachable h.receiving
  -- First the block is in flight, then it arrives.
  have hflight : (upload k).Can Free
      (fun s' => s'.receiver = s.receiver ∧ s'.client.status = .running ∧
        s'.nextBlock k ∈ s'.up) s := by
    rcases h.next with hnum | hsent
    · rcases hw.client with hprog | hprog
      · exact hw.can_send rfl hmod hprog h.running
      · exact absurd (hnum.symm.trans hprog.num) (ofNat_ne_succ _)
    · exact .here ⟨rfl, h.running, hsent⟩
  refine (hflight.reachable h.reachable).trans ?_
  rintro s₁ ⟨hs₁, hrecv, hrun, hsent⟩
  have hw₁ := waiting hs₁ (hrecv ▸ h.receiving)
  have hprog := hw₁.sent hsent
  refine ((hw₁.can_take rfl hsent).reachable hs₁).mono ?_
  rintro s₂ ⟨hs₂, hrecv₂, hclient⟩
  rw [hrecv] at hrecv₂ hprog
  have hlen := hrecv₂.length
  have hlt := hw.lt_count
  by_cases hlast : s.receiver.blocks.length + 1 < blockCount k.file
  · refine .inr ⟨⟨hs₂, hclient ▸ hrun, hrecv₂.2.trans (if_pos hlast), .inl ?_⟩, by omega⟩
    rw [hlen, hclient]
    exact hprog.num
  · refine .inl ⟨hrecv₂.2.trans (if_neg hlast), ?_⟩
    have hall : s.receiver.blocks.length + 1 = blockCount k.file := by omega
    rw [Receiver.file, hrecv₂.1, hall, flatten_blocks_blockCount]

/-- An upload in progress can still bring the whole file across exactly when the
client has not gone on past a block that is lost: it waits for the
acknowledgement of the receiver's last block, or a copy of the next block is in
flight. -/
theorem upload_recoverable_iff (k : UploadConfig) (hmod : k.file.length % blockSize ≠ 0)
    {s : UploadState} (h : (upload k).Reachable s) (hrun : s.client.status = .running)
    (hphase : s.receiver.phase = .receiving) :
    (∃ as s', (upload k).run s as = some s' ∧ Delivered k s') ↔
      s.client.blockNum = UInt16.ofNat s.receiver.blocks.length ∨ s.nextBlock k ∈ s.up := by
  constructor
  · rintro ⟨as, s', hs', hdel⟩
    by_contra hnot
    rw [not_or] at hnot
    have hw := waiting h hphase
    have hprog := hw.client.resolve_left fun hp => hnot.1 hp.num
    obtain ⟨-, hrecv⟩ := (hw.lost hprog hnot.2).run hs'
    have hfinished := hdel.1
    rw [hrecv, hphase] at hfinished
    cases hfinished
  · intro hnext
    have hcan : (upload k).Can Free (Delivered k) s :=
      System.Can.descend (I := Recoverable k)
        (fun s => blockCount k.file - s.receiver.blocks.length)
        (fun s hs => hs.can_advance hmod) ⟨h, hrun, hphase, hnext⟩
    obtain ⟨as, s', -, hs', hdel⟩ := System.can_iff_exists_run.mp hcan
    exact ⟨as, s', hs', hdel⟩

/-- The request and its acknowledgement arrived, the only block is in flight. -/
theorem upload_recoverable_iff_one_byte :
    let k : UploadConfig :=
      { request := ⟨0, ascii "f", by decide⟩, file := [7], transferAddr := ⟨0, 2000⟩
        transfer_ne := by decide, uninit := [], uninitAddr := ⟨0, 0⟩ }
    ∃ s, (upload k).Reachable s ∧ ((∃ as s', (upload k).run s as = some s' ∧ Delivered k s') ↔
      s.client.blockNum = UInt16.ofNat s.receiver.blocks.length ∨ s.nextBlock k ∈ s.up) := by
  intro k
  obtain ⟨s, hs, hstate⟩ := System.exists_reachable (M := upload k)
    (f := fun s => (s.client.status, s.receiver.phase)) (c := (.running, .receiving))
    (s := .start k) (l := [.deliverUp, .deliverDown]) rfl (by decide)
  rw [Prod.mk.injEq] at hstate
  exact ⟨s, hs, upload_recoverable_iff k (by decide) hs hstate.1 hstate.2⟩

end Tftp
end NetLab
