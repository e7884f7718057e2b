import NetLab.Tftp.Repeats

/-!
# Headers that were not received

Both loops read four bytes of header from the buffer and never look at the
length of the datagram.  A shorter one leaves bytes of an earlier datagram, of
the request or of a block just sent to complete its header.
-/

namespace NetLab
namespace Tftp

open History Insertion

/-- Two bytes are enough for the opcode. -/
theorem ntohs_store_opcode {data : Bytes} (h : 2 ≤ data.length) (buffer : Bytes) :
    ntohs (store data buffer) 0 = ntohs data 0 := by
  rw [ntohs, ntohs, List.drop_zero, List.drop_zero, store, List.take_append_of_le_length h]

/-! ## `tftp_get` -/

/-- The iteration as it would be if it read nothing but the datagram. -/
def getReceived (s : GetState) (src : SockAddr) (data : Bytes) : GetState × List Effect :=
  let t := s.receive src data
  if 2 ≤ data.length ∧ ntohs data 0 = opError then ({ t with status := .returned (-1) }, [])
  else if 4 ≤ data.length ∧ ntohs data 0 = opData then
    let ack := [Effect.sendto src (ackPacket (ntohs data 2))]
    if ntohs data 2 = s.expectedBlock then
      let t := { t with
        writes := s.writes ++ [data.drop 4]
        expectedBlock := s.expectedBlock + 1 }
      if (data.length : Int) - 4 < blockSize then
        ({ t with status := .returned 0 }, .fwrite (data.drop 4) :: ack ++ [.transferComplete])
      else (t, .fwrite (data.drop 4) :: ack)
    else if ntohs data 2 < s.expectedBlock then (t, ack)
    else (t, [])
  else (t, [])

/-- The iteration acts on the header of the datagram and on no other, and what
it writes is the rest of the datagram.  Where `n - 4` is negative the length
passed to `fwrite` is undefined behaviour of the model. -/
structure OnlyReceived (s : GetState) (src : SockAddr) (data : Bytes) : Prop where
  length : (getStep s (.datagram src data)).1.status ≠ .undefined
  written : ∀ bytes, .fwrite bytes ∈ (getStep s (.datagram src data)).2 →
    4 ≤ data.length ∧ bytes = data.drop 4 ∧ bytes.length ≤ blockSize
  header : getStep s (.datagram src data) = getReceived s src data

/-- With the old bytes behind it a short datagram reads as an error, or as DATA
with a number that is waited for or has been. -/
def CompletedByOld (s : GetState) (data : Bytes) : Prop :=
  data.length < 4 ∧
    (data.length < 2 ∧ ntohs (store data s.buffer) 0 = opError ∨
      ntohs (store data s.buffer) 0 = opData ∧ ntohs (store data s.buffer) 2 ≤ s.expectedBlock)

section

variable {s : GetState} {src : SockAddr} {data : Bytes}

/-- What is written comes from the datagram in every case. -/
theorem getStep_written (hrun : s.status = .running) (bytes : Bytes)
    (h : .fwrite bytes ∈ (getStep s (.datagram src data)).2) :
    4 ≤ data.length ∧ bytes = data.drop 4 ∧ bytes.length ≤ blockSize := by
  cases getStep_outcome hrun (.datagram src data) with
  | silent effects writes expectedBlock =>
    rw [effects] at h
    cases h
  | acked dst v effects writes expectedBlock number =>
    rw [effects] at h
    cases List.mem_singleton.mp h
  | written src' data' event header size effects writes expectedBlock status =>
    obtain ⟨rfl, rfl⟩ := RecvResult.datagram.inj event
    rw [effects] at h
    rcases List.mem_cons.mp h with heq | h
    · rw [Effect.fwrite.inj heq]
      exact ⟨header.1, rfl, size⟩
    · rcases List.mem_cons.mp h with heq | h
      · cases heq
      · split_ifs at h
        · cases List.mem_singleton.mp h
        · cases h

/-- A whole header is read as it was received. -/
theorem getStep_eq_received (hrun : s.status = .running) (hfour : 4 ≤ data.length)
    (hlen : data.length ≤ bufferSize) :
    getStep s (.datagram src data) = getReceived s src data := by
  obtain ⟨hop, hnum⟩ := ntohs_store hfour s.buffer
  have hop' : ntohs (s.receive src data).buffer 0 = ntohs data 0 := hop
  have hnum' : ntohs (s.receive src data).buffer 2 = ntohs data 2 := hnum
  have hpayload : ((s.receive src data).buffer.drop 4).take
      ((data.length : Int) - 4).toNat = data.drop 4 := payload_store data s.buffer
  have hlength : ¬ (data.length : Int) - 4 < 0 := by omega
  rw [getStep_datagram hrun src hlen]
  unfold getDatagram getReceived
  dsimp only
  rw [hop']
  by_cases herror : ntohs data 0 = opError
  · have hboth : 2 ≤ data.length ∧ ntohs data 0 = opError := ⟨by omega, herror⟩
    rw [if_pos herror, if_pos hboth]
  · have hnotError : ¬ (2 ≤ data.length ∧ ntohs data 0 = opError) := fun h => herror h.2
    rw [if_neg herror, if_neg hnotError]
    by_cases hdata : ntohs data 0 = opData
    · have hboth : 4 ≤ data.length ∧ ntohs data 0 = opData := ⟨hfour, hdata⟩
      rw [if_pos hdata, if_pos hboth]
      unfold getData
      dsimp only
      rw [hnum', hpayload, if_neg hlength]
      rfl
    · have hnotData : ¬ (4 ≤ data.length ∧ ntohs data 0 = opData) := fun h => hdata h.2
      rw [if_neg hdata, if_neg hnotData]

/-- A short datagram is received, and then nothing but an error can follow. -/
theorem getReceived_short (hshort : data.length < 4) :
    getReceived s src data =
      if 2 ≤ data.length ∧ ntohs data 0 = opError then
        ({ s.receive src data with status := .returned (-1) }, [])
      else (s.receive src data, []) := by
  have hnone : ¬ (4 ≤ data.length ∧ ntohs data 0 = opData) := fun h => by omega
  unfold getReceived
  dsimp only
  rw [if_neg hnone]

theorem getStep_short (hrun : s.status = .running) (hshort : data.length < 4) :
    getStep s (.datagram src data) = getDatagram (s.receive src data) data.length := by
  apply getStep_datagram hrun
  have hsize : bufferSize = 516 := rfl
  omega

/-- An error is acted on although its opcode was not received. -/
theorem onlyReceived_error_iff (hrun : s.status = .running) (hshort : data.length < 4)
    (herror : ntohs (store data s.buffer) 0 = opError) :
    OnlyReceived s src data ↔ 2 ≤ data.length := by
  have hstep : getStep s (.datagram src data) =
      ({ s.receive src data with status := .returned (-1) }, []) := by
    rw [getStep_short hrun hshort]
    exact if_pos herror
  constructor
  · intro h
    by_contra hone
    have hsame := h.header
    rw [hstep, getReceived_short hshort, if_neg fun hc => hone hc.1] at hsame
    have hcode : Status.returned (-1) = s.status := congrArg (fun out => out.1.status) hsame
    rw [hrun] at hcode
    cases hcode
  · intro htwo
    have hcode : ntohs data 0 = opError := by
      rw [← ntohs_store_opcode htwo s.buffer]
      exact herror
    refine ⟨?_, getStep_written hrun, ?_⟩
    · rw [hstep]
      exact Status.noConfusion
    · rw [hstep, getReceived_short hshort, if_pos ⟨htwo, hcode⟩]

/-- Without an error in the buffer the datagram alone does nothing. -/
theorem getReceived_silent (hshort : data.length < 4)
    (hne : ntohs (store data s.buffer) 0 ≠ opError) :
    getReceived s src data = (s.receive src data, []) := by
  rw [getReceived_short hshort, if_neg]
  rintro ⟨htwo, hcode⟩
  rw [← ntohs_store_opcode htwo s.buffer] at hcode
  exact hne hcode

/-- The loop agrees when it does nothing either. -/
theorem onlyReceived_silent (hrun : s.status = .running) (hshort : data.length < 4)
    (hne : ntohs (store data s.buffer) 0 ≠ opError)
    (hstep : getStep s (.datagram src data) = (s.receive src data, [])) :
    OnlyReceived s src data := by
  refine ⟨?_, getStep_written hrun, hstep.trans (getReceived_silent hshort hne).symm⟩
  have hstatus : (s.receive src data).status = .running := hrun
  rw [hstep, hstatus]
  exact Status.noConfusion

/-- DATA is ignored only when its number is still to come: the expected one is
written with a negative length, and an old one is acknowledged. -/
theorem onlyReceived_data_iff (hrun : s.status = .running) (hshort : data.length < 4)
    (hdata : ntohs (store data s.buffer) 0 = opData) :
    OnlyReceived s src data ↔ ¬ ntohs (store data s.buffer) 2 ≤ s.expectedBlock := by
  have hne : ntohs (store data s.buffer) 0 ≠ opError := by
    rw [hdata]
    decide
  have hstep : getStep s (.datagram src data) = getData (s.receive src data) data.length := by
    rw [getStep_short hrun hshort, getDatagram, GetState.receive]
    dsimp only
    rw [if_neg hne, if_pos hdata]
  rw [getData, GetState.receive] at hstep
  dsimp only at hstep
  by_cases heq : ntohs (store data s.buffer) 2 = s.expectedBlock
  · rw [if_pos heq, if_pos (by omega)] at hstep
    refine iff_of_false (fun h => ?_) fun h => h (UInt16.le_of_eq heq)
    exact h.length (congrArg (fun out => out.1.status) hstep)
  · rw [if_neg heq] at hstep
    by_cases hlt : ntohs (store data s.buffer) 2 < s.expectedBlock
    · rw [if_pos hlt] at hstep
      refine iff_of_false (fun h => ?_) fun h => h (UInt16.le_of_lt hlt)
      have hsame := h.header
      rw [hstep, getReceived_silent hshort hne] at hsame
      cases congrArg Prod.snd hsame
    · rw [if_neg hlt] at hstep
      refine iff_of_true (onlyReceived_silent hrun hshort hne hstep) fun hle => ?_
      exact hlt (UInt16.lt_of_le_of_ne hle heq)

/-- A short datagram is acted on exactly if old bytes complete it. -/
theorem onlyReceived_short (hrun : s.status = .running) (hshort : data.length < 4) :
    OnlyReceived s src data ↔ ¬ CompletedByOld s data := by
  have hsplit : opError ≠ opData := by decide
  by_cases herror : ntohs (store data s.buffer) 0 = opError
  · rw [onlyReceived_error_iff hrun hshort herror, CompletedByOld, herror, ← Nat.not_lt]
    simp [hshort, hsplit]
  · by_cases hdata : ntohs (store data s.buffer) 0 = opData
    · rw [onlyReceived_data_iff hrun hshort hdata, CompletedByOld, hdata]
      simp [hshort, hsplit.symm]
    · have hidle : getStep s (.datagram src data) = (s.receive src data, []) := by
        rw [getStep_short hrun hshort, getDatagram, GetState.receive]
        dsimp only
        rw [if_neg herror, if_neg hdata]
      refine iff_of_true (onlyReceived_silent hrun hshort herror hidle) ?_
      rintro ⟨-, ⟨-, hcode⟩ | ⟨hcode, -⟩⟩
      · exact herror hcode
      · exact hdata hcode

theorem onlyReceived_iff (hrun : s.status = .running) (hlen : data.length ≤ bufferSize) :
    OnlyReceived s src data ↔ ¬ CompletedByOld s data := by
  rcases Nat.lt_or_ge data.length 4 with hshort | hfour
  · exact onlyReceived_short hrun hshort
  · refine iff_of_true ⟨?_, getStep_written hrun, getStep_eq_received hrun hfour hlen⟩ ?_
    · apply getStep_defined (show RecvResult.Regular (.datagram src data) from ⟨hfour, hlen⟩)
      rw [hrun]
      exact Status.noConfusion
    · intro h
      have hshort := h.1
      omega

end

/-- Along every run the next datagram is the only one whose header is acted on,
unless old bytes complete a short one. -/
theorem get_onlyReceived_iff (q : Request) (uninit : Bytes) (uninitAddr : SockAddr)
    (rs : List RecvResult) (src : SockAddr) (data : Bytes)
    (hrun : (getRun (getStart q uninit uninitAddr) rs).1.status = .running)
    (hlen : data.length ≤ bufferSize) :
    OnlyReceived (getRun (getStart q uninit uninitAddr) rs).1 src data ↔
      ¬ CompletedByOld (getRun (getStart q uninit uninitAddr) rs).1 data :=
  onlyReceived_iff hrun hlen

/-- An empty datagram after the request. -/
theorem get_onlyReceived_empty :
    OnlyReceived (getRun (getStart oneLetter [] { ip := 0, port := 0 }) []).1
      { ip := 1, port := 1069 } [] := by
  refine (get_onlyReceived_iff oneLetter [] { ip := 0, port := 0 } [] _ [] rfl (by decide)).mpr ?_
  rintro ⟨-, ⟨-, hcode⟩ | ⟨hcode, -⟩⟩
  · exact absurd hcode (by decide)
  · exact absurd hcode (by decide)

/-- Three bytes take the last byte of block 257 for theirs, and `fwrite` is
called for minus one bytes. -/
theorem get_onlyReceived_fails :
    ¬ ∀ (q : Request) (uninit : Bytes) (uninitAddr : SockAddr) (rs : List RecvResult)
      (src : SockAddr) (data : Bytes),
      (getRun (getStart q uninit uninitAddr) rs).1.status = .running →
      data.length ≤ bufferSize →
      OnlyReceived (getRun (getStart q uninit uninitAddr) rs).1 src data := by
  intro h
  have hall := h oneLetter [] { ip := 0, port := 0 }
    [.datagram { ip := 1, port := 1069 } (dataPacket 257 [])] { ip := 1, port := 1069 } [0, 3, 0]
    (by decide) (by decide)
  exact hall.length (by decide)

/-! ## `tftp_put` -/

/-- The loop moves on to block `k + 1`, or reports success. -/
def Advances (q : Request) (k : Nat) (s : PutState) (src : SockAddr) (data : Bytes) : Prop :=
  (putStep q s (.datagram src data)).1.blockNum = UInt16.ofNat (k + 1) ∨
    .transferComplete ∈ (putStep q s (.datagram src data)).2

/-- The acknowledgement of block `k`. -/
structure RealAck (k : Nat) (data : Bytes) : Prop where
  length : 4 ≤ data.length
  opcode : ntohs data 0 = opAck
  number : ntohs data 2 = UInt16.ofNat k

/-- With the old bytes behind it a short datagram reads as the acknowledgement
of block `k`.  The last `recvfrom` passes over an empty one. -/
def ForgedAck (k : Nat) (s : PutState) (data : Bytes) : Prop :=
  data.length < 4 ∧ (s.final = true → 0 < data.length) ∧
    ntohs (store data s.buffer) 0 = opAck ∧ ntohs (store data s.buffer) 2 = UInt16.ofNat k

section

variable {q : Request} {k : Nat} {s : PutState} {src : SockAddr} {data : Bytes}

theorem blockNum_putNext (s : PutState) : (putNext s).1.blockNum = s.blockNum + 1 := by
  unfold putNext
  dsimp only
  split_ifs
  · rfl
  · rfl

/-- A step that keeps the number and reports nothing does not advance. -/
theorem not_advances_of_silent {t : PutState} (hnum : t.blockNum = UInt16.ofNat k)
    (hstep : putStep q s (.datagram src data) = (t, [])) : ¬ Advances q k s src data := by
  rw [Advances, hstep]
  rintro (h | h)
  · exact ofNat_ne_succ k (hnum.symm.trans h)
  · cases h

theorem advances_final_iff (hrun : s.status = .running) (hf : s.final = true)
    (hk : s.blockNum = UInt16.ofNat k) (hlen : data.length ≤ bufferSize) :
    Advances q k s src data ↔ 0 < data.length ∧ ntohs (store data s.buffer) 0 = opAck ∧
      ntohs (store data s.buffer) 2 = UInt16.ofNat k := by
  have hstep := putStep_final (q := q) hrun hf (.datagram src data)
  rw [putFinal, if_neg (Nat.not_lt.mpr hlen)] at hstep
  dsimp only at hstep
  rw [hk] at hstep
  by_cases hack : 0 < data.length ∧ ntohs (store data s.buffer) 0 = opAck ∧
      ntohs (store data s.buffer) 2 = UInt16.ofNat k
  · rw [if_pos hack] at hstep
    refine iff_of_true (.inr ?_) hack
    rw [hstep]
    exact List.mem_singleton_self _
  · rw [if_neg hack] at hstep
    exact iff_of_false (not_advances_of_silent rfl hstep) hack

theorem advances_main_iff (hrun : s.status = .running) (hf : s.final = false)
    (hk : s.blockNum = UInt16.ofNat k) (hlen : data.length ≤ bufferSize) :
    Advances q k s src data ↔ ntohs (store data s.buffer) 0 = opAck ∧
      ntohs (store data s.buffer) 2 = UInt16.ofNat k := by
  obtain ⟨t, ht⟩ : ∃ t, t = s.receive src data := ⟨_, rfl⟩
  have hbuffer : store data s.buffer = t.buffer := by rw [ht]; rfl
  have hnum : t.blockNum = UInt16.ofNat k := by rw [ht]; exact hk
  have hstep := putStep_datagram (q := q) hrun hf src hlen
  rw [← ht, putDatagram, hnum] at hstep
  rw [hbuffer]
  by_cases herror : ntohs t.buffer 0 = opError
  · rw [if_pos herror] at hstep
    refine iff_of_false (not_advances_of_silent rfl hstep) fun h => ?_
    rw [herror] at h
    exact absurd h.1 (by decide)
  · rw [if_neg herror] at hstep
    by_cases hop : ntohs t.buffer 0 = opAck
    · rw [if_pos hop] at hstep
      by_cases heq : ntohs t.buffer 2 = UInt16.ofNat k
      · rw [if_pos heq] at hstep
        refine iff_of_true (.inl ?_) ⟨hop, heq⟩
        rw [hstep, blockNum_putNext, hnum, UInt16.ofNat_add]
        rfl
      · rw [if_neg heq] at hstep
        exact iff_of_false (not_advances_of_silent hnum hstep) fun h => heq h.2
    · rw [if_neg hop] at hstep
      exact iff_of_false (not_advances_of_silent hnum hstep) fun h => hop h.1

/-- The header in the buffer decides. -/
theorem advances_iff (hrun : s.status = .running) (hk : s.blockNum = UInt16.ofNat k)
    (hlen : data.length ≤ bufferSize) :
    Advances q k s src data ↔ (s.final = true → 0 < data.length) ∧
      ntohs (store data s.buffer) 0 = opAck ∧
      ntohs (store data s.buffer) 2 = UInt16.ofNat k := by
  cases hf : s.final with
  | true =>
    rw [advances_final_iff hrun hf hk hlen]
    exact and_congr_left fun _ => ⟨fun h _ => h, fun h => h rfl⟩
  | false =>
    rw [advances_main_iff hrun hf hk hlen]
    exact ⟨fun h => ⟨nofun, h⟩, fun h => h.2⟩

theorem advances_only_on_ack_iff (hrun : s.status = .running) (hk : s.blockNum = UInt16.ofNat k)
    (hlen : data.length ≤ bufferSize) :
    (Advances q k s src data → RealAck k data) ↔ ¬ ForgedAck k s data := by
  rw [advances_iff hrun hk hlen]
  constructor
  · intro h hforged
    have hreal := h hforged.2
    have hshort := hforged.1
    have hfour := hreal.length
    omega
  · intro h hheader
    rcases Nat.lt_or_ge data.length 4 with hshort | hfour
    · exact absurd ⟨hshort, hheader⟩ h
    · obtain ⟨hop, hnum⟩ := ntohs_store hfour s.buffer
      exact ⟨hfour, hop ▸ hheader.2.1, hnum ▸ hheader.2.2⟩

end

/-- In every reachable state with current block `k` only its acknowledgement
moves the loop on, unless old bytes complete a short datagram to it. -/
theorem put_advances_only_on_ack_iff (q : Request) (file uninit : Bytes) (uninitAddr : SockAddr)
    (rs : List RecvResult) (k : Nat) (src : SockAddr) (data : Bytes)
    (hrun : (putRun q (putStart q file uninit uninitAddr) rs).1.status = .running)
    (hk : (putRun q (putStart q file uninit uninitAddr) rs).1.blockNum = UInt16.ofNat k)
    (hlen : data.length ≤ bufferSize) :
    (Advances q k (putRun q (putStart q file uninit uninitAddr) rs).1 src data →
        RealAck k data) ↔
      ¬ ForgedAck k (putRun q (putStart q file uninit uninitAddr) rs).1 data :=
  advances_only_on_ack_iff hrun hk hlen

/-- The acknowledgement of the request. -/
theorem put_advances_on_first_ack :
    Advances oneLetter 0 (putRun oneLetter (putStart oneLetter [7] [] { ip := 0, port := 0 }) []).1
        { ip := 1, port := 1069 } (ackPacket 0) ∧
      RealAck 0 (ackPacket 0) := by
  have hadv : Advances oneLetter 0
      (putRun oneLetter (putStart oneLetter [7] [] { ip := 0, port := 0 }) []).1
      { ip := 1, port := 1069 } (ackPacket 0) := .inl (by decide)
  refine ⟨hadv, (put_advances_only_on_ack_iff oneLetter [7] [] { ip := 0, port := 0 } [] 0 _ _ rfl
    rfl (by decide)).mpr ?_ hadv⟩
  intro h
  exact absurd h.1 (by decide)

/-- The opcode of an ACK alone counts as the acknowledgement of the block that
was just copied to the buffer. -/
theorem put_advances_without_ack :
    ¬ ∀ (q : Request) (file uninit : Bytes) (uninitAddr : SockAddr) (rs : List RecvResult) (k : Nat)
      (src : SockAddr) (data : Bytes),
      (putRun q (putStart q file uninit uninitAddr) rs).1.status = .running →
      (putRun q (putStart q file uninit uninitAddr) rs).1.blockNum = UInt16.ofNat k →
      data.length ≤ bufferSize →
      Advances q k (putRun q (putStart q file uninit uninitAddr) rs).1 src data →
      RealAck k data := by
  intro h
  have hreal := h oneLetter [7] [] { ip := 0, port := 0 }
    [.datagram { ip := 1, port := 1069 } (ackPacket 0)] 1 { ip := 1, port := 1069 } (htons opAck)
    (by decide) (by decide) (by decide) (.inr (by decide))
  exact absurd hreal.length (by decide)

end Tftp
end NetLab
