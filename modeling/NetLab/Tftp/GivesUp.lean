import NetLab.Library.Retry
import NetLab.Tftp.Headers

/-!
# Giving up

Both transfer functions count timeouts up to `MAX_RETRIES` and start again at
each datagram, so the datagrams bound their calls of `recvfrom`.
-/

namespace NetLab
namespace Tftp

open Insertion History Retry

def RecvResult.isDatagram : RecvResult → Bool
  | .datagram _ _ => true
  | _ => false

def Effect.isSendto : Effect → Bool
  | .sendto _ _ => true
  | _ => false

/-- What `recvfrom` reports: some results, and then timeouts only. -/
def thenTimeouts (rs : List RecvResult) (n : Nat) : List RecvResult :=
  rs ++ List.replicate n .timedOut

/-- The calls of `recvfrom` that the datagrams among the results pay for. -/
def callsFor (rs : List RecvResult) : Nat := 6 * (rs.countP RecvResult.isDatagram + 1)

section

variable {σ : Type} (step : σ → RecvResult → σ × List Effect) (status : σ → Status)
  (inLoop : σ → Prop)

/-- The function returns within these calls, sends at most five times between two
datagrams, and returns minus one when its main loop times out for the sixth time
in a row. -/
structure GivesUp (s : σ) (rs : List RecvResult) : Prop where
  returns : ∃ code, status (run step s ((thenTimeouts rs (callsFor rs)).take (callsFor rs))).1 =
    .returned code
  retransmissions : ∀ n before between, before ++ between <+: thenTimeouts rs n →
    (∀ r ∈ between, r.isDatagram = false) →
    (run step (run step s before).1 between).2.countP Effect.isSendto ≤ 5
  sixth : ∀ n before, before ++ List.replicate 6 .timedOut <+: thenTimeouts rs n →
    status (run step s (before ++ List.replicate 5 .timedOut)).1 = .running →
    inLoop (run step s (before ++ List.replicate 5 .timedOut)).1 →
    status (run step s (before ++ List.replicate 6 .timedOut)).1 = .returned (-1)

end

/-- `tftp_get` on these results and then timeouts. -/
def GetGivesUp (q : Request) (uninit : Bytes) (uninitAddr : SockAddr) (rs : List RecvResult) :
    Prop :=
  GivesUp getStep GetState.status (fun _ => True) (getStart q uninit uninitAddr) rs

/-- `tftp_put` on them.  Its main loop is left for the final `recvfrom`. -/
def PutGivesUp (q : Request) (file uninit : Bytes) (uninitAddr : SockAddr)
    (rs : List RecvResult) : Prop :=
  GivesUp (putStep q) PutState.status (fun s => s.final = false)
    (putStart q file uninit uninitAddr) rs

/-- A datagram without a whole header is read as the next block, so that the
length passed to `fwrite` is negative. -/
def ShortBlock (s : GetState) (data : Bytes) : Prop :=
  data.length < 4 ∧ ntohs (store data s.buffer) 0 = opData ∧
    ntohs (store data s.buffer) 2 = s.expectedBlock

/-- No datagram that the loop comes to is of that kind. -/
def NoShortBlock : GetState → List RecvResult → Prop
  | _, [] => True
  | s, r :: rs =>
    (s.status = .running → ∀ src data, r = .datagram src data → ¬ ShortBlock s data) ∧
      NoShortBlock (getStep s r).1 rs

/-! ## Any function that counts its tries -/

section

variable {σ : Type} {step : σ → RecvResult → σ × List Effect} {status : σ → Status}
  {inLoop : σ → Prop} {tries : σ → Nat} {s : σ} {rs : List RecvResult}

/-- Once the calls are used up the function has stopped, and the results behind
them make no difference. -/
theorem status_calls (h : Retrying step maxRetries (status · = .running) tries
    RecvResult.isDatagram Effect.isSendto) (hs : tries s = 0) (rs : List RecvResult) :
    status (run step s ((thenTimeouts rs (callsFor rs)).take (callsFor rs))).1 ≠ .running ∧
      status (run step s ((thenTimeouts rs (callsFor rs)).take (callsFor rs))).1 =
        status (run step s (thenTimeouts rs (callsFor rs))).1 := by
  obtain ⟨n, hn⟩ : ∃ n, n = callsFor rs := ⟨_, rfl⟩
  obtain ⟨all, hall⟩ : ∃ all, all = thenTimeouts rs n := ⟨_, rfl⟩
  rw [← hn, ← hall]
  have hlen : (all.take n).length = n := by
    rw [List.length_take, hall, thenTimeouts, List.length_append, List.length_replicate]
    omega
  have hcount : (all.take n).countP RecvResult.isDatagram ≤ rs.countP RecvResult.isDatagram := by
    have hle := (List.take_sublist n all).countP_le (p := RecvResult.isDatagram)
    rwa [hall, thenTimeouts, List.countP_append, List.countP_replicate,
      if_neg (show ¬ RecvResult.isDatagram .timedOut = true from Bool.false_ne_true),
      Nat.add_zero, ← thenTimeouts, ← hall] at hle
  have hstop : status (run step s (all.take n)).1 ≠ .running := by
    refine h.stops hs ?_
    have hcalls : n = 6 * (rs.countP RecvResult.isDatagram + 1) := hn
    rw [hlen, maxRetries]
    omega
  refine ⟨hstop, ?_⟩
  have hwhole : run step s (all.take n ++ all.drop n) = run step s (all.take n) := by
    rw [run_append, h.run_stopped hstop, List.append_nil]
  rw [List.take_append_drop] at hwhole
  rw [hwhole]

/-- A timeout leaves an undefined status as it is, and makes none. -/
theorem status_thenTimeouts (hquiet : ∀ s, status (step s .timedOut).1 = .undefined ↔
    status s = .undefined) (rs : List RecvResult) (n : Nat) :
    status (run step s (thenTimeouts rs n)).1 = .undefined ↔
      status (run step s rs).1 = .undefined := by
  induction n with
  | zero => rw [thenTimeouts, List.replicate_zero, List.append_nil]
  | succ n ih =>
    rw [thenTimeouts, List.replicate_succ', ← List.append_assoc, run_concat, ← thenTimeouts,
      hquiet, ih]

/-- After five timeouts in a row there are no tries left. -/
theorem sixth_timeout (h : Retrying step maxRetries (status · = .running) tries
    RecvResult.isDatagram Effect.isSendto) (hs : tries s = 0) (before : List RecvResult)
    (hrun : status (run step s (before ++ List.replicate 5 .timedOut)).1 = .running) :
    tries (run step s (before ++ List.replicate 5 .timedOut)).1 = maxRetries := by
  have hmax : maxRetries = 5 := rfl
  obtain ⟨t, ht⟩ : ∃ t, t = (run step s before).1 := ⟨_, rfl⟩
  rw [run_append, ← ht] at hrun ⊢
  have hbefore : status t = .running := h.goes_of_run hrun
  obtain ⟨-, hle⟩ := h.length_le before s (hs ▸ Nat.zero_le _) (ht ▸ hbefore)
  obtain ⟨hround, hlast⟩ := h.length_le (List.replicate 5 .timedOut) t (ht ▸ hle) hrun
  rw [List.length_replicate, List.countP_replicate,
    if_neg (show ¬ RecvResult.isDatagram .timedOut = true from Bool.false_ne_true),
    Nat.mul_zero] at hround
  dsimp only
  omega

/-- Such a function gives up in time, unless something undefined comes first. -/
theorem givesUp_iff (h : Retrying step maxRetries (status · = .running) tries
    RecvResult.isDatagram Effect.isSendto) (hs : tries s = 0)
    (hquiet : ∀ s, status (step s .timedOut).1 = .undefined ↔ status s = .undefined)
    (hlast : ∀ s, status s = .running → inLoop s → tries s = maxRetries →
      status (step s .timedOut).1 = .returned (-1)) (rs : List RecvResult) :
    GivesUp step status inLoop s rs ↔ status (run step s rs).1 ≠ .undefined := by
  obtain ⟨hstop, hcalls⟩ := status_calls h hs rs
  have hundefined := status_thenTimeouts (s := s) hquiet rs (callsFor rs)
  rw [← hcalls] at hundefined
  rw [ne_eq, ← hundefined]
  constructor
  · rintro ⟨⟨code, hcode⟩, -, -⟩
    rw [hcode]
    exact nofun
  · intro hdefined
    refine ⟨?_, fun n before between _ hnone => ?_, fun n before _ hrun hin => ?_⟩
    · cases hcase : status (run step s ((thenTimeouts rs (callsFor rs)).take (callsFor rs))).1 with
      | running => exact absurd hcase hstop
      | returned code => exact ⟨code, rfl⟩
      | undefined => exact absurd hcase hdefined
    · exact Nat.le_trans (h.sent_le between _ hnone) (Nat.sub_le _ _)
    · have htries := sixth_timeout h hs before hrun
      rw [List.replicate_succ', ← List.append_assoc, run_concat]
      exact hlast _ hrun hin htries

end

/-! ## `tftp_get` -/

theorem getDatagram_retries (s : GetState) (n : Nat) : (getDatagram s n).1.retries = s.retries := by
  unfold getDatagram getData
  dsimp only
  split_ifs
  all_goals rfl

theorem get_retrying : Retrying getStep maxRetries (GetState.status · = .running)
    GetState.retries RecvResult.isDatagram Effect.isSendto where
  stopped := fun _ r hs => getStep_of_not_running hs r
  reset := by
    intro s r hrun hr hnext
    cases r with
    | datagram src data =>
      by_cases hlen : data.length ≤ bufferSize
      · rw [getStep_datagram hrun src hlen, getDatagram_retries]
        rfl
      · rw [getStep_tooLong hrun src (Nat.lt_of_not_le hlen)] at hnext
        cases hnext
    | timedOut => cases hr
    | failed => cases hr
  retry := by
    intro s r hrun hr hnext
    cases r with
    | timedOut =>
      rw [getStep_timedOut hrun, getTimeout] at hnext ⊢
      by_cases hmore : s.retries < maxRetries
      · rw [if_pos hmore, sendto_ackPacket]
        exact ⟨hmore, rfl, Nat.le_refl 1⟩
      · rw [if_neg hmore] at hnext
        cases hnext
    | failed =>
      rw [getStep_failed hrun] at hnext
      cases hnext
    | datagram src data => cases hr
  quiet := by
    intro s r hrun hr hend
    cases r with
    | timedOut =>
      rw [getStep_timedOut hrun, getTimeout] at hend ⊢
      by_cases hmore : s.retries < maxRetries
      · rw [if_pos hmore] at hend
        exact absurd hrun hend
      · rw [if_neg hmore]
        rfl
    | failed =>
      rw [getStep_failed hrun]
      rfl
    | datagram src data => cases hr

theorem get_last_timeout {s : GetState} (hrun : s.status = .running)
    (htries : s.retries = maxRetries) : (getStep s .timedOut).1.status = .returned (-1) := by
  rw [getStep_timedOut hrun, getTimeout, if_neg (by omega)]

theorem running_ne_undefined : Status.running ≠ .undefined := by
  intro h
  cases h

theorem returned_ne_undefined (code : Int) : Status.returned code ≠ .undefined := by
  intro h
  cases h

theorem get_timeout_undefined_iff (s : GetState) :
    (getStep s .timedOut).1.status = .undefined ↔ s.status = .undefined := by
  by_cases hrun : s.status = .running
  · rw [getStep_timedOut hrun, getTimeout, hrun]
    split_ifs
    · exact Iff.rfl
    · exact Iff.rfl
  · rw [getStep_of_not_running hrun]

theorem getData_undefined_iff (s : GetState) (n : Nat) (hrun : s.status = .running) :
    (getData s n).1.status = .undefined ↔ n < 4 ∧ ntohs s.buffer 2 = s.expectedBlock := by
  unfold getData
  dsimp only
  by_cases hnum : ntohs s.buffer 2 = s.expectedBlock
  · rw [if_pos hnum, and_iff_left hnum]
    by_cases hshort : (n : Int) - 4 < 0
    · rw [if_pos hshort]
      exact iff_of_true rfl (by omega)
    · rw [if_neg hshort]
      refine iff_of_false ?_ (by omega)
      split_ifs
      · exact not_false
      · exact hrun ▸ running_ne_undefined
  · rw [if_neg hnum]
    refine iff_of_false ?_ fun h => hnum h.2
    rw [apply_ite Prod.fst, ite_self, hrun]
    exact running_ne_undefined

theorem getDatagram_undefined_iff (s : GetState) (n : Nat) (hrun : s.status = .running) :
    (getDatagram s n).1.status = .undefined ↔
      n < 4 ∧ ntohs s.buffer 0 = opData ∧ ntohs s.buffer 2 = s.expectedBlock := by
  rw [getDatagram]
  by_cases herror : ntohs s.buffer 0 = opError
  · have hno : ntohs s.buffer 0 ≠ opData := by
      rw [herror]
      decide
    rw [if_pos herror]
    exact iff_of_false (returned_ne_undefined _) fun h => hno h.2.1
  · rw [if_neg herror]
    by_cases hop : ntohs s.buffer 0 = opData
    · rw [if_pos hop, getData_undefined_iff s n hrun, and_iff_right hop]
    · rw [if_neg hop, hrun]
      exact iff_of_false running_ne_undefined fun h => hop h.2.1

/-- A short block is all that leads to undefined behaviour. -/
theorem getStep_undefined_iff {s : GetState} (hrun : s.status = .running) (r : RecvResult) :
    (getStep s r).1.status = .undefined ↔
      ∃ src data, r = .datagram src data ∧ ShortBlock s data := by
  cases r with
  | timedOut =>
    rw [get_timeout_undefined_iff, hrun]
    refine iff_of_false running_ne_undefined ?_
    rintro ⟨_, _, heq, -⟩
    cases heq
  | failed =>
    rw [getStep_failed hrun]
    refine iff_of_false (returned_ne_undefined _) ?_
    rintro ⟨_, _, heq, -⟩
    cases heq
  | datagram src data =>
    have hexists : (∃ src' data', RecvResult.datagram src data = .datagram src' data' ∧
        ShortBlock s data') ↔ ShortBlock s data := by
      constructor
      · rintro ⟨_, _, heq, hshort⟩
        rwa [(RecvResult.datagram.inj heq).2]
      · exact fun hshort => ⟨src, data, rfl, hshort⟩
    rw [hexists]
    by_cases hlen : data.length ≤ bufferSize
    · rw [getStep_datagram hrun src hlen]
      exact getDatagram_undefined_iff (s.receive src data) data.length hrun
    · have hmax : bufferSize = 516 := rfl
      rw [getStep_tooLong hrun src (Nat.lt_of_not_le hlen), ShortBlock]
      refine iff_of_false (returned_ne_undefined _) fun h => ?_
      omega

theorem undefined_of_undefined {s : GetState} (h : s.status = .undefined) (rs : List RecvResult) :
    (run getStep s rs).1.status = .undefined := by
  have hnot : s.status ≠ .running := fun hrun => by rw [h] at hrun; cases hrun
  rw [get_retrying.run_stopped hnot]
  exact h

/-- The induction is on the results, from the first one on. -/
theorem noShortBlock_iff (rs : List RecvResult) : ∀ s : GetState, s.status ≠ .undefined →
    ((run getStep s rs).1.status ≠ .undefined ↔ NoShortBlock s rs) := by
  induction rs with
  | nil => exact fun s hs => iff_of_true hs trivial
  | cons r rs ih =>
    intro s hs
    have hrest : (run getStep s (r :: rs)).1 = (run getStep (getStep s r).1 rs).1 := rfl
    rw [hrest, NoShortBlock]
    by_cases hrun : s.status = .running
    · have hstep := getStep_undefined_iff hrun r
      by_cases hundefined : (getStep s r).1.status = .undefined
      · obtain ⟨src, data, hr, hshort⟩ := hstep.mp hundefined
        exact iff_of_false (not_not.mpr (undefined_of_undefined hundefined rs))
          fun h => h.1 hrun src data hr hshort
      · rw [ih _ hundefined]
        refine (and_iff_right fun _ src data hr hshort => ?_).symm
        exact hundefined (hstep.mpr ⟨src, data, hr, hshort⟩)
    · rw [getStep_of_not_running hrun, ih s hs]
      exact (and_iff_right fun h => absurd h hrun).symm

theorem getGivesUp_iff (q : Request) (uninit : Bytes) (uninitAddr : SockAddr)
    (rs : List RecvResult) :
    GetGivesUp q uninit uninitAddr rs ↔ NoShortBlock (getStart q uninit uninitAddr) rs := by
  have hstart : (getStart q uninit uninitAddr).status ≠ .undefined := by
    intro h
    cases h
  rw [GetGivesUp, givesUp_iff get_retrying rfl get_timeout_undefined_iff
    (fun s hrun _ htries => get_last_timeout hrun htries), noShortBlock_iff rs _ hstart]

/-! ## `tftp_put` -/

theorem putDatagram_retries (s : PutState) : (putDatagram s).1.retries = s.retries := by
  unfold putDatagram putNext
  dsimp only
  split_ifs
  all_goals rfl

theorem put_stops_final {q : Request} {s : PutState} (hrun : s.status = .running)
    (hf : s.final = true) (r : RecvResult) : (putStep q s r).1.status = .returned 0 := by
  rw [putStep_final hrun hf]
  exact (putFinal_finished s r).status

theorem isSendto_timeout_le (q : Request) (s : PutState) :
    (putTimeout q s).2.countP Effect.isSendto ≤ 1 := by
  rw [putTimeout]
  split_ifs
  · dsimp only
    rw [sendto, if_neg (by omega)]
    exact Nat.le_refl 1
  · dsimp only
    rw [sendto, if_pos (by decide)]
    exact Nat.zero_le 1
  · exact Nat.zero_le 1

theorem put_retrying (q : Request) : Retrying (putStep q) maxRetries (PutState.status · = .running)
    PutState.retries RecvResult.isDatagram Effect.isSendto where
  stopped := fun _ r hs => putStep_of_not_running hs r
  reset := by
    intro s r hrun hr hnext
    cases hf : s.final with
    | true =>
      rw [put_stops_final hrun hf] at hnext
      cases hnext
    | false =>
      cases r with
      | datagram src data =>
        by_cases hlen : data.length ≤ bufferSize
        · rw [putStep_datagram hrun hf src hlen, putDatagram_retries]
          rfl
        · rw [putStep_tooLong hrun hf src (Nat.lt_of_not_le hlen)] at hnext
          cases hnext
      | timedOut => cases hr
      | failed => cases hr
  retry := by
    intro s r hrun hr hnext
    cases hf : s.final with
    | true =>
      rw [put_stops_final hrun hf] at hnext
      cases hnext
    | false =>
      cases r with
      | timedOut =>
        have hone := isSendto_timeout_le q s
        rw [putStep_timedOut hrun hf] at hnext ⊢
        by_cases hmore : s.retries < maxRetries
        · refine ⟨hmore, ?_, hone⟩
          rw [putTimeout, if_pos hmore]
        · rw [putTimeout, if_neg hmore] at hnext
          cases hnext
      | failed =>
        rw [putStep_failed hrun hf] at hnext
        cases hnext
      | datagram src data => cases hr
  quiet := by
    intro s r hrun hr hend
    cases hf : s.final with
    | true =>
      rw [putStep_final hrun hf]
      rcases (putFinal_finished s r).effects with heffects | heffects
      · rw [heffects]
        rfl
      · rw [heffects]
        rfl
    | false =>
      cases r with
      | timedOut =>
        rw [putStep_timedOut hrun hf, putTimeout] at hend ⊢
        by_cases hmore : s.retries < maxRetries
        · rw [if_pos hmore] at hend
          exact absurd hrun hend
        · rw [if_neg hmore]
          rfl
      | failed =>
        rw [putStep_failed hrun hf]
        rfl
      | datagram src data => cases hr

theorem put_last_timeout {q : Request} {s : PutState} (hrun : s.status = .running)
    (hf : s.final = false) (htries : s.retries = maxRetries) :
    (putStep q s .timedOut).1.status = .returned (-1) := by
  rw [putStep_timedOut hrun hf, putTimeout, if_neg (by omega)]

/-- Nothing that `recvfrom` reports makes it undefined. -/
theorem putStep_undefined_iff (q : Request) (s : PutState) (r : RecvResult) :
    (putStep q s r).1.status = .undefined ↔ s.status = .undefined := by
  by_cases hrun : s.status = .running
  · rw [hrun]
    refine iff_of_false (fun h => ?_) nofun
    cases hf : s.final with
    | true =>
      rw [put_stops_final hrun hf] at h
      cases h
    | false =>
      rcases putStep_status (q := q) hrun hf r with hnext | hnext
      · rw [hnext] at h
        cases h
      · rw [hnext] at h
        cases h
  · rw [putStep_of_not_running hrun]

theorem putGivesUp (q : Request) (file uninit : Bytes) (uninitAddr : SockAddr)
    (rs : List RecvResult) : PutGivesUp q file uninit uninitAddr rs := by
  rw [PutGivesUp, givesUp_iff (put_retrying q) rfl (fun s => putStep_undefined_iff q s .timedOut)
    (fun s hrun hf htries => put_last_timeout hrun hf htries)]
  induction rs using List.reverseRecOn with
  | nil =>
    intro h
    cases h
  | append_singleton rs r ih =>
    rw [run_concat, ne_eq, putStep_undefined_iff]
    exact ih

/-! ## Both -/

/-- Both functions give up, as long as `tftp_get` comes to no datagram that is
read as the next block without a whole header. -/
theorem gives_up_iff (q : Request) (file uninit : Bytes) (uninitAddr : SockAddr)
    (rs : List RecvResult) :
    GetGivesUp q uninit uninitAddr rs ∧ PutGivesUp q file uninit uninitAddr rs ↔
      NoShortBlock (getStart q uninit uninitAddr) rs := by
  rw [and_iff_left (putGivesUp q file uninit uninitAddr rs)]
  exact getGivesUp_iff q uninit uninitAddr rs

/-- Three bytes of a datagram are completed to DATA 1 by the last one of the
datagram before. -/
theorem short_block_undefined :
    ¬ ∀ (q : Request) (file uninit : Bytes) (uninitAddr : SockAddr) (rs : List RecvResult),
      GetGivesUp q uninit uninitAddr rs ∧ PutGivesUp q file uninit uninitAddr rs := by
  intro h
  have hno := (getGivesUp_iff oneLetter [] { ip := 0, port := 0 }
    [.datagram { ip := 1, port := 1069 } (dataPacket 257 []),
      .datagram { ip := 1, port := 1069 } [0, 3, 0]]).mp (h oneLetter [] [] _ _).1
  exact hno.2.1 (by decide) _ _ rfl ⟨by decide, by decide, by decide⟩

end Tftp
end NetLab
