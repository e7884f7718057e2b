import NetLab.Tftp.Progress

/-!
# A download whose request may be lost

`tftp_get` sends its RRQ once.  After a timeout it acknowledges block 0 to an
address that nothing has set, so the sender starts only when a copy of that one
datagram comes through.  The system here is `download` behind a channel that
carries the request.
-/

namespace NetLab
namespace Tftp

open Transition Fifo Blocks

/-- The datagram that asks for the file. -/
def DownloadConfig.rrq (k : DownloadConfig) : Bytes := requestPacket opRrq k.request.remoteFile

/-- The transfer, the datagrams in flight to the server's own port, and whether
the server has read a request.  An acknowledgement that goes to that port is no
request, and is left out. -/
structure RequestedState where
  requests : List Bytes
  serving : Bool
  transfer : DownloadState
  deriving DecidableEq, Repr

inductive RequestedAction
  | deliverRequest
  | disturbRequests (d : Disturbance)
  | transfer (a : DownloadAction)
  deriving DecidableEq, Repr

def requestedStep (k : DownloadConfig) (s : RequestedState) :
    RequestedAction → Option RequestedState
  | .deliverRequest =>
    match s.requests with
    | [] => none
    | d :: rest => some { s with requests := rest, serving := s.serving || ntohs d 0 == opRrq }
  | .disturbRequests d => some { s with requests := disturb d s.requests }
  -- Nothing sends blocks before the request has come.
  | .transfer a =>
    if a = .transmit ∧ s.serving = false then none
    else (downloadStep k s.transfer a).map fun t => { s with transfer := t }

def RequestedState.start (k : DownloadConfig) : RequestedState :=
  { requests := [k.rrq], serving := false, transfer := .start k }

def requested (k : DownloadConfig) : System RequestedState RequestedAction where
  init s := s = .start k
  step := requestedStep k

/-- A step of a network that has settled. -/
def RequestedState.Settled (s : RequestedState) : RequestedAction → Prop
  | .deliverRequest => True
  | .disturbRequests _ => False
  | .transfer a => Tftp.Settled s.transfer a ∧ (a = .timeout → s.requests = [])

/-- The server has read the request, or can still read a copy of it. -/
def RequestedState.Asked (k : DownloadConfig) (s : RequestedState) : Prop :=
  s.serving = true ∨ k.rrq ∈ s.requests

section

variable {k : DownloadConfig} {s s' : RequestedState}

theorem ntohs_rrq (k : DownloadConfig) : ntohs k.rrq 0 = opRrq := by
  have h := ntohs_htons_append opRrq (k.request.remoteFile ++ [0] ++ ascii "octet" ++ [0])
  simp only [DownloadConfig.rrq, requestPacket, List.append_assoc] at h ⊢
  exact h

/-! ## What one step does -/

/-- A step reads a datagram at the server's port, disturbs the channel to it, or
is one of the transfer. -/
theorem requestedStep_cases {a : RequestedAction} (h : requestedStep k s a = some s') :
    (∃ d rest, a = .deliverRequest ∧ s.requests = d :: rest ∧
        s' = { s with requests := rest, serving := s.serving || ntohs d 0 == opRrq }) ∨
      (∃ d, a = .disturbRequests d ∧ s' = { s with requests := disturb d s.requests }) ∨
      ∃ b t, a = .transfer b ∧ (b = .transmit → s.serving = true) ∧
        downloadStep k s.transfer b = some t ∧ s' = { s with transfer := t } := by
  cases a with
  | deliverRequest =>
    cases hd : s.requests with
    | nil => simp [requestedStep, hd] at h
    | cons d rest =>
      simp only [requestedStep, hd, Option.some.injEq] at h
      exact .inl ⟨d, rest, rfl, rfl, h.symm⟩
  | disturbRequests d => exact .inr (.inl ⟨d, rfl, (Option.some.inj h).symm⟩)
  | transfer b =>
    by_cases hb : b = .transmit ∧ s.serving = false
    · simp [requestedStep, hb] at h
    · simp only [requestedStep, if_neg hb, Option.map_eq_some_iff] at h
      obtain ⟨t, ht, rfl⟩ := h
      refine .inr (.inr ⟨b, t, rfl, fun hsends => ?_, ht, rfl⟩)
      exact Bool.eq_true_of_not_eq_false fun hnot => hb ⟨hsends, hnot⟩

/-- The transfer behind the request makes steps of `download` only. -/
theorem requested_simulates (k : DownloadConfig) :
    System.Simulates (requested k) (download k) fun s t => s.transfer = t where
  init := by
    rintro s rfl
    exact ⟨.start k, .init rfl, rfl⟩
  step := by
    rintro s a s' t ht rfl hs
    rcases requestedStep_cases hs with ⟨d, rest, -, -, rfl⟩ | ⟨d, -, rfl⟩ | ⟨b, t', -, -, hb, rfl⟩
    · exact ⟨[], s.transfer, rfl, rfl⟩
    · exact ⟨[], s.transfer, rfl, rfl⟩
    · exact ⟨[b], t', System.run_singleton hb, rfl⟩

theorem requested_reachable (h : (requested k).Reachable s) :
    (download k).Reachable s.transfer := by
  obtain ⟨t, ht, rfl⟩ := (requested_simulates k).reachable h
  exact ht

/-! ## Without the request -/

/-- The client waits for a first block, and none is on its way. -/
structure Unanswered (k : DownloadConfig) (t : DownloadState) : Prop where
  client : GetProgress k.file 0 t.client
  data : t.data = []

theorem Unanswered.start (k : DownloadConfig) : Unanswered k (.start k) where
  client := GetProgress.start k.file k.request k.uninit k.uninitAddr
  data := rfl

theorem Unanswered.not_returned {t : DownloadState} (h : Unanswered k t) :
    t.client.status ≠ .returned 0 := by
  intro hret
  have hnone := h.client.returned hret
  have hpos := blockCount_pos k.file
  omega

/-- Only the sender can end the wait. -/
theorem Unanswered.step {t t' : DownloadState} {a : DownloadAction} (h : Unanswered k t)
    (hnot : a ≠ .transmit) (hs : downloadStep k t a = some t') : Unanswered k t' := by
  cases a with
  | transmit => exact absurd rfl hnot
  | deliverData => simp [downloadStep, h.data] at hs
  | deliverAck =>
    cases hd : t.acks with
    | nil => simp [downloadStep, hd] at hs
    | cons d rest =>
      simp only [downloadStep, hd, Option.some.injEq] at hs
      exact hs ▸ ⟨h.client, h.data⟩
  | timeout =>
    obtain rfl := Option.some.inj hs
    exact ⟨(h.client.timedOut k.senderAddr).1, h.data⟩
  | recvFails =>
    obtain rfl := Option.some.inj hs
    exact ⟨(h.client.failed k.senderAddr).1, h.data⟩
  | disturbData d =>
    obtain rfl := Option.some.inj hs
    refine ⟨h.client, List.eq_nil_iff_forall_not_mem.mpr fun m hm => ?_⟩
    have hmem : m ∈ t.data := mem_of_mem_disturb hm
    rw [h.data] at hmem
    cases hmem
  | disturbAcks d =>
    obtain rfl := Option.some.inj hs
    exact ⟨h.client, h.data⟩

/-- Until the server reads the request, nothing answers the client, and only
copies of the request are in flight to the server. -/
structure RequestInv (k : DownloadConfig) (s : RequestedState) : Prop where
  requests : ∀ d ∈ s.requests, d = k.rrq
  unanswered : s.serving = false → Unanswered k s.transfer

theorem RequestInv.step (h : RequestInv k s) {a : RequestedAction}
    (hs : requestedStep k s a = some s') : RequestInv k s' := by
  rcases requestedStep_cases hs with
    ⟨d, rest, -, hd, rfl⟩ | ⟨d, -, rfl⟩ | ⟨b, t, -, hserving, hb, rfl⟩
  · refine ⟨fun d' hd' => h.requests d' (hd ▸ List.mem_cons_of_mem _ hd'), fun hnot => ?_⟩
    exact h.unanswered (Bool.or_eq_false_iff.mp hnot).1
  · exact ⟨fun d' hd' => h.requests d' (mem_of_mem_disturb hd'), h.unanswered⟩
  · refine ⟨h.requests, fun hnot => (h.unanswered hnot).step (fun hsends => ?_) hb⟩
    exact Bool.false_ne_true (hnot.symm.trans (hserving hsends))

theorem requestInv (h : (requested k).Reachable s) : RequestInv k s := by
  refine System.Reachable.invariant ?_ (fun s a s' hi hs => hi.step hs) h
  rintro s rfl
  exact ⟨fun d hd => List.mem_singleton.mp hd, fun _ => .start k⟩

/-- A request that is lost stays lost: the call never sends it again. -/
theorem not_asked_step (h : (requested k).Reachable s) (hnot : ¬ s.Asked k) {a : RequestedAction}
    (hs : requestedStep k s a = some s') : ¬ s'.Asked k := by
  rw [RequestedState.Asked, not_or] at hnot ⊢
  have hcopies := (requestInv h).requests
  rcases requestedStep_cases hs with ⟨d, rest, -, hd, rfl⟩ | ⟨d, -, rfl⟩ | ⟨b, t, -, -, -, rfl⟩
  · have hhead : d ∈ s.requests := hd ▸ List.mem_cons_self
    exact absurd (hcopies d hhead ▸ hhead) hnot.2
  · exact ⟨hnot.1, fun hmem => hnot.2 (mem_of_mem_disturb hmem)⟩
  · exact hnot

theorem not_asked_run (h : (requested k).Reachable s) (hnot : ¬ s.Asked k)
    {as : List RequestedAction} (hs : (requested k).run s as = some s') : ¬ s'.Asked k := by
  induction as generalizing s with
  | nil =>
    rw [System.run_nil, Option.some.injEq] at hs
    exact hs ▸ hnot
  | cons a as ih =>
    rw [System.run, Option.bind_eq_some_iff] at hs
    obtain ⟨t, hstep, hrest⟩ := hs
    exact ih (h.step hstep) (not_asked_step h hnot hstep) hrest

theorem asked_of_returned (h : (requested k).Reachable s)
    (hret : s.transfer.client.status = .returned 0) : s.Asked k := by
  refine .inl (Bool.eq_true_of_not_eq_false fun hnot => ?_)
  exact ((requestInv h).unanswered hnot).not_returned hret

/-! ## With the request -/

/-- What is in flight to the server can arrive, and then the server serves. -/
theorem can_be_served (hasked : s.Asked k) :
    (requested k).Can RequestedState.Settled
      (fun s' => s'.requests = [] ∧ s'.serving = true ∧ s'.transfer = s.transfer) s := by
  induction hreq : s.requests generalizing s with
  | nil =>
    have hserving := hasked.resolve_right fun hmem => by
      rw [hreq] at hmem
      cases hmem
    exact .here ⟨hreq, hserving, rfl⟩
  | cons d rest ih =>
    have hstep : (requested k).step s .deliverRequest =
        some { s with requests := rest, serving := s.serving || ntohs d 0 == opRrq } := by
      show requestedStep k s .deliverRequest = _
      rw [requestedStep, hreq]
    have hstill : RequestedState.Asked k
        { s with requests := rest, serving := s.serving || ntohs d 0 == opRrq } := by
      rcases hasked with hserving | hmem
      · exact .inl (by simp [hserving])
      · rw [hreq] at hmem
        rcases List.mem_cons.mp hmem with rfl | hmem
        · exact .inl (by simp [ntohs_rrq])
        · exact .inr hmem
    exact .step hstep trivial (ih hstill rfl)

/-- What `download` can do, it can do behind a request that was read. -/
theorem can_transfer {P : DownloadState → Prop} {t : DownloadState}
    (hcan : (download k).Can Settled P t) (ht : s.transfer = t) (hserving : s.serving = true)
    (hreq : s.requests = []) :
    (requested k).Can RequestedState.Settled (fun s' => P s'.transfer) s := by
  induction hcan generalizing s with
  | here hp => exact .here (ht ▸ hp)
  | @step t t' a hs hok _ ih =>
    subst ht
    have hstep : (requested k).step s (.transfer a) = some { s with transfer := t' } := by
      show requestedStep k s (.transfer a) = _
      have hdown : downloadStep k s.transfer a = some t' := hs
      rw [requestedStep, if_neg fun hc => Bool.false_ne_true (hc.2.symm.trans hserving), hdown]
      rfl
    exact .step hstep ⟨hok, fun _ => hreq⟩ (ih rfl hserving hreq)

end

/-- A call that is still running can still bring the whole file over exactly when
the server has read the request or a copy of it is in flight.  Then a network
that has settled is enough.  Otherwise no run makes the call report success. -/
theorem download_recoverable_iff (k : DownloadConfig) {s : RequestedState}
    (h : (requested k).Reachable s) (hrun : s.transfer.client.status = .running) :
    ((∃ as s', (requested k).Along RequestedState.Settled s as ∧
        (requested k).run s as = some s' ∧ s'.transfer.client.status = .returned 0 ∧
        s'.transfer.client.file = k.file) ↔ s.Asked k) ∧
      ((∃ as s', (requested k).run s as = some s' ∧
        s'.transfer.client.status = .returned 0) ↔ s.Asked k) := by
  have honly : (∃ as s', (requested k).run s as = some s' ∧
      s'.transfer.client.status = .returned 0) → s.Asked k := by
    rintro ⟨as, s', hs', hret⟩
    by_contra hnot
    exact not_asked_run h hnot hs' (asked_of_returned (h.run hs') hret)
  have hcan : s.Asked k → ∃ as s', (requested k).Along RequestedState.Settled s as ∧
      (requested k).run s as = some s' ∧ s'.transfer.client.status = .returned 0 ∧
      s'.transfer.client.file = k.file := by
    intro hasked
    rw [← System.can_iff_exists_run (P := fun s' : RequestedState =>
      s'.transfer.client.status = .returned 0 ∧ s'.transfer.client.file = k.file)]
    refine (can_be_served hasked).trans fun s₁ hs₁ => ?_
    obtain ⟨hreq, hserving, hsame⟩ := hs₁
    have hbring := System.can_iff_exists_run.mpr
      (download_can_succeed k (requested_reachable h) hrun)
    exact can_transfer hbring hsame hserving hreq
  refine ⟨⟨?_, hcan⟩, honly, ?_⟩
  · rintro ⟨as, s', -, hs', hret, -⟩
    exact honly ⟨as, s', hs', hret⟩
  · intro hasked
    obtain ⟨as, s', -, hs', hret, -⟩ := hcan hasked
    exact ⟨as, s', hs', hret⟩

/-- One copy of the request was lost, another is in flight. -/
theorem download_recoverable_iff_one_byte :
    let k : DownloadConfig :=
      { request := ⟨0, ascii "f", by decide⟩, file := [7], senderAddr := ⟨1, 2000⟩
        uninit := [], uninitAddr := ⟨0, 0⟩ }
    ∃ s, (requested k).Reachable s ∧
      (((∃ as s', (requested k).Along RequestedState.Settled s as ∧
          (requested k).run s as = some s' ∧ s'.transfer.client.status = .returned 0 ∧
          s'.transfer.client.file = [7]) ↔ s.Asked k) ∧
        ((∃ as s', (requested k).run s as = some s' ∧
          s'.transfer.client.status = .returned 0) ↔ s.Asked k)) := by
  intro k
  obtain ⟨s, hs, hrun⟩ := System.exists_reachable (M := requested k)
    (f := (·.transfer.client.status)) (c := .running) (s := .start k)
    (l := [.disturbRequests (.dup 0), .disturbRequests (.lose 0), .transfer .timeout]) rfl
    (by decide)
  exact ⟨s, hs, download_recoverable_iff k hs hrun⟩

end Tftp
end NetLab
