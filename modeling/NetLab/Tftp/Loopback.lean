import NetLab.Tftp.Download
import NetLab.Tftp.Put

/-!
# `tftp_put` feeding `tftp_get`

The datagrams that `tftp_put` emits when each one is acknowledged in turn, read
by `tftp_get` in order and without loss.  The two loops end a transfer by
different rules, so the outcome depends on the length of the file.
-/

namespace NetLab
namespace Tftp

/-- The DATA datagrams `tftp_put` sends to `peer` while it is given, `n` times,
the acknowledgement it waits for.  Each one is paired with the block number that
`tftp_put` waits for next. -/
def putAnswered (q : Request) (peer : SockAddr) : Nat → PutState → List (Bytes × UInt16)
  | 0, _ => []
  | n + 1, s =>
    let r := putStep q s (.datagram peer (ackPacket s.blockNum))
    (datagramsTo peer r.2).map (fun d => (d, r.1.blockNum)) ++ putAnswered q peer n r.1

/-- `tftp_get` reads what `tftp_put` sent, leaves its loop with zero and the
whole file, and sends the acknowledgements that were waited for. -/
structure Agrees (file : Bytes) (peer : SockAddr) (sent : List (Bytes × UInt16))
    (r : GetState × List Effect) : Prop where
  returned : r.1.status = .returned 0
  file_eq : r.1.file = file
  acks : datagramsTo peer r.2 = sent.map fun d => ackPacket d.2

/-- The loop of `tftp_get` over the datagrams of `sent`. -/
def getSent (peer : SockAddr) (c : GetState) (sent : List (Bytes × UInt16)) :
    GetState × List Effect :=
  getRun c (sent.map fun d => .datagram peer d.1)

/-- The blocks `m + 1 .. m + n`, each with its number. -/
def numberedBlocks (file : Bytes) (m n : Nat) : List (Bytes × UInt16) :=
  (List.range' (m + 1) n).map fun j => (blockDatagram file j, UInt16.ofNat j)

theorem numberedBlocks_succ (file : Bytes) (m n : Nat) :
    numberedBlocks file m (n + 1) =
      (blockDatagram file (m + 1), UInt16.ofNat (m + 1)) :: numberedBlocks file (m + 1) n := rfl

/-! ## What `tftp_put` emits -/

/-- The second `recvfrom` sends nothing, and it is the last one. -/
theorem putAnswered_final {q : Request} {s : PutState} (peer : SockAddr)
    (hrun : s.status = .running) (hf : s.final = true) (n : Nat) :
    putAnswered q peer n s = [] := by
  have hstopped : ∀ n (s : PutState), s.status ≠ .running → putAnswered q peer n s = [] := by
    intro n
    induction n with
    | zero => exact fun _ _ => rfl
    | succ n ih =>
      intro s hs
      rw [putAnswered, putStep_of_not_running hs]
      exact ih s hs
  cases n with
  | zero => rfl
  | succ n =>
    have hfinished := putFinal_finished s (.datagram peer (ackPacket s.blockNum))
    have hsent : datagramsTo peer (putFinal s (.datagram peer (ackPacket s.blockNum))).2 = [] := by
      rcases hfinished.effects with he | he
      · rw [he]
        rfl
      · rw [he]
        rfl
    rw [putAnswered, putStep_final hrun hf]
    simp only [hsent, List.map_nil, List.nil_append]
    refine hstopped n _ ?_
    rw [hfinished.status]
    exact Status.noConfusion

/-- After `k` blocks the remaining ones that are not empty are sent in order. -/
theorem putAnswered_eq {q : Request} {file : Bytes} (peer : SockAddr) {n k : Nat} {s : PutState}
    (hrun : s.status = .running) (hf : s.final = false) (hb : s.blockNum = UInt16.ofNat k)
    (hr : s.rest = file.drop (blockSize * k)) (hn : blockCount file < n + k) :
    putAnswered q peer n s = numberedBlocks file k (putCount file - k) := by
  induction n generalizing k s with
  | zero =>
    have hle := putCount_le_blockCount file
    have hzero : putCount file - k = 0 := by omega
    rw [hzero]
    rfl
  | succ n ih =>
    have hle := putCount_le_blockCount file
    have hge := blockCount_le_putCount_succ file
    rw [putAnswered, putStep_ackPacket hrun hf peer, if_pos rfl,
      putNext_eq (k := k) (s := s.receive peer (ackPacket s.blockNum)) hb hr]
    by_cases hlast : blockCount file ≤ k + 1
    · have hstop : ∀ s' : PutState, s'.status = .running → s'.final = true →
          putAnswered q peer n s' = [] := fun s' h h' => putAnswered_final peer h h' n
      simp only [decide_eq_true hlast]
      rw [hstop _ ?stopped ?final, List.append_nil]
      case stopped => exact hrun
      case final => rfl
      by_cases hk : k < putCount file
      · have hone : putCount file - k = 1 := by omega
        rw [if_pos hk, hone, numberedBlocks_succ]
        exact congrArg (List.map _) (datagramsTo_self peer _)
      · have hzero : putCount file - k = 0 := by omega
        rw [if_neg hk, hzero]
        rfl
    · have hk : k < putCount file := by omega
      have hcount : putCount file - k = putCount file - (k + 1) + 1 := by omega
      simp only [decide_eq_false hlast, if_pos hk]
      rw [ih (k := k + 1) ?running ?final ?num ?rest (by omega), hcount, numberedBlocks_succ]
      case running => exact hrun
      case final => rfl
      case num => rfl
      case rest => rfl
      exact congrArg (fun l => List.map _ l ++ _) (datagramsTo_self peer _)

/-! ## What `tftp_get` makes of it -/

theorem datagramsTo_append (addr : SockAddr) (xs ys : List Effect) :
    datagramsTo addr (xs ++ ys) = datagramsTo addr xs ++ datagramsTo addr ys :=
  List.filterMap_append

/-- Blocks that come in order are accepted one by one. -/
theorem GetProgress.feed {file : Bytes} {m : Nat} {c : GetState} (h : GetProgress file m c)
    (hrun : c.status = .running) (peer : SockAddr) {n : Nat} (hn : m + n ≤ blockCount file) :
    GetProgress file (m + n) (getSent peer c (numberedBlocks file m n)).1 ∧
      (getSent peer c (numberedBlocks file m n)).1.status =
        (if m + n < blockCount file then .running else .returned 0) ∧
      datagramsTo peer (getSent peer c (numberedBlocks file m n)).2 =
        (numberedBlocks file m n).map fun d => ackPacket d.2 := by
  induction n generalizing m c with
  | zero => exact ⟨h, hrun.trans (if_pos (h.running hrun)).symm, rfl⟩
  | succ n ih =>
    obtain ⟨hnext, hack⟩ := h.accept hrun peer
    have hstatus := h.accept_status hrun peer
    have hsum : m + 1 + n = m + (n + 1) := by omega
    have hcons : getSent peer c (numberedBlocks file m (n + 1)) =
        let c' := getStep c (.datagram peer (blockDatagram file (m + 1)))
        ((getSent peer c'.1 (numberedBlocks file (m + 1) n)).1,
          c'.2 ++ (getSent peer c'.1 (numberedBlocks file (m + 1) n)).2) := rfl
    rw [hcons, numberedBlocks_succ]
    simp only [datagramsTo_append, hack, List.map_cons]
    by_cases hlt : m + 1 < blockCount file
    · rw [if_pos hlt] at hstatus
      obtain ⟨hprog, hs, ha⟩ := ih hnext hstatus (by omega)
      rw [hsum] at hprog hs
      exact ⟨hprog, hs, by rw [ha]; rfl⟩
    · obtain rfl : n = 0 := by omega
      exact ⟨hnext, hstatus, rfl⟩

/-! ## The two together -/

/-- The two functions agree exactly on the files whose length is no multiple of
the block size: for the others the empty block that ends a transfer is never
sent. -/
theorem put_get_agree_iff (q q' : Request) (peer : SockAddr) (file uninit uninit' : Bytes)
    (uninitAddr uninitAddr' : SockAddr) {n : Nat} (hn : blockCount file < n) :
    let sent := putAnswered q peer n (putStart q file uninit uninitAddr)
    Agrees file peer sent (getSent peer (getStart q' uninit' uninitAddr') sent) ↔
      file.length % blockSize ≠ 0 := by
  intro sent
  have hle := putCount_le_blockCount file
  have hiff := putCount_eq_blockCount_iff file
  have hsent : sent = numberedBlocks file 0 (putCount file) :=
    putAnswered_eq (k := 0) (s := putStart q file uninit uninitAddr) peer rfl rfl rfl rfl hn
  obtain ⟨hprog, hstatus, hacks⟩ :=
    (GetProgress.start file q' uninit' uninitAddr').feed rfl peer (n := putCount file) (by omega)
  rw [hsent]
  constructor
  · intro h
    rw [h.returned] at hstatus
    by_cases hlt : 0 + putCount file < blockCount file
    · rw [if_pos hlt] at hstatus
      cases hstatus
    · exact hiff.mp (by omega)
  · intro hmod
    have hret := hstatus.trans (if_neg (by have := hiff.mpr hmod; omega))
    exact ⟨hret, hprog.file_eq_of_returned hret, hacks⟩

theorem put_get_agree_iff_one_byte :
    let q : Request := ⟨0, ascii "f", by decide⟩
    let peer : SockAddr := ⟨1, 2000⟩
    let sent := putAnswered q peer 2 (putStart q [7] [] ⟨0, 0⟩)
    Agrees [7] peer sent (getSent peer (getStart q [] ⟨0, 0⟩) sent) :=
  (put_get_agree_iff _ _ _ _ _ _ _ _ (by decide)).mpr (by decide)

/-- Nothing at all is sent for the empty file, and `tftp_get` waits on. -/
theorem put_get_disagree_empty :
    ¬ ∀ (file : Bytes) (n : Nat), blockCount file < n →
      let q : Request := ⟨0, ascii "f", by decide⟩
      let peer : SockAddr := ⟨1, 2000⟩
      let sent := putAnswered q peer n (putStart q file [] ⟨0, 0⟩)
      Agrees file peer sent (getSent peer (getStart q [] ⟨0, 0⟩) sent) := by
  intro h
  have hret := (h [] 2 (by decide)).returned
  revert hret
  decide

end Tftp
end NetLab
