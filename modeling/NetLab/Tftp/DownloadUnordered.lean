import NetLab.Tftp.Download

/-!
# Downloads over an arbitrary network

The network keeps every datagram ever sent and delivers any of them at any
time, any number of times or never.  Nothing orders the block indices any
more, so the proof rests on the numbers: up to 65536 blocks, no two blocks of
the file share one.
-/

namespace NetLab
namespace Tftp

open Transition Blocks

inductive UnorderedAction
  | transmit
  | deliverData (i : Nat)
  | deliverAck (i : Nat)
  | timeout
  | recvFails
  deriving DecidableEq, Repr

/-- One step.  `data` and `acks` are what was sent so far, and a delivery
takes any element and leaves it there. -/
def unorderedStep (k : DownloadConfig) (s : DownloadState) :
    UnorderedAction → Option DownloadState
  | .transmit =>
    if s.sender.done then none
    else some { s with data := s.data ++ [blockDatagram k.file s.sender.cur] }
  | .deliverData i => s.data[i]?.map fun d => s.clientStep k (.datagram k.senderAddr d)
  | .deliverAck i => s.acks[i]?.map fun d => { s with sender := s.sender.takeAck k.file d }
  | .timeout => some (s.clientStep k .timedOut)
  | .recvFails => some (s.clientStep k .failed)

def unorderedDownload (k : DownloadConfig) : System DownloadState UnorderedAction where
  init s := s = .start k
  step := unorderedStep k

/-- The client has taken the first `m` blocks, and every DATA datagram on the
network carries a block of the file under its own number. -/
structure UnorderedInv (k : DownloadConfig) (s : DownloadState) : Prop where
  client : ∃ m, GetProgress k.file m s.client
  cur_pos : 0 < s.sender.cur
  cur_le : s.sender.cur ≤ blockCount k.file
  genuine : ∀ d ∈ s.data, ∃ j, 0 < j ∧ j ≤ blockCount k.file ∧ d = blockDatagram k.file j

theorem unorderedInv_start (k : DownloadConfig) : UnorderedInv k (.start k) where
  client := ⟨0, GetProgress.start k.file k.request k.uninit k.uninitAddr⟩
  cur_pos := Nat.one_pos
  cur_le := blockCount_pos k.file
  genuine := by
    intro d hd
    cases hd

/-- Up to 65536 blocks a number names one block. -/
theorem ofNat_inj_of_le {i j : Nat} (hi : 0 < i) (hi' : i ≤ 65536) (hj : 0 < j)
    (hj' : j ≤ 65536) (h : UInt16.ofNat i = UInt16.ofNat j) : i = j := by
  have hmod := congrArg UInt16.toNat h
  simp only [UInt16.toNat_ofNat'] at hmod
  omega

theorem blockCount_le_of_length {file : Bytes} (h : file.length ≤ 33554431) :
    blockCount file ≤ 65536 := by
  have hb : blockSize = 512 := rfl
  rw [blockCount, hb]
  omega

theorem takeAck_range {file : Bytes} {p : Sender} (hpos : 0 < p.cur)
    (hle : p.cur ≤ blockCount file) (d : Bytes) :
    0 < (p.takeAck file d).cur ∧ (p.takeAck file d).cur ≤ blockCount file := by
  unfold Sender.takeAck
  split
  · split
    · exact ⟨Nat.succ_pos _, by assumption⟩
    · exact ⟨hpos, hle⟩
  · exact ⟨hpos, hle⟩

/-- Whatever block of the file arrives, the client stays on a prefix. -/
theorem GetProgress.deliver {file : Bytes} {m : Nat} {c : GetState} (h : GetProgress file m c)
    (hcount : blockCount file ≤ 65536) (src : SockAddr) {j : Nat} (hj : 0 < j)
    (hj' : j ≤ blockCount file) :
    ∃ m', GetProgress file m' (getStep c (.datagram src (blockDatagram file j))).1 := by
  by_cases hrun : c.status = .running
  · have hlt := h.running hrun
    by_cases hnum : UInt16.ofNat j = UInt16.ofNat (m + 1)
    · obtain rfl : j = m + 1 := ofNat_inj_of_le hj (by omega) (Nat.succ_pos m) (by omega) hnum
      exact ⟨m + 1, (h.accept hrun src).1⟩
    · exact ⟨m, (h.ignore hrun src hnum).1⟩
  · rw [getStep_of_not_running hrun]
    exact ⟨m, h⟩

theorem UnorderedInv.step {k : DownloadConfig} (hcount : blockCount k.file ≤ 65536)
    {s s' : DownloadState} (h : UnorderedInv k s) (a : UnorderedAction)
    (hs : unorderedStep k s a = some s') : UnorderedInv k s' := by
  obtain ⟨m, hm⟩ := h.client
  cases a with
  | transmit =>
    cases hdone : s.sender.done with
    | true => simp [unorderedStep, hdone] at hs
    | false =>
      simp only [unorderedStep, hdone, Bool.false_eq_true, if_false, Option.some.injEq] at hs
      subst hs
      refine { h with genuine := ?_ }
      intro d hd
      rcases List.mem_append.mp hd with hd | hd
      · exact h.genuine d hd
      · exact ⟨s.sender.cur, h.cur_pos, h.cur_le, List.mem_singleton.mp hd⟩
  | deliverData i =>
    obtain ⟨d, hd, rfl⟩ := Option.map_eq_some_iff.mp hs
    obtain ⟨j, hj, hj', rfl⟩ := h.genuine d (List.mem_of_getElem? hd)
    exact { h with client := hm.deliver hcount k.senderAddr hj hj' }
  | deliverAck i =>
    obtain ⟨d, hd, rfl⟩ := Option.map_eq_some_iff.mp hs
    obtain ⟨hpos, hle⟩ := takeAck_range h.cur_pos h.cur_le d
    exact { h with cur_pos := hpos, cur_le := hle }
  | timeout =>
    simp only [unorderedStep, Option.some.injEq] at hs
    subst hs
    exact { h with client := ⟨m, (hm.timedOut k.senderAddr).1⟩ }
  | recvFails =>
    simp only [unorderedStep, Option.some.injEq] at hs
    subst hs
    exact { h with client := ⟨m, (hm.failed k.senderAddr).1⟩ }

/-- For a file of at most 65536 blocks, whatever the network does, the writes
to the local file are the first blocks of the file, each once and in order, and
a download that reports success has the whole file. -/
theorem unordered_download_agreement (k : DownloadConfig) (hlen : k.file.length ≤ 33554431)
    {s : DownloadState} (h : (unorderedDownload k).Reachable s) :
    (∃ m, m ≤ blockCount k.file ∧ s.client.writes = blocks blockSize k.file m ∧
      s.client.file = (blocks blockSize k.file m).flatten) ∧
    (s.client.status = .returned 0 → s.client.file = k.file) := by
  have hinv : UnorderedInv k s := by
    apply System.Reachable.invariant _ _ h
    · rintro s rfl
      exact unorderedInv_start k
    · intro s a s' hi hs
      exact hi.step (blockCount_le_of_length hlen) a hs
  obtain ⟨m, hm⟩ := hinv.client
  exact ⟨⟨m, hm.le_count, hm.writes, hm.file_eq⟩, hm.file_eq_of_returned⟩

theorem unordered_download_agreement_two_blocks :
    let k : DownloadConfig :=
      { request := ⟨0, ascii "f", by decide⟩, file := List.replicate 513 7
        senderAddr := ⟨1, 2000⟩, uninit := [], uninitAddr := ⟨0, 0⟩ }
    ∃ s, (unorderedDownload k).Reachable s ∧ s.client.status = .returned 0 ∧
      s.client.file = List.replicate 513 7 := by
  intro k
  obtain ⟨s, hs, hret⟩ := System.exists_reachable (M := unorderedDownload k)
    (f := (·.client.status)) (c := .returned 0) (s := .start k)
    (l := [.timeout, .transmit, .deliverData 0, .deliverData 0, .deliverAck 0, .transmit,
      .deliverData 0, .deliverData 1]) rfl (by decide +kernel)
  exact ⟨s, hs, hret, (unordered_download_agreement k (by decide +kernel) hs).2 hret⟩

end Tftp
end NetLab
