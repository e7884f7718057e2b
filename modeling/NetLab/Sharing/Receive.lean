import NetLab.Library.Transition
import NetLab.Sharing.Transfer

/-!
# The receive loop turn by turn

The child process collects a file of the declared size from a connection that
somebody else writes to: the bytes may be fewer or more than declared, and a
call of `recv` may fail.
-/

namespace NetLab
namespace Sharing

open ByteStream Transition

/-- Why the loop broke off. -/
inductive Broken where
  | ended
  | failed
  deriving DecidableEq, Repr

/-- `received`, the file, and what the connection still holds. -/
structure Receiver where
  received : UInt32
  file : Bytes
  left : Bytes
  broken : Option Broken
  deriving DecidableEq

/-- How many bytes a turn asks for. -/
def wanted (fileSize received : UInt32) : Nat := min fileBufferSize (fileSize - received).toNat

/-- The loop is left. -/
def Stopped (fileSize : UInt32) (s : Receiver) : Prop :=
  s.broken ≠ none ∨ ¬ s.received < fileSize

instance (fileSize : UInt32) (s : Receiver) : Decidable (Stopped fileSize s) :=
  inferInstanceAs (Decidable (_ ∨ _))

/-- One turn, with what `recv` does in it: it fails, or the network decides how
much it returns. -/
def turn (fileSize : UInt32) (s : Receiver) (result : Option Nat) : Option Receiver :=
  if Stopped fileSize s then none
  else
    match result with
    | none => some { s with broken := some .failed }
    | some k =>
      let r := recv k (wanted fileSize s.received) s.left
      if r.1 = [] then some { s with broken := some .ended }
      else
        some { s with
          received := s.received + UInt32.ofNat r.1.length
          file := s.file ++ r.1
          left := r.2 }

/-- Before the first turn. -/
def entered (stream : Bytes) : Receiver where
  received := 0
  file := []
  left := stream
  broken := none

/-- The loop on a connection that delivers `stream`. -/
def receiving (fileSize : UInt32) (stream : Bytes) : System Receiver (Option Nat) where
  init := fun s => s = entered stream
  step := turn fileSize

/-- The file and the rest of the connection are the stream, cut at `received`. -/
structure Exact (fileSize : UInt32) (stream : Bytes) (s : Receiver) : Prop where
  received_le : s.received ≤ fileSize
  no_wrap : (fileSize - s.received).toNat = fileSize.toNat - s.received.toNat
  file_eq : s.file = stream.take s.received.toNat
  left_eq : s.left = stream.drop s.received.toNat
  length_eq : s.file.length = s.received.toNat
  left_of_ended : s.broken = some .ended → s.left = []

/-- The file is what was declared of the stream, and only the connection makes it
shorter. -/
structure Collected (fileSize : UInt32) (stream : Bytes) (s : Receiver) : Prop where
  whole : (s.broken = some .failed → s.left = []) →
    s.file = stream.take (min fileSize.toNat stream.length)
  short : s.received < fileSize → s.broken = some .failed ∨ s.broken = some .ended ∧ s.left = []

theorem wanted_pos {fileSize received : UInt32} (h : received < fileSize) :
    0 < wanted fileSize received := by
  have hlt := UInt32.lt_iff_toNat_lt.mp h
  have hsub := UInt32.toNat_sub_of_le _ _ (UInt32.le_of_lt h)
  have hb : fileBufferSize = 4096 := rfl
  rw [wanted, hsub, hb]
  omega

theorem wanted_le {fileSize received : UInt32} (h : received < fileSize) :
    wanted fileSize received ≤ fileSize.toNat - received.toNat := by
  rw [wanted, UInt32.toNat_sub_of_le _ _ (UInt32.le_of_lt h)]
  exact Nat.min_le_right _ _

theorem turn_some {fileSize : UInt32} {s : Receiver} (h : ¬ Stopped fileSize s) (k : Nat) :
    turn fileSize s (some k) =
      if (recv k (wanted fileSize s.received) s.left).1 = [] then
        some { s with broken := some .ended }
      else
        some { s with
          received := s.received +
            UInt32.ofNat (recv k (wanted fileSize s.received) s.left).1.length
          file := s.file ++ (recv k (wanted fileSize s.received) s.left).1
          left := (recv k (wanted fileSize s.received) s.left).2 } := by
  rw [turn.eq_def, if_neg h]

theorem turn_isSome_iff (fileSize : UInt32) (s : Receiver) (result : Option Nat) :
    (turn fileSize s result).isSome ↔ ¬ Stopped fileSize s := by
  rw [turn.eq_def]
  split
  · rename_i hstopped
    exact iff_of_false nofun fun h => h hstopped
  · rename_i hstopped
    refine iff_of_true ?_ hstopped
    cases result with
    | none => rfl
    | some k =>
      dsimp only
      split
      · rfl
      · rfl

/-- What a turn can do: fail, find the end of the connection, or take some of the
bytes that are still wanted. -/
theorem turn_cases {fileSize : UInt32} {s s' : Receiver} {result : Option Nat}
    (h : turn fileSize s result = some s') :
    s.broken = none ∧ s.received < fileSize ∧
      (s' = { s with broken := some .failed } ∨
        s.left = [] ∧ s' = { s with broken := some .ended } ∨
        ∃ n, 0 < n ∧ n ≤ fileSize.toNat - s.received.toNat ∧ n ≤ s.left.length ∧
          s' = { s with
            received := s.received + UInt32.ofNat n
            file := s.file ++ s.left.take n
            left := s.left.drop n }) := by
  rw [turn.eq_def] at h
  split at h
  · cases h
  · rename_i hstopped
    rw [Stopped, not_or, not_not, not_not] at hstopped
    obtain ⟨hbroken, hlt⟩ := hstopped
    refine ⟨hbroken, hlt, ?_⟩
    cases result with
    | none => exact .inl (Option.some.inj h).symm
    | some k =>
      right
      have hwant := wanted_pos hlt
      have hle := wanted_le hlt
      have hlen := length_recv k (wanted fileSize s.received) s.left
      have hpart := part_le k (min (wanted fileSize s.received) s.left.length)
      dsimp only at h
      split at h
      · rename_i hnil
        left
        refine ⟨?_, (Option.some.inj h).symm⟩
        rw [hnil, List.length_nil] at hlen
        refine List.eq_nil_of_length_eq_zero ?_
        by_contra hne
        exact absurd hlen (Nat.ne_of_lt (part_pos (by omega)))
      · rename_i hne
        right
        have hpos := List.length_pos_of_ne_nil hne
        rw [hlen] at hpos h
        refine ⟨part k (min (wanted fileSize s.received) s.left.length), hpos, by omega, by omega,
          (Option.some.inj h).symm⟩

theorem exact_entered (fileSize : UInt32) (stream : Bytes) :
    Exact fileSize stream (entered stream) where
  received_le := UInt32.le_iff_toNat_le.mpr (Nat.zero_le _)
  no_wrap := UInt32.toNat_sub_of_le _ _ (UInt32.le_iff_toNat_le.mpr (Nat.zero_le _))
  file_eq := rfl
  left_eq := rfl
  length_eq := rfl
  left_of_ended := nofun

/-- The bytes that a turn takes are the next ones, and no more than wanted, so
`received` grows by their number without wrapping. -/
theorem Exact.turn {fileSize : UInt32} {stream : Bytes} {s s' : Receiver} {result : Option Nat}
    (h : Exact fileSize stream s) (hturn : turn fileSize s result = some s') :
    Exact fileSize stream s' := by
  obtain ⟨hbroken, hlt, rfl | ⟨hleft, rfl⟩ | ⟨n, -, hwant, hle, rfl⟩⟩ := turn_cases hturn
  · exact { h with left_of_ended := nofun }
  · exact { h with left_of_ended := fun _ => hleft }
  · have hlt' := UInt32.lt_iff_toNat_lt.mp hlt
    have hfs := fileSize.toNat_lt
    have hcount : (s.received + UInt32.ofNat n).toNat = s.received.toNat + n := by
      rw [UInt32.toNat_add, UInt32.toNat_ofNat']
      omega
    have hreceived : s.received + UInt32.ofNat n ≤ fileSize := by
      rw [UInt32.le_iff_toNat_le, hcount]
      omega
    refine ⟨hreceived, UInt32.toNat_sub_of_le _ _ hreceived, ?_, ?_, ?_, fun hended => ?_⟩
    · show s.file ++ s.left.take n = stream.take (s.received + UInt32.ofNat n).toNat
      rw [hcount, List.take_add, ← h.left_eq, ← h.file_eq]
    · show s.left.drop n = stream.drop (s.received + UInt32.ofNat n).toNat
      rw [hcount, h.left_eq, List.drop_drop]
    · show (s.file ++ s.left.take n).length = (s.received + UInt32.ofNat n).toNat
      rw [hcount, List.length_append, List.length_take, h.length_eq]
      omega
    · rw [hbroken] at hended
      cases hended

/-- A stopped loop has collected what there was to collect. -/
theorem Exact.collected {fileSize : UInt32} {stream : Bytes} {s : Receiver}
    (h : Exact fileSize stream s) (hstopped : Stopped fileSize s) :
    Collected fileSize stream s := by
  have hle := UInt32.le_iff_toNat_le.mp h.received_le
  have hlen := h.length_eq
  rw [h.file_eq, List.length_take] at hlen
  constructor
  · intro hfailed
    rw [h.file_eq]
    by_cases hlt : s.received < fileSize
    · -- The loop broke off, and nothing was left then.
      have hnil : s.left = [] := by
        rcases hstopped with hbroken | hge
        · cases hwhy : s.broken with
          | none => exact absurd hwhy hbroken
          | some why =>
            cases why with
            | ended => exact h.left_of_ended hwhy
            | failed => exact hfailed hwhy
        · exact absurd hlt hge
      have hdrop := congrArg List.length (h.left_eq.symm.trans hnil)
      rw [List.length_drop, List.length_nil] at hdrop
      have hlt' := UInt32.lt_iff_toNat_lt.mp hlt
      congr 1
      omega
    · rw [UInt32.lt_iff_toNat_lt] at hlt
      congr 1
      omega
  · intro hlt
    rcases hstopped with hbroken | hge
    · cases hwhy : s.broken with
      | none => exact absurd hwhy hbroken
      | some why =>
        cases why with
        | ended => exact .inr ⟨rfl, h.left_of_ended hwhy⟩
        | failed => exact .inl rfl
    · exact absurd hlt hge

/-! ## Runs -/

theorem exact_of_run {fileSize : UInt32} {stream : Bytes} {results : List (Option Nat)}
    {s : Receiver} (h : (receiving fileSize stream).run (entered stream) results = some s) :
    Exact fileSize stream s := by
  have hstart : (receiving fileSize stream).Reachable (entered stream) := .init rfl
  have hreach := hstart.run h
  refine System.Reachable.invariant (I := Exact fileSize stream) ?_ ?_ hreach
  · rintro s rfl
    exact exact_entered fileSize stream
  · intro s result s' hs hstep
    exact hs.turn hstep

/-- A loop that is left makes no more turns. -/
theorem run_of_stopped {fileSize : UInt32} {stream : Bytes} {results : List (Option Nat)}
    {s s' : Receiver} (hstopped : Stopped fileSize s)
    (h : (receiving fileSize stream).run s results = some s') : results = [] ∧ s' = s := by
  cases results with
  | nil =>
    rw [System.run_nil, Option.some.injEq] at h
    exact ⟨rfl, h.symm⟩
  | cons result results =>
    rw [System.run, Option.bind_eq_some_iff] at h
    obtain ⟨t, hturn, -⟩ := h
    have hgoes := (turn_isSome_iff fileSize s result).mp (Option.isSome_iff_exists.mpr ⟨t, hturn⟩)
    exact absurd hstopped hgoes

/-- Each turn but the last takes a byte. -/
theorem length_le_of_run {fileSize : UInt32} {stream : Bytes} {results : List (Option Nat)} :
    ∀ {s s' : Receiver}, Exact fileSize stream s →
      (receiving fileSize stream).run s results = some s' →
        results.length + s.received.toNat ≤ s'.received.toNat + 1 := by
  induction results with
  | nil =>
    intro s s' _ hrun
    rw [System.run_nil, Option.some.injEq] at hrun
    rw [hrun, List.length_nil]
    omega
  | cons result results ih =>
    intro s s' hs hrun
    rw [System.run, Option.bind_eq_some_iff] at hrun
    obtain ⟨t, hturn, hrest⟩ := hrun
    have ht := hs.turn hturn
    obtain ⟨-, hlt, rfl | ⟨-, rfl⟩ | ⟨n, hpos, hwant, -, rfl⟩⟩ := turn_cases hturn
    · obtain ⟨rfl, rfl⟩ := run_of_stopped (.inl (Option.some_ne_none _)) hrest
      exact Nat.le_of_eq (Nat.add_comm 1 _)
    · obtain ⟨rfl, rfl⟩ := run_of_stopped (.inl (Option.some_ne_none _)) hrest
      exact Nat.le_of_eq (Nat.add_comm 1 _)
    · have hfs := fileSize.toNat_lt
      have hcount : (s.received + UInt32.ofNat n).toNat = s.received.toNat + n := by
        rw [UInt32.toNat_add, UInt32.toNat_ofNat']
        omega
      have hmore := ih ht hrest
      rw [hcount] at hmore
      rw [List.length_cons]
      omega

/-- The receive loop on any stream and any results of `recv`: in each state the
file is the start of the stream that `received` counts, and once the loop is left
it is as much as was declared, unless the connection ended or failed.  The loop
takes at most one turn more than it takes bytes. -/
theorem receive_exact (fileSize : UInt32) (stream : Bytes) {results : List (Option Nat)}
    {s : Receiver} (h : (receiving fileSize stream).run (entered stream) results = some s) :
    Exact fileSize stream s ∧ (Stopped fileSize s → Collected fileSize stream s) ∧
      results.length ≤ min fileSize.toNat stream.length + 1 := by
  have hexact := exact_of_run h
  have hrun := length_le_of_run (exact_entered fileSize stream) h
  have hle := UInt32.le_iff_toNat_le.mp hexact.received_le
  have hlen := hexact.length_eq
  rw [hexact.file_eq, List.length_take] at hlen
  refine ⟨hexact, hexact.collected, ?_⟩
  change results.length + 0 ≤ _ at hrun
  omega

/-- Five bytes come in two pieces where four were declared. -/
theorem receive_four_of_five :
    (receiving 4 [1, 2, 3, 4, 5]).run (entered [1, 2, 3, 4, 5]) [some 3, some 9] =
        some { received := 4, file := [1, 2, 3, 4], left := [5], broken := none } ∧
      Collected 4 [1, 2, 3, 4, 5]
        { received := 4, file := [1, 2, 3, 4], left := [5], broken := none } := by
  have hrun : (receiving 4 [1, 2, 3, 4, 5]).run (entered [1, 2, 3, 4, 5]) [some 3, some 9] =
      some { received := 4, file := [1, 2, 3, 4], left := [5], broken := none } := by
    decide +kernel
  obtain ⟨-, hcollected, -⟩ := receive_exact 4 [1, 2, 3, 4, 5] hrun
  exact ⟨hrun, hcollected (by decide)⟩

/-! ## The loop as a whole -/

/-- `recvBlocks` is a run of turns in which no call of `recv` fails. -/
theorem recvBlocks_run (cuts : Nat → Nat) (fileSize : UInt32) (whole : Bytes) (i : Nat)
    (received : UInt32) (file stream : Bytes) : ∃ results s', none ∉ results ∧
      (receiving fileSize whole).run
          { received := received, file := file, left := stream, broken := none } results = some s' ∧
        Stopped fileSize s' ∧
          recvBlocks cuts fileSize i received file stream = (s'.file, s'.received) := by
  fun_induction recvBlocks cuts fileSize i received file stream with
  | case1 i received file stream hlt r hnil =>
    have hgoes : ¬ Stopped fileSize
        { received := received, file := file, left := stream, broken := none } := by
      rw [Stopped, not_or, not_not, not_not]
      exact ⟨rfl, hlt⟩
    have hturn := (turn_some hgoes (cuts i)).trans (if_pos hnil)
    exact ⟨[some (cuts i)], _, by simp, System.run_singleton hturn,
      .inl (Option.some_ne_none _), rfl⟩
  | case2 i received file stream hlt r hne ih =>
    have hgoes : ¬ Stopped fileSize
        { received := received, file := file, left := stream, broken := none } := by
      rw [Stopped, not_or, not_not, not_not]
      exact ⟨rfl, hlt⟩
    have hturn := (turn_some hgoes (cuts i)).trans (if_neg hne)
    obtain ⟨results, s', hnone, hrun, hstopped, heq⟩ := ih
    exact ⟨some (cuts i) :: results, s', by simpa using hnone,
      (System.run_cons hturn results).trans hrun, hstopped, heq⟩
  | case3 i received file stream hge =>
    exact ⟨[], _, List.not_mem_nil, rfl, .inr hge, rfl⟩

end Sharing
end NetLab
