import NetLab.Scandir.Navigation

/-!
# The folder that is checked and the one that is entered

The check is made on a copy of the path that is cut to the size of its array.
The folder is entered by appending to `root`, which cuts nothing.
-/

namespace NetLab
namespace Scandir

open CString Transition

/-- The input, in a turn that calls `update_root_down` with it. -/
def entering (s : State) (isDirectory : Bytes → Bool) : Option Bytes :=
  match scanWord inputWidth s.stdin with
  | none => none
  | some scanned =>
    let input := cstr scanned.1
    if input = ascii "q" ∨ input = ascii ".." then none
    else if isDirectory (testPath s.root input) then some input else none

/-- A path with one slash for each run of them. -/
def collapse : Bytes → Bytes
  | [] => []
  | b :: path =>
    if b = slash ∧ path.head? = some slash then collapse path else b :: collapse path

/-- `update_root_down` looks at a byte of `root`, and the new `root` is the path that
was checked, up to doubled slashes, and fits its array. -/
def EntersChecked (s : State) (isDirectory : Bytes → Bool) : Prop :=
  ∀ input ∈ entering s isDirectory, s.root ≠ [] ∧
    collapse (updateRootDown s.root input) = collapse (testPath s.root input) ∧
      (updateRootDown s.root input).length < rootSize

/-- The path to check fits its array, or only a slash of it is cut off that does
not matter. -/
def Whole (root input : Bytes) : Prop :=
  root.length + 1 + input.length < rootSize ∨
    root.getLast? = some slash ∧ root.length + 1 + input.length = rootSize ∧
      (input = [] ∨ [slash, slash] <:+ root ++ input)

/-- A folder is entered only when its path was checked whole. -/
def ChecksWhole (s : State) (isDirectory : Bytes → Bool) : Prop :=
  ∀ input ∈ entering s isDirectory, Whole s.root input

instance (s : State) (isDirectory : Bytes → Bool) : Decidable (EntersChecked s isDirectory) :=
  inferInstanceAs (Decidable (∀ input ∈ entering s isDirectory, _))

/-! ## The turn -/

/-- The turn goes down to what it appends. -/
theorem turn_entering {s : State} {isDirectory : Bytes → Bool} {input : Bytes}
    (h : entering s isDirectory = some input) : ∃ stdin, turn s isDirectory =
      if (updateRootDown s.root input).length < rootSize then
        .next { root := updateRootDown s.root input, stdin := stdin }
      else .overflow := by
  rw [entering] at h
  split at h
  · cases h
  · rename_i scanned hscan
    dsimp only at h
    split at h
    · cases h
    · rename_i hname
      rw [not_or] at hname
      split at h
      · rename_i hdir
        obtain rfl := Option.some.inj h
        refine ⟨scanned.2, ?_⟩
        simp only [turn, hscan, hname.1, hname.2, hdir, if_false, if_true]
      · cases h

/-- Every other turn keeps `root` or goes up. -/
theorem turn_not_entering {s s' : State} {isDirectory : Bytes → Bool}
    (h : entering s isDirectory = none) (hturn : turn s isDirectory = .next s') :
    s'.root = s.root ∨ s'.root = updateRootUp s.root := by
  rw [entering] at h
  rw [turn] at hturn
  split at hturn
  · cases hturn
  · rename_i scanned hscan
    rw [hscan] at h
    dsimp only at h hturn
    split at hturn
    · cases hturn
    · rename_i hq
      split at hturn
      · rw [← Outcome.next.inj hturn]
        exact .inr rfl
      · rename_i hup
        rw [if_neg (not_or.mpr ⟨hq, hup⟩)] at h
        split at h
        · cases h
        · rename_i hdir
          rw [if_neg hdir] at hturn
          rw [← Outcome.next.inj hturn]
          exact .inl rfl

theorem cutLoop_ne_nil {root : Bytes} (h : root ≠ []) (n : Nat) : cutLoop root n ≠ [] := by
  induction n with
  | zero => exact h
  | succ i ih =>
    rw [cutLoop]
    have htake : ∀ k, k ≠ 0 → root.take k ≠ [] := by
      intro k hk hnil
      rcases List.take_eq_nil_iff.mp hnil with hzero | hroot
      · exact hk hzero
      · exact h hroot
    split
    · split
      · exact htake 1 (by decide)
      · rename_i hi
        exact htake i hi
    · exact ih

/-- `root` is never empty, so the byte before its NUL is one of its own. -/
theorem root_ne_nil {s : State} (h : navigation.Reachable s) : s.root ≠ [] := by
  refine System.Reachable.invariant (I := fun s => s.root ≠ []) ?_ ?_ h
  · rintro s ⟨stdin, rfl⟩
    show ascii "/mnt/c" ≠ []
    decide
  · intro s isDirectory s' hs hstep
    have hturn : turn s isDirectory = .next s' := by
      cases hturn : turn s isDirectory with
      | next t => simpa [navigation, hturn] using hstep
      | quit => simp [navigation, hturn] at hstep
      | overflow => simp [navigation, hturn] at hstep
    cases hentering : entering s isDirectory with
    | none =>
      rcases turn_not_entering hentering hturn with hroot | hroot
      · rw [hroot]
        exact hs
      · rw [hroot, updateRootUp]
        split
        · exact hs
        · exact cutLoop_ne_nil hs _
    | some input =>
      obtain ⟨stdin, hdown⟩ := turn_entering hentering
      rw [hturn] at hdown
      split at hdown
      · rw [Outcome.next.inj hdown]
        show updateRootDown s.root input ≠ []
        rw [updateRootDown]
        split
        · exact List.append_ne_nil_of_left_ne_nil hs _
        · exact List.append_ne_nil_of_left_ne_nil
            (List.append_ne_nil_of_left_ne_nil hs _) _
      · cases hdown

/-! ## Doubled slashes -/

theorem collapse_doubled (path rest : Bytes) :
    collapse (path ++ slash :: slash :: rest) = collapse (path ++ slash :: rest) := by
  induction path with
  | nil =>
    rw [List.nil_append, List.nil_append, collapse, if_pos ⟨rfl, rfl⟩]
  | cons b path ih =>
    have hhead : (path ++ slash :: slash :: rest).head? = (path ++ slash :: rest).head? := by
      cases path with
      | nil => rfl
      | cons c path => rfl
    rw [List.cons_append, List.cons_append, collapse, collapse, hhead, ih]

/-- A slash behind a slash adds nothing, every other byte does. -/
theorem collapse_concat (path : Bytes) (b : UInt8) :
    collapse (path ++ [b]) =
      if b = slash ∧ path.getLast? = some slash then collapse path else collapse path ++ [b] := by
  induction path with
  | nil =>
    have hnone : ¬ (b = slash ∧ ([] : Bytes).getLast? = some slash) := fun h => nomatch h.2
    have hnext : ¬ (b = slash ∧ ([] : Bytes).head? = some slash) := fun h => nomatch h.2
    have hsingle : collapse [b] = [b] := if_neg hnext
    rw [if_neg hnone, List.nil_append, hsingle]
    rfl
  | cons a path ih =>
    cases path with
    | nil =>
      by_cases hboth : b = slash ∧ a = slash
      · obtain ⟨rfl, rfl⟩ := hboth
        rfl
      · have hlast : ¬ (b = slash ∧ [a].getLast? = some slash) := by
          rintro ⟨hb, ha⟩
          exact hboth ⟨hb, Option.some.inj ha⟩
        have hnext : ¬ (a = slash ∧ ([] ++ [b]).head? = some slash) := by
          rintro ⟨ha, hb⟩
          exact hboth ⟨Option.some.inj hb, ha⟩
        rw [if_neg hlast, List.cons_append, collapse, if_neg hnext]
        simp [collapse]
    | cons c path =>
      have hcons : ∀ t, collapse (a :: t) =
          if a = slash ∧ t.head? = some slash then collapse t else a :: collapse t := fun _ => rfl
      have hhead : (c :: path ++ [b]).head? = (c :: path).head? := rfl
      have hlast : (a :: c :: path).getLast? = (c :: path).getLast? := List.getLast?_cons_cons
      rw [List.cons_append, hcons, hhead, ih, hlast, hcons]
      by_cases hskip : a = slash ∧ (c :: path).head? = some slash
      · rw [if_pos hskip, if_pos hskip]
      · rw [if_neg hskip, if_neg hskip]
        split
        · rfl
        · rfl

theorem collapse_concat_eq_iff (path : Bytes) (b : UInt8) :
    collapse (path ++ [b]) = collapse path ↔ b = slash ∧ path.getLast? = some slash := by
  rw [collapse_concat]
  split
  · rename_i h
    exact iff_of_true rfl h
  · rename_i h
    refine iff_of_false (fun heq => ?_) h
    have hlen := congrArg List.length heq
    rw [List.length_append, List.length_singleton] at hlen
    omega

theorem doubled_suffix_iff (path : Bytes) (b : UInt8) :
    [slash, slash] <:+ path ++ [b] ↔ b = slash ∧ path.getLast? = some slash := by
  have hpair : [slash, slash] = [slash] ++ [slash] := rfl
  constructor
  · rintro ⟨start, h⟩
    rw [hpair, ← List.append_assoc] at h
    obtain ⟨hpath, hb⟩ := List.append_inj' h rfl
    rw [← hpath, List.getLast?_concat]
    exact ⟨(List.singleton_inj.mp hb).symm, rfl⟩
  · rintro ⟨rfl, hlast⟩
    obtain ⟨start, rfl⟩ := List.getLast?_eq_some_iff.mp hlast
    exact ⟨start, by rw [hpair, List.append_assoc]⟩

/-! ## One step -/

/-- A folder is entered as it was checked exactly when its path was checked
whole. -/
theorem entered_iff (root input : Bytes) :
    (collapse (updateRootDown root input) = collapse (testPath root input) ∧
        (updateRootDown root input).length < rootSize) ↔ Whole root input := by
  have hsize : rootSize = 1024 := rfl
  have hlen : (root ++ slash :: input).length = root.length + 1 + input.length := by
    rw [List.length_append, List.length_cons]
    omega
  have hwhole : root.length + 1 + input.length < rootSize →
      testPath root input = root ++ slash :: input := by
    intro h
    rw [testPath]
    exact List.take_of_length_le (by omega)
  rw [Whole]
  by_cases hlast : root.getLast? = some slash
  · have hdown : updateRootDown root input = root ++ input := by
      rw [updateRootDown, if_pos hlast]
    obtain ⟨start, hroot⟩ := List.getLast?_eq_some_iff.mp hlast
    have hdoubled : ∀ rest, collapse (root ++ slash :: rest) = collapse (root ++ rest) := by
      intro rest
      rw [hroot, List.append_assoc, List.append_assoc]
      exact collapse_doubled start rest
    rw [hdown, List.length_append]
    by_cases hfits : root.length + 1 + input.length < rootSize
    · rw [hwhole hfits, hdoubled]
      exact iff_of_true ⟨rfl, by omega⟩ (.inl hfits)
    · rw [or_iff_right hfits, and_iff_right hlast]
      by_cases hfull : root.length + 1 + input.length = rootSize
      · rw [and_iff_right hfull, and_iff_left (by omega)]
        rcases List.eq_nil_or_concat' input with rfl | ⟨start', b, rfl⟩
        · -- Only the slash that the copy added is cut off.
          have htest : testPath root [] = root := by
            have hcut : rootSize - 1 = root.length := by
              rw [List.length_nil] at hfull
              omega
            rw [testPath, hcut, List.take_left]
          rw [htest, List.append_nil]
          exact iff_of_true rfl (.inl rfl)
        · -- The last byte of the input is cut off.
          have htest : testPath root (start' ++ [b]) = root ++ slash :: start' := by
            have hcut : rootSize - 1 = (root ++ slash :: start').length := by
              rw [List.length_append, List.length_singleton] at hfull
              rw [List.length_append, List.length_cons]
              omega
            rw [testPath, hcut, ← List.cons_append, ← List.append_assoc, List.take_left]
          rw [htest, hdoubled, ← List.append_assoc, collapse_concat_eq_iff, doubled_suffix_iff,
            or_iff_right]
          simp
      · refine iff_of_false (fun h => ?_) fun h => hfull h.1
        have hlong := h.2
        omega
  · have hdown : updateRootDown root input = root ++ slash :: input := by
      rw [updateRootDown, if_neg hlast, List.append_assoc]
      rfl
    rw [hdown, hlen, or_iff_left fun h => hlast h.1]
    constructor
    · exact fun h => h.2
    · intro h
      rw [hwhole h]
      exact ⟨rfl, h⟩

/-- In every run, the folders are entered as they were checked at each step
exactly when each of them was checked whole. -/
theorem enters_checked_iff (stdin : Bytes) (fileSystems : List (Bytes → Bool)) :
    navigation.Along EntersChecked (.start stdin) fileSystems ↔
      navigation.Along ChecksWhole (.start stdin) fileSystems := by
  have hstart : navigation.Reachable (.start stdin) := .init ⟨stdin, rfl⟩
  refine System.along_congr (fun s isDirectory hs => ?_) hstart fileSystems
  refine forall₂_congr fun input _ => ?_
  rw [and_iff_right (root_ne_nil hs)]
  exact entered_iff s.root input

/-- Four inputs of 255 bytes. -/
def fourLong : Bytes := (List.replicate 4 (List.replicate 255 97 ++ [10])).flatten

/-- The fourth folder is checked as a path of 1023 bytes and entered as one of
1030. -/
theorem fourth_folder_overflows :
    ¬ ∀ stdin fileSystems, navigation.Along EntersChecked (.start stdin) fileSystems := by
  intro h
  have hfourth : ¬ navigation.Along EntersChecked (.start fourLong)
      (List.replicate 4 fun _ => true) := by
    decide +kernel
  exact hfourth (h fourLong _)

end Scandir
end NetLab
