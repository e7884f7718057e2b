import NetLab.Library.CString
import NetLab.Library.Transition

/-!
# The current directory of the scandir program

The program keeps the path of its directory in `root` and edits the text in
place: a folder name is appended behind a slash, and `..` cuts the text at its
last slash.
-/

namespace NetLab
namespace Scandir

open CString Transition

/-- `sizeof(root)` and `sizeof(test_path)`. -/
def rootSize : Nat := 1024

/-- The width in `scanf("%255s", input)`. -/
def inputWidth : Nat := 255

def slash : UInt8 := 47

/-- The loop of `update_root_up` for `i` from `n - 1` down. -/
def cutLoop (root : Bytes) : Nat → Bytes
  | 0 => root
  | i + 1 =>
    if root[i]? = some slash then if i = 0 then root.take 1 else root.take i
    else cutLoop root i

def updateRootUp (root : Bytes) : Bytes :=
  if root.length ≤ 1 then root else cutLoop root root.length

/-- `update_root_down`, on a `root` that is not empty. -/
def updateRootDown (root folder : Bytes) : Bytes :=
  (if root.getLast? = some slash then root else root ++ [slash]) ++ folder

/-- `snprintf(test_path, sizeof(test_path), "%s/%s", root, input)`. -/
def testPath (root input : Bytes) : Bytes := (root ++ slash :: input).take (rootSize - 1)

structure State where
  root : Bytes
  stdin : Bytes
  deriving DecidableEq, Repr

/-- How a turn of the command loop ends.  `overflow` is a `strcat` past the end
of `root`. -/
inductive Outcome
  | next (s : State)
  | quit
  | overflow
  deriving DecidableEq, Repr

/-- One turn.  `isDirectory` is what `stat` says of paths in this turn. -/
def turn (s : State) (isDirectory : Bytes → Bool) : Outcome :=
  match scanWord inputWidth s.stdin with
  | none => .quit
  | some scanned =>
    let input := cstr scanned.1
    if input = ascii "q" then .quit
    else if input = ascii ".." then
      .next { root := updateRootUp s.root, stdin := scanned.2 }
    else if isDirectory (testPath s.root input) then
      let root := updateRootDown s.root input
      if root.length < rootSize then .next { root := root, stdin := scanned.2 } else .overflow
    else .next { s with stdin := scanned.2 }

def State.start (stdin : Bytes) : State := { root := ascii "/mnt/c", stdin := stdin }

/-- The command loop.  Its only other input is the state of the file system, in
each turn. -/
def navigation : System State (Bytes → Bool) where
  init s := ∃ stdin, s = .start stdin
  step s isDirectory :=
    match turn s isDirectory with
    | .next s' => some s'
    | .quit => none
    | .overflow => none

/-! ## The stack of folders -/

/-- `/` and the components, joined by `/`. -/
def pathOf (stack : List Bytes) : Bytes := slash :: List.intercalate [slash] stack

/-- Entering a folder pushes its name, and `..` pops one. -/
def move (stack : List Bytes) (input : Bytes) : List Bytes :=
  if input = ascii ".." then stack.dropLast else stack ++ [input]

/-- A single path component. -/
structure Component (name : Bytes) : Prop where
  nonempty : name ≠ []
  slash : slash ∉ name
  dot : name ≠ ascii "."
  dotdot : name ≠ ascii ".."

theorem pathOf_nil : pathOf [] = [slash] := rfl

theorem pathOf_eq_flatMap {stack : List Bytes} (h : stack ≠ []) :
    pathOf stack = stack.flatMap fun name => slash :: name := by
  induction stack with
  | nil => exact absurd rfl h
  | cons name stack ih =>
    cases stack with
    | nil => simp [pathOf, List.intercalate]
    | cons name' stack =>
      rw [List.flatMap_cons, ← ih (List.cons_ne_nil _ _), pathOf, pathOf,
        List.intercalate_cons_cons]
      simp

theorem pathOf_concat (stack : List Bytes) (name : Bytes) :
    pathOf (stack ++ [name]) = (if stack = [] then [] else pathOf stack) ++ slash :: name := by
  by_cases h : stack = []
  · rw [if_pos h, h, List.nil_append, pathOf_eq_flatMap (List.cons_ne_nil _ _)]
    simp
  · rw [if_neg h, pathOf_eq_flatMap h, pathOf_eq_flatMap (by simp), List.flatMap_append]
    simp

theorem pathOf_ne_nil (stack : List Bytes) : pathOf stack ≠ [] := List.cons_ne_nil _ _

/-- A path ends in a slash only when it is the root. -/
theorem getLast?_pathOf {stack : List Bytes} (h : ∀ name ∈ stack, Component name) :
    (pathOf stack).getLast? = some slash ↔ stack = [] := by
  rcases List.eq_nil_or_concat stack with rfl | ⟨init, name, rfl⟩
  · exact iff_of_true rfl rfl
  · rw [List.concat_eq_append] at h ⊢
    have hname := h name (by simp)
    refine iff_of_false (fun hlast => ?_) (by simp)
    obtain ⟨b, hb⟩ := Option.isSome_iff_exists.mp
      (List.getLast?_isSome.mpr hname.nonempty)
    rw [pathOf_concat, List.getLast?_append, List.getLast?_cons, hb] at hlast
    have hbs : b = slash := by simpa using hlast
    exact hname.slash (hbs ▸ List.mem_of_getLast? hb)

theorem updateRootDown_pathOf {stack : List Bytes} (h : ∀ name ∈ stack, Component name)
    (folder : Bytes) : updateRootDown (pathOf stack) folder = pathOf (stack ++ [folder]) := by
  rw [updateRootDown, pathOf_concat]
  by_cases hnil : stack = []
  · rw [if_pos ((getLast?_pathOf h).mpr hnil), if_pos hnil, hnil]
    rfl
  · rw [if_neg (mt (getLast?_pathOf h).mp hnil), if_neg hnil, List.append_assoc]
    rfl

/-- The loop passes over a last component and cuts before it. -/
theorem cutLoop_eq (base : Bytes) {name : Bytes} (h : slash ∉ name) {j : Nat}
    (hj : j ≤ name.length) :
    cutLoop (base ++ slash :: name) (base.length + 1 + j) =
      if base = [] then [slash] else base := by
  induction j with
  | zero =>
    have hat : (base ++ slash :: name)[base.length]? = some slash := by
      rw [List.getElem?_append_right (Nat.le_refl _), Nat.sub_self]
      rfl
    rw [Nat.add_zero, cutLoop, if_pos hat]
    by_cases hbase : base = []
    · subst hbase
      rfl
    · have hlen : base.length ≠ 0 := fun h => hbase (List.length_eq_zero_iff.mp h)
      rw [if_neg hlen, if_neg hbase, List.take_left']
      rfl
  | succ j ih =>
    have hat : (base ++ slash :: name)[base.length + 1 + j]? ≠ some slash := by
      rw [List.getElem?_append_right (by omega)]
      have hsub : base.length + 1 + j - base.length = j + 1 := by omega
      rw [hsub, List.getElem?_cons_succ]
      exact fun hmem => h (List.mem_of_getElem? hmem)
    rw [← Nat.add_assoc, cutLoop, if_neg hat]
    exact ih (by omega)

/-- Cutting at the last slash leaves the folder entered last. -/
theorem updateRootUp_pathOf {stack : List Bytes} (h : ∀ name ∈ stack, Component name) :
    updateRootUp (pathOf stack) = pathOf stack.dropLast := by
  rcases List.eq_nil_or_concat stack with rfl | ⟨init, name, rfl⟩
  · rfl
  · rw [List.concat_eq_append] at h ⊢
    have hname := h name (by simp)
    have hlen : 0 < name.length := List.length_pos_of_ne_nil hname.nonempty
    rw [List.dropLast_concat, pathOf_concat, updateRootUp, if_neg (by simp; omega)]
    have hcut := cutLoop_eq (if init = [] then [] else pathOf init) hname.slash
      (Nat.le_refl name.length)
    rw [List.length_append, List.length_cons, ← Nat.add_assoc,
      Nat.add_right_comm, hcut]
    by_cases hinit : init = []
    · rw [if_pos hinit, if_pos rfl, hinit]
      rfl
    · rw [if_neg hinit, if_neg (pathOf_ne_nil init)]

/-- Two slashes behind a text without one stand in what follows it. -/
theorem doubled_of_append {name rest : Bytes} (h : slash ∉ name)
    (hin : [slash, slash] <:+: name ++ rest) : [slash, slash] <:+: rest := by
  induction name with
  | nil => exact hin
  | cons b name ih =>
    rw [List.mem_cons, not_or] at h
    rw [List.cons_append, List.infix_cons_iff] at hin
    rcases hin with hpre | hin
    · exact absurd (List.cons_prefix_cons.mp hpre).1 h.1
    · exact ih h.2 hin

theorem not_doubled_flatMap {stack : List Bytes} (h : ∀ name ∈ stack, Component name) :
    ¬ [slash, slash] <:+: stack.flatMap fun name => slash :: name := by
  induction stack with
  | nil => simp
  | cons name stack ih =>
    obtain ⟨hname, hstack⟩ := List.forall_mem_cons.mp h
    intro hin
    rw [List.flatMap_cons, List.cons_append, List.infix_cons_iff] at hin
    rcases hin with hpre | hin
    · obtain ⟨b, rest, hb⟩ := List.exists_cons_of_ne_nil hname.nonempty
      rw [hb, List.cons_append, List.cons_prefix_cons, List.cons_prefix_cons] at hpre
      exact hname.slash (hb ▸ hpre.2.1 ▸ List.mem_cons_self)
    · exact ih hstack (doubled_of_append hname.slash hin)

/-- No component of a path is empty. -/
theorem not_doubled_pathOf {stack : List Bytes} (h : ∀ name ∈ stack, Component name) :
    ¬ [slash, slash] <:+: pathOf stack := by
  by_cases hnil : stack = []
  · rw [hnil]
    decide
  · rw [pathOf_eq_flatMap hnil]
    exact not_doubled_flatMap h

/-! ## Runs of the command loop -/

/-- What the user enters in a turn, and what `stat` says of paths then. -/
structure Visit where
  input : Bytes
  isDirectory : Bytes → Bool

/-- What the user types: each input and the newline behind it. -/
def typed (visits : List Visit) : Bytes := visits.flatMap fun v => v.input ++ [10]

def startStack : List Bytes := [ascii "mnt", ascii "c"]

def stackAfter (visits : List Visit) : List Bytes :=
  visits.foldl (fun stack v => move stack v.input) startStack

/-- The text of `root` after the inputs, as long as the program has not ended. -/
def rootAfter (visits : List Visit) : Option Bytes :=
  (navigation.run (.start (typed visits)) (visits.map Visit.isDirectory)).map State.root

/-- The input names an existing folder: a single path component without blanks
that leads to a path the program can hold. -/
structure Enters (stack : List Bytes) (v : Visit) : Prop where
  component : Component v.input
  word : IsWord v.input
  nul : 0 ∉ v.input
  existing : v.isDirectory (pathOf stack ++ slash :: v.input) = true
  short : (pathOf (stack ++ [v.input])).length < rootSize

/-- From `stack` on, each input is `..` or the name of an existing folder that
meets `ok`. -/
def Visits (ok : Bytes → Prop) : List Bytes → List Visit → Prop
  | _, [] => True
  | stack, v :: visits =>
    (v.input = ascii ".." ∨ Enters stack v ∧ ok v.input) ∧ Visits ok (move stack v.input) visits

/-- A name that is not the command to quit and is read as one input. -/
def Enterable (name : Bytes) : Prop := name ≠ ascii "q" ∧ name.length ≤ inputWidth

theorem typed_cons (v : Visit) (visits : List Visit) :
    typed (v :: visits) = v.input ++ 10 :: typed visits := by
  rw [typed, List.flatMap_cons, List.append_assoc]
  rfl

theorem scanWord_typed {v : Visit} {visits : List Visit} {stdin : Bytes}
    (hstdin : stdin = typed (v :: visits) ∨ stdin = 10 :: typed (v :: visits))
    (hne : v.input ≠ []) (hword : IsWord v.input) (hlen : v.input.length ≤ inputWidth) :
    scanWord inputWidth stdin = some (v.input, 10 :: typed visits) := by
  have hread : scanWord inputWidth (typed (v :: visits)) =
      some (v.input, 10 :: typed visits) := by
    rw [typed_cons]
    refine scanWord_word hne hword hlen fun c hc => ?_
    cases hc
    rfl
  rcases hstdin with rfl | rfl
  · exact hread
  · rw [scanWord_cons_space (by decide)]
    exact hread

theorem testPath_eq {stack : List Bytes} {v : Visit} (h : Enters stack v)
    (hlen : v.input.length ≤ inputWidth) :
    testPath (pathOf stack) v.input = pathOf stack ++ slash :: v.input := by
  have hshort := h.short
  have hwidth : inputWidth = 255 := rfl
  have hsize : rootSize = 1024 := rfl
  rw [testPath]
  refine List.take_of_length_le ?_
  rw [pathOf_concat] at hshort
  by_cases hnil : stack = []
  · rw [hnil, pathOf_nil]
    simp only [List.length_append, List.length_cons, List.length_nil]
    omega
  · rw [if_neg hnil] at hshort
    omega

/-- One turn moves on the stack. -/
theorem step_visit {stack : List Bytes} (hstack : ∀ name ∈ stack, Component name) {v : Visit}
    {visits : List Visit} {s : State} (hroot : s.root = pathOf stack)
    (hstdin : s.stdin = typed (v :: visits) ∨ s.stdin = 10 :: typed (v :: visits))
    (hv : v.input = ascii ".." ∨ Enters stack v ∧ Enterable v.input) :
    navigation.step s v.isDirectory =
      some { root := pathOf (move stack v.input), stdin := 10 :: typed visits } := by
  show (match turn s v.isDirectory with
    | .next s' => some s'
    | .quit => none
    | .overflow => none) = _
  rcases hv with hup | ⟨henters, hq, hlen⟩
  · have hscan := scanWord_typed hstdin (by rw [hup]; decide) (by rw [hup]; decide)
      (by rw [hup]; decide)
    have htext : cstr v.input = ascii ".." := by
      rw [hup]
      decide
    have hq : ascii ".." ≠ ascii "q" := by decide
    simp only [turn, hscan, htext, hq, if_false, if_true]
    rw [hroot, updateRootUp_pathOf hstack, move, if_pos hup]
  · have hscan := scanWord_typed hstdin henters.component.nonempty henters.word hlen
    have htest : v.isDirectory (testPath (pathOf stack) v.input) = true := by
      rw [testPath_eq henters hlen]
      exact henters.existing
    simp only [turn, hscan, cstr_eq_self henters.nul, hq, henters.component.dotdot, if_false,
      hroot, htest, if_true, updateRootDown_pathOf hstack, henters.short]
    rw [move, if_neg henters.component.dotdot]

theorem component_move {stack : List Bytes} (hstack : ∀ name ∈ stack, Component name) {v : Visit}
    (hv : v.input = ascii ".." ∨ Enters stack v) :
    ∀ name ∈ move stack v.input, Component name := by
  intro name hname
  rw [move] at hname
  by_cases hup : v.input = ascii ".."
  · rw [if_pos hup] at hname
    exact hstack name (List.mem_of_mem_dropLast hname)
  · rw [if_neg hup] at hname
    rcases List.mem_append.mp hname with hname | hname
    · exact hstack name hname
    · exact List.mem_singleton.mp hname ▸ (hv.resolve_left hup).component

/-- A run moves on the stack, input by input. -/
theorem run_visits {visits : List Visit} {stack : List Bytes}
    (hstack : ∀ name ∈ stack, Component name) {s : State} (hroot : s.root = pathOf stack)
    (hstdin : s.stdin = typed visits ∨ s.stdin = 10 :: typed visits)
    (h : Visits Enterable stack visits) :
    let stack' := visits.foldl (fun stack v => move stack v.input) stack
    (navigation.run s (visits.map Visit.isDirectory)).map State.root = some (pathOf stack') ∧
      ∀ name ∈ stack', Component name := by
  induction visits generalizing stack s with
  | nil => exact ⟨congrArg some hroot, hstack⟩
  | cons v visits ih =>
    obtain ⟨hv, hrest⟩ := h
    have hstep := step_visit hstack hroot hstdin hv
    rw [List.map_cons, System.run_cons hstep]
    exact ih (component_move hstack (hv.imp id And.left)) rfl (.inr rfl) hrest

theorem component_startStack : ∀ name ∈ startStack, Component name := by
  intro name hname
  rcases List.mem_pair.mp hname with rfl | rfl
  · exact ⟨by decide, by decide, by decide, by decide⟩
  · exact ⟨by decide, by decide, by decide, by decide⟩

/-- After any inputs `root` is the path of the stack. -/
theorem rootAfter_eq {visits : List Visit} (h : Visits Enterable startStack visits) :
    rootAfter visits = some (pathOf (stackAfter visits)) ∧
      ∀ name ∈ stackAfter visits, Component name :=
  run_visits component_startStack rfl (.inl rfl) h

theorem visits_concat {ok : Bytes → Prop} {visits : List Visit} {stack : List Bytes} {v : Visit}
    (h : Visits ok stack visits) (hv : v.input = ascii "..") : Visits ok stack (visits ++ [v]) := by
  induction visits generalizing stack with
  | nil => exact ⟨.inl hv, trivial⟩
  | cons w visits ih => exact ⟨h.1, ih h.2⟩

theorem stackAfter_concat (visits : List Visit) (v : Visit) :
    stackAfter (visits ++ [v]) = move (stackAfter visits) v.input := by
  rw [stackAfter, List.foldl_concat]
  rfl

/-- Navigation refines the stack of folders.  `root` is the path of the stack, so
it starts with a slash, ends in one only as the root and has no empty component,
and `..` undoes the entering of a folder. -/
def RefinesStack (ok : Bytes → Prop) (visits : List Visit) : Prop :=
  ∃ root, rootAfter visits = some root ∧ root = pathOf (stackAfter visits) ∧
    root.head? = some slash ∧ (root.getLast? = some slash → root = [slash]) ∧
    ¬ [slash, slash] <:+: root ∧
    ∀ v up : Visit, v.input ≠ ascii ".." → up.input = ascii ".." →
      Visits ok startStack (visits ++ [v]) → rootAfter (visits ++ [v] ++ [up]) = some root

theorem root_refines_stack {visits : List Visit} (h : Visits Enterable startStack visits) :
    RefinesStack Enterable visits := by
  obtain ⟨hroot, hstack⟩ := rootAfter_eq h
  refine ⟨_, hroot, rfl, rfl, fun hlast => ?_, not_doubled_pathOf hstack, ?_⟩
  · rw [(getLast?_pathOf hstack).mp hlast]
    rfl
  · intro v up hv hup hvisits
    rw [(rootAfter_eq (visits_concat hvisits hup)).1, stackAfter_concat, stackAfter_concat,
      move, if_pos hup, move, if_neg hv, List.dropLast_concat]

/-- An input where every path is a directory. -/
def everywhere (input : Bytes) : Visit := { input := input, isDirectory := fun _ => true }

theorem root_refines_stack_bin :
    RefinesStack Enterable
      [everywhere (ascii ".."), everywhere (ascii ".."), everywhere (ascii "bin")] := by
  have hbin : Component (ascii "bin") := ⟨by decide, by decide, by decide, by decide⟩
  have henters : Enters [] (everywhere (ascii "bin")) :=
    { component := hbin, word := by decide, nul := by decide, existing := rfl,
      short := by decide }
  exact root_refines_stack
    ⟨.inl rfl, .inl rfl, .inr ⟨henters, by decide, by decide⟩, trivial⟩

theorem enters_everywhere {name : Bytes} (hc : Component name) (hw : IsWord name)
    (h0 : 0 ∉ name) (hs : (pathOf (startStack ++ [name])).length < rootSize) :
    Enters startStack (everywhere name) :=
  { component := hc, word := hw, nul := h0, existing := rfl, short := hs }

/-- The name of a folder `q` quits the program, and a longer name than `scanf`
stores is read as two inputs. -/
theorem folder_not_entered :
    (¬ ∀ visits, Visits (fun _ => True) startStack visits →
      RefinesStack (fun _ => True) visits) ∧
    ¬ ∀ visits, Visits (fun name => name ≠ ascii "q") startStack visits →
      RefinesStack (fun name => name ≠ ascii "q") visits := by
  constructor
  · intro h
    have henters : Enters startStack (everywhere (ascii "q")) :=
      enters_everywhere ⟨by decide, by decide, by decide, by decide⟩ (by decide) (by decide)
        (by decide)
    obtain ⟨root, hroot, -⟩ := h [everywhere (ascii "q")] ⟨.inr ⟨henters, trivial⟩, trivial⟩
    have hquit : rootAfter [everywhere (ascii "q")] = none := rfl
    rw [hquit] at hroot
    cases hroot
  · intro h
    have hcut : (rootAfter [everywhere (List.replicate 256 97)]).map List.length = some 262 := by
      decide +kernel
    have henters : Enters startStack (everywhere (List.replicate 256 97)) :=
      enters_everywhere ⟨by decide, by decide +kernel, by decide, by decide⟩ (by decide +kernel)
        (by decide +kernel) (by decide +kernel)
    obtain ⟨root, hroot, hpath, -⟩ := h [everywhere (List.replicate 256 97)]
      ⟨.inr ⟨henters, by decide⟩, trivial⟩
    have hlen : (pathOf (stackAfter [everywhere (List.replicate 256 97)])).length = 263 := by
      decide +kernel
    rw [hroot, hpath, Option.map_some, hlen, Option.some.injEq] at hcut
    omega

end Scandir
end NetLab
