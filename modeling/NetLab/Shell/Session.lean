import NetLab.Library.CString

/-!
# A session of the remote shell

The server takes what one call of `recv` returns for one command.  A client
sends lines, and the network may cut the stream of lines anywhere.
-/

namespace NetLab
namespace Shell

open CString

/-- `sizeof(buffer)` of the session loop. -/
def bufferSize : Nat := 4096

def exitCommand : Bytes := ascii "exit"

/-- What the server does about a command. -/
inductive Decision
  | run (command : Bytes)
  | refuse (command : Bytes)
  | close
  deriving DecidableEq, Repr

/-- `command.find(...) != npos` for one of the two texts. -/
def dangerous (command : Bytes) : Bool :=
  (find (ascii "rm -rf") command).isSome || (find (ascii ":()\x7b :|:& \x7d;:") command).isSome

/-- The branches of the loop. -/
def respond (command : Bytes) : Decision :=
  if command = exitCommand then .close
  else if dangerous command then .refuse command
  else .run command

/-- `std::string command(buffer)`, with the newline at the end of what was
received overwritten. -/
def commandOf (received : Bytes) : Bytes :=
  cstr (if received.getLast? = some 10 then received.dropLast else received)

/-- The session loop on the results of `recv`, up to the end of the
connection. -/
def session : List Bytes → List Decision
  | [] => []
  | received :: rest =>
    if commandOf received = exitCommand then [.close]
    else respond (commandOf received) :: session rest

/-! ## Lines and the ways to cut them -/

/-- A line that a client sends, without its newline. -/
structure Line where
  text : Bytes
  newline : 10 ∉ text
  short : text.length < bufferSize - 1

/-- The bytes of a list of lines. -/
def stream (lines : List Bytes) : Bytes := lines.flatMap fun line => line ++ [10]

/-- A way `recv` may split a stream of bytes. -/
structure Segmentation (bytes : Bytes) where
  chunks : List Bytes
  nonempty : ∀ c ∈ chunks, c ≠ []
  bounded : ∀ c ∈ chunks, c.length ≤ bufferSize - 1
  flatten : chunks.flatten = bytes

/-- One decision for each line, in order, up to the first `exit`. -/
def lineDecisions (lines : List Bytes) : List Decision :=
  (lines.takeWhile (· ≠ exitCommand)).map respond ++
    if exitCommand ∈ lines then [.close] else []

/-- The chunks are the lines with their newlines, as far as decisions are taken.
The chunk of `exit` may lack its newline. -/
def Aligned : List Bytes → List Bytes → Prop
  | [], _ => True
  | line :: lines, chunks =>
    if line = exitCommand then
      ∃ rest, chunks = exitCommand :: rest ∨ chunks = (exitCommand ++ [10]) :: rest
    else 0 ∉ line ∧ ∃ rest, chunks = (line ++ [10]) :: rest ∧ Aligned lines rest

/-! ## Decisions tell commands apart -/

theorem respond_exit : respond exitCommand = .close := rfl

theorem respond_injective : Function.Injective respond := by
  have hclose : ∀ c, respond c = .close ↔ c = exitCommand := by
    intro c
    rw [respond]
    by_cases h : c = exitCommand
    · simp [h]
    · rw [if_neg h]
      refine iff_of_false ?_ h
      split <;> exact Decision.noConfusion
  intro a b hab
  by_cases ha : a = exitCommand
  · exact ha.trans ((hclose b).mp (hab ▸ (hclose a).mpr ha)).symm
  · have hb : b ≠ exitCommand := fun h => ha ((hclose a).mp (hab.trans ((hclose b).mpr h)))
    rw [respond, respond, if_neg ha, if_neg hb] at hab
    split at hab <;> split at hab <;> cases hab <;> rfl

theorem lineDecisions_exit (lines : List Bytes) :
    lineDecisions (exitCommand :: lines) = [.close] := by
  rw [lineDecisions, if_pos List.mem_cons_self, List.takeWhile_cons_of_neg (by simp)]
  rfl

theorem lineDecisions_cons {line : Bytes} (h : line ≠ exitCommand) (lines : List Bytes) :
    lineDecisions (line :: lines) = respond line :: lineDecisions lines := by
  have hmem : exitCommand ∈ line :: lines ↔ exitCommand ∈ lines := by
    rw [List.mem_cons]
    exact or_iff_right (Ne.symm h)
  rw [lineDecisions, lineDecisions, List.takeWhile_cons_of_pos (by simpa using h)]
  simp only [hmem]
  rfl

theorem session_exit {received : Bytes} (h : commandOf received = exitCommand)
    (rest : List Bytes) : session (received :: rest) = [.close] := by
  rw [session, if_pos h]

theorem session_cons {received : Bytes} (h : commandOf received ≠ exitCommand)
    (rest : List Bytes) :
    session (received :: rest) = respond (commandOf received) :: session rest := by
  rw [session, if_neg h]

/-- Equal decisions come from equal commands, and the rest agrees when the
session goes on. -/
theorem session_cons_eq {received line : Bytes} {rest lines : List Bytes} :
    session (received :: rest) = lineDecisions (line :: lines) ↔
      commandOf received = line ∧
        (line ≠ exitCommand → session rest = lineDecisions lines) := by
  by_cases hline : line = exitCommand
  · subst hline
    rw [lineDecisions_exit]
    by_cases hcmd : commandOf received = exitCommand
    · simp [session_exit hcmd, hcmd]
    · rw [session_cons hcmd]
      refine iff_of_false (fun h => hcmd ?_) fun h => hcmd h.1
      exact respond_injective (List.cons.inj h).1
  · rw [lineDecisions_cons hline]
    by_cases hcmd : commandOf received = exitCommand
    · rw [session_exit hcmd, hcmd]
      refine iff_of_false (fun h => hline ?_) fun h => hline h.1.symm
      exact (respond_injective (respond_exit.trans (List.cons.inj h).1)).symm
    · rw [session_cons hcmd, List.cons.injEq, respond_injective.eq_iff]
      exact and_congr_right fun _ => ⟨fun h _ => h, fun h => h hline⟩

/-! ## Which chunk gives which command -/

theorem zero_notMem_commandOf (received : Bytes) : 0 ∉ commandOf received :=
  zero_notMem_cstr _

theorem commandOf_newline {line : Bytes} (h : 0 ∉ line) : commandOf (line ++ [10]) = line := by
  rw [commandOf, if_pos (List.getLast?_concat ..), List.dropLast_concat, cstr_eq_self h]

/-- Without a newline at the end, the text is what was received up to a NUL. -/
theorem commandOf_eq_cstr {received : Bytes} (h : received.getLast? ≠ some 10) :
    commandOf received = cstr received := by
  rw [commandOf, if_neg h]

theorem getLast?_ne_newline {text : Bytes} (h : 10 ∉ text) : text.getLast? ≠ some 10 :=
  fun hlast => h (List.mem_of_getLast? hlast)

/-- A newline with something behind it stays in the command. -/
theorem commandOf_inner {line more : Bytes} (h : 0 ∉ line) (hmore : more ≠ []) :
    line ++ [10] <+: commandOf (line ++ 10 :: more) := by
  have hcstr : ∀ x, cstr (line ++ 10 :: x) = line ++ 10 :: cstr x := by
    intro x
    rw [cstr, List.takeWhile_append_of_pos, List.takeWhile_cons_of_pos (by decide)]
    · rfl
    · intro b hb
      exact decide_eq_true fun hzero => h (hzero ▸ hb)
  have hlast : (line ++ 10 :: more).dropLast = line ++ 10 :: more.dropLast := by
    rw [List.dropLast_append_of_ne_nil (List.cons_ne_nil _ _), List.dropLast_cons_of_ne_nil hmore]
  rw [commandOf, hlast]
  split
  · rw [hcstr]
    exact ⟨cstr more.dropLast, by simp⟩
  · rw [hcstr]
    exact ⟨cstr more, by simp⟩

/-- The chunks at the start of a line that give this line as the command. -/
theorem commandOf_eq_iff {chunk line more tail : Bytes} (hline : 10 ∉ line)
    (h : chunk ++ more = line ++ 10 :: tail) :
    commandOf chunk = line ↔ 0 ∉ line ∧ (chunk = line ∨ chunk = line ++ [10]) := by
  constructor
  · intro hcmd
    have hzero : 0 ∉ line := hcmd ▸ zero_notMem_commandOf chunk
    refine ⟨hzero, ?_⟩
    rcases List.append_eq_append_iff.mp h with ⟨a, ha, -⟩ | ⟨a, ha, htail⟩
    · left
      have hnewline : 10 ∉ chunk := fun hmem => hline (ha ▸ List.mem_append_left a hmem)
      rw [commandOf_eq_cstr (getLast?_ne_newline hnewline)] at hcmd
      have hlen : chunk.length ≤ (cstr chunk).length := by
        rw [hcmd, ha, List.length_append]
        omega
      exact (cstr_eq_of_length_le hlen).symm.trans hcmd
    · cases a with
      | nil =>
        left
        rw [ha, List.append_nil]
      | cons b a =>
        right
        obtain ⟨rfl, -⟩ := List.cons.inj htail
        by_cases hnil : a = []
        · rw [ha, hnil]
        · have hle := (commandOf_inner hzero hnil).length_le
          rw [← ha, hcmd, List.length_append, List.length_singleton] at hle
          omega
  · rintro ⟨hzero, rfl | rfl⟩
    · rw [commandOf_eq_cstr (getLast?_ne_newline hline), cstr_eq_self hzero]
    · exact commandOf_newline hzero

/-! ## The session and the lines -/

theorem stream_cons (line : Bytes) (lines : List Bytes) :
    stream (line :: lines) = line ++ 10 :: stream lines := by
  rw [stream, List.flatMap_cons, List.append_assoc]
  rfl

/-- A session that is one newline behind never catches up. -/
theorem session_behind {lines chunks : List Bytes} (hlines : ∀ l ∈ lines, 10 ∉ l)
    (hne : ∀ c ∈ chunks, c ≠ []) (h : chunks.flatten = 10 :: stream lines) :
    session chunks ≠ lineDecisions lines := by
  induction lines generalizing chunks with
  | nil =>
    cases chunks with
    | nil => cases h
    | cons c cs =>
      by_cases hcmd : commandOf c = exitCommand
      · rw [session_exit hcmd]
        exact List.cons_ne_nil _ _
      · rw [session_cons hcmd]
        exact List.cons_ne_nil _ _
  | cons line lines ih =>
    obtain ⟨hline, hlines⟩ := List.forall_mem_cons.mp hlines
    cases chunks with
    | nil => cases h
    | cons c cs =>
      intro hsession
      obtain ⟨hcmd, hrest⟩ := session_cons_eq.mp hsession
      obtain ⟨hc, hcs⟩ := List.forall_mem_cons.mp hne
      obtain ⟨b, c, rfl⟩ := List.exists_cons_of_ne_nil hc
      rw [List.flatten_cons, List.cons_append, List.cons.injEq] at h
      obtain ⟨rfl, hflat⟩ := h
      by_cases hnil : c = []
      · subst hnil
        -- The newline alone is the empty command, which only an empty line gives.
        have hempty : line = [] := hcmd.symm.trans (commandOf_newline List.not_mem_nil)
        rw [hempty] at hflat hrest
        rw [List.nil_append, stream_cons] at hflat
        exact ih hlines hcs hflat (hrest (by decide))
      · have hinner := commandOf_inner List.not_mem_nil hnil
        rw [List.nil_append, List.nil_append, hcmd] at hinner
        exact hline (hinner.subset List.mem_cons_self)

/-- The decisions are those for the lines when the chunks are the lines. -/
theorem session_eq_iff {lines chunks : List Bytes} (hlines : ∀ l ∈ lines, 10 ∉ l)
    (hne : ∀ c ∈ chunks, c ≠ []) (h : chunks.flatten = stream lines) :
    session chunks = lineDecisions lines ↔ Aligned lines chunks := by
  induction lines generalizing chunks with
  | nil =>
    cases chunks with
    | nil => exact iff_of_true rfl trivial
    | cons c cs =>
      have hnil : c ++ cs.flatten = [] := h
      exact absurd (List.append_eq_nil_iff.mp hnil).1 (hne c List.mem_cons_self)
  | cons line lines ih =>
    obtain ⟨hline, hlines⟩ := List.forall_mem_cons.mp hlines
    rw [stream_cons] at h
    cases chunks with
    | nil => exact absurd h.symm (by simp)
    | cons c cs =>
      obtain ⟨-, hne⟩ := List.forall_mem_cons.mp hne
      rw [List.flatten_cons] at h
      have hnext : c = line ++ [10] → cs.flatten = stream lines := by
        intro hc
        rw [hc, List.append_assoc] at h
        exact (List.cons.inj (List.append_cancel_left h)).2
      rw [session_cons_eq, commandOf_eq_iff hline h, Aligned]
      by_cases hexit : line = exitCommand
      · have hzero : 0 ∉ line := hexit ▸ (by decide)
        rw [if_pos hexit, ← hexit]
        constructor
        · intro hcmd
          exact ⟨cs, hcmd.1.2.imp (congrArg (· :: cs)) (congrArg (· :: cs))⟩
        · rintro ⟨rest, hchunks⟩
          refine ⟨⟨hzero, ?_⟩, fun hne => absurd rfl hne⟩
          exact hchunks.imp (fun h => (List.cons.inj h).1) fun h => (List.cons.inj h).1
      · rw [if_neg hexit]
        constructor
        · rintro ⟨⟨hzero, hc | hc⟩, hrest⟩
          · rw [hc] at h
            exact absurd (hrest hexit)
              (session_behind hlines hne (List.append_cancel_left h))
          · exact ⟨hzero, cs, congrArg (· :: cs) hc,
              (ih hlines hne (hnext hc)).mp (hrest hexit)⟩
        · rintro ⟨hzero, rest, hchunks, halign⟩
          obtain ⟨hc, rfl⟩ := List.cons.inj hchunks
          exact ⟨⟨hzero, .inr hc⟩, fun _ => (ih hlines hne (hnext hc)).mpr halign⟩

/-! ## Two ways to cut the same stream -/

def texts (lines : List Line) : List Bytes := lines.map Line.text

theorem newline_notMem_texts (lines : List Line) : ∀ l ∈ texts lines, 10 ∉ l := by
  intro l hl
  obtain ⟨line, -, rfl⟩ := List.mem_map.mp hl
  exact line.newline

/-- Two ways to cut a stream of lines give the same decisions, one for each line
up to the first `exit`, when both hand over line by line, and not otherwise. -/
theorem same_decisions_iff (lines : List Line) (s t : Segmentation (stream (texts lines))) :
    session s.chunks = session t.chunks ∧ session s.chunks = lineDecisions (texts lines) ↔
      Aligned (texts lines) s.chunks ∧ Aligned (texts lines) t.chunks := by
  have hs := session_eq_iff (newline_notMem_texts lines) s.nonempty s.flatten
  have ht := session_eq_iff (newline_notMem_texts lines) t.nonempty t.flatten
  rw [← hs, ← ht]
  constructor
  · intro h
    exact ⟨h.2, h.1.symm.trans h.2⟩
  · intro h
    exact ⟨h.1.trans h.2.symm, h.1⟩

/-- The line `rm -rf x`, received in two pieces and in one. -/
def removal : Line where
  text := ascii "rm -rf x"
  newline := by decide
  short := by decide

def removalCut : Segmentation (stream (texts [removal])) where
  chunks := [ascii "rm -r", ascii "f x" ++ [10]]
  nonempty := by decide
  bounded := by decide
  flatten := by decide

def removalWhole : Segmentation (stream (texts [removal])) where
  chunks := [ascii "rm -rf x" ++ [10]]
  nonempty := by decide
  bounded := by decide
  flatten := by decide

theorem removal_depends_on_segmentation :
    ¬ ∀ (lines : List Line) (s t : Segmentation (stream (texts lines))),
      session s.chunks = session t.chunks ∧
        session s.chunks = lineDecisions (texts lines) := by
  intro h
  have hcut : session removalCut.chunks = [.run (ascii "rm -r"), .run (ascii "f x")] := by decide
  have hline : lineDecisions (texts [removal]) = [.refuse (ascii "rm -rf x")] := by decide
  have heq := (h [removal] removalCut removalWhole).2
  rw [hcut, hline] at heq
  exact absurd heq (by decide)

end Shell
end NetLab
