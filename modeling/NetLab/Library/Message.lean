import NetLab.Library.CString

/-!
# Messages with a header

The header of a message ends with its first empty line, and a field in it says
how many bytes follow.
-/

namespace NetLab
namespace Message

open CString

/-- The end of the last field and the empty line behind it. -/
def emptyLine : Bytes := ascii "\r\n\r\n"

/-- The name of the field with the length, behind the end of the line before. -/
def lengthName : Bytes := ascii "\r\nContent-Length: "

/-- A header ends with the first empty line in it. -/
def IsHead (header : Bytes) : Prop := find emptyLine header = some emptyLine

/-- The length that a header announces. -/
def announced (header : Bytes) : Option Int :=
  match find lengthName header with
  | none => none
  | some field => scanInt (field.drop lengthName.length)

/-- A message cut behind its first empty line; without one it is all header. -/
def split (message : Bytes) : Bytes × Bytes :=
  match find emptyLine message with
  | none => (message, [])
  | some tail =>
    (message.take (message.length - tail.length + emptyLine.length), tail.drop emptyLine.length)

/-- The message is a header and the body, and the header announces how long the
body is. -/
def Framed (message body : Bytes) : Prop :=
  ∃ header, message = header ++ body ∧ IsHead header ∧ announced header = some (body.length : Int)

theorem IsHead.find_append {header : Bytes} (h : IsHead header) (body : Bytes) :
    find emptyLine (header ++ body) = some (emptyLine ++ body) :=
  CString.find_append h body

theorem IsHead.ne_nil {header : Bytes} (h : IsHead header) : header ≠ [] := by
  rintro rfl
  have hnone : find emptyLine [] = none := rfl
  exact nomatch hnone.symm.trans h

theorem IsHead.unique {header header' body body' : Bytes} (h : IsHead header)
    (h' : IsHead header') (heq : header ++ body = header' ++ body') :
    header = header' ∧ body = body' := by
  have hfind := h.find_append body
  rw [heq, h'.find_append, Option.some.injEq] at hfind
  obtain rfl : body' = body := List.append_cancel_left hfind
  exact ⟨List.append_cancel_right heq, rfl⟩

/-- The header of a message and the bytes behind it, when there is an empty line. -/
theorem split_of_find {message tail : Bytes} (h : find emptyLine message = some tail) :
    ∃ header body, split message = (header, body) ∧ message = header ++ body ∧ IsHead header := by
  obtain ⟨⟨body, rfl⟩, ⟨before, rfl⟩⟩ := find_spec h
  have hsplit : split (before ++ (emptyLine ++ body)) = (before ++ emptyLine, body) := by
    have hlen : (before ++ (emptyLine ++ body)).length - (emptyLine ++ body).length +
        emptyLine.length = (before ++ emptyLine).length := by
      simp only [List.length_append]
      omega
    rw [split, h]
    dsimp only
    rw [hlen, List.drop_left, ← List.append_assoc, List.take_left]
  refine ⟨before ++ emptyLine, body, hsplit, (List.append_assoc ..).symm, ?_⟩
  -- The empty line that the header has is the first one of the message.
  have hsome : (find emptyLine (before ++ emptyLine)).isSome :=
    find_isSome_iff.mpr ⟨before, [], List.append_nil _⟩
  obtain ⟨t, ht⟩ := Option.isSome_iff_exists.mp hsome
  have hgrown := CString.find_append ht body
  rw [List.append_assoc, h, Option.some.injEq] at hgrown
  rw [IsHead, ht, List.append_cancel_right hgrown]

theorem split_of_none {message : Bytes} (h : find emptyLine message = none) :
    split message = (message, []) := by
  rw [split, h]

theorem split_append (message : Bytes) : (split message).1 ++ (split message).2 = message := by
  cases hfind : find emptyLine message with
  | none =>
    rw [split_of_none hfind]
    exact List.append_nil message
  | some tail =>
    obtain ⟨header, body, hsplit, hmessage, -⟩ := split_of_find hfind
    rw [hsplit]
    exact hmessage.symm

/-- Behind a header only the body and its length are in question. -/
theorem framed_iff {header : Bytes} (h : IsHead header) (rest body : Bytes) :
    Framed (header ++ rest) body ↔
      rest = body ∧ announced header = some (body.length : Int) := by
  constructor
  · rintro ⟨header', hmessage, hhead, hlength⟩
    obtain ⟨rfl, rfl⟩ := h.unique hhead hmessage
    exact ⟨rfl, hlength⟩
  · rintro ⟨rfl, hlength⟩
    exact ⟨header, rfl, h, hlength⟩

theorem Framed.find_eq {message body : Bytes} (h : Framed message body) :
    find emptyLine message = some (emptyLine ++ body) := by
  obtain ⟨header, rfl, hhead, -⟩ := h
  exact hhead.find_append body

/-! ## Lines of a header -/

theorem not_starts_crlf {line s : Bytes} (hne : line ≠ []) (hcr : line.head? ≠ some 13) :
    ¬ ascii "\r\n" <+: line ++ s := by
  obtain ⟨b, line, rfl⟩ := List.exists_cons_of_ne_nil hne
  intro h
  exact hcr (congrArg some (List.cons_prefix_cons.mp h).1.symm)

theorem find_emptyLine_line {line s : Bytes} (hline : 10 ∉ line) (hs : ¬ ascii "\r\n" <+: s) :
    find emptyLine (line ++ ascii "\r\n" ++ s) = find emptyLine s := by
  have hend : emptyLine = [13] ++ 10 :: ascii "\r\n" := rfl
  have hcr : (10 : UInt8) ∉ line ++ (ascii "\r\n" ++ s).take 1 := by
    intro h
    rcases List.mem_append.mp h with h | h
    · exact hline h
    · exact absurd (show (10 : UInt8) ∈ [13] from h) (by decide)
  have hfirst : ¬ emptyLine <+: 13 :: 10 :: s := by
    intro h
    exact hs (List.cons_prefix_cons.mp (List.cons_prefix_cons.mp h).2).2
  have hsecond : ¬ emptyLine <+: 10 :: s := by
    intro h
    exact absurd (List.cons_prefix_cons.mp h).1 (by decide)
  calc find emptyLine (line ++ ascii "\r\n" ++ s)
      = find emptyLine (ascii "\r\n" ++ s) := by
        rw [List.append_assoc, hend, find_skip hcr]
    _ = find emptyLine (13 :: 10 :: s) := rfl
    _ = find emptyLine s := by rw [find_cons_of_not hfirst, find_cons_of_not hsecond]

theorem find_emptyLine_last {line : Bytes} (hline : 10 ∉ line) (s : Bytes) :
    find emptyLine (line ++ emptyLine ++ s) = some (emptyLine ++ s) := by
  have hend : emptyLine = [13] ++ 10 :: ascii "\r\n" := rfl
  have hcr : (10 : UInt8) ∉ line ++ (emptyLine ++ s).take 1 := by
    intro h
    rcases List.mem_append.mp h with h | h
    · exact hline h
    · exact absurd (show (10 : UInt8) ∈ [13] from h) (by decide)
  rw [List.append_assoc]
  nth_rewrite 1 [hend]
  rw [find_skip hcr, ← hend]
  exact find_append_self s

/-- The length is read from its field, whatever lines without an `L` stand
before it. -/
theorem announced_append {lines : Bytes} (hlines : 76 ∉ lines) (n : Nat) (s : Bytes) :
    announced (lines ++ (lengthName ++ (decimal n ++ (ascii "\r\n" ++ s)))) = some (n : Int) := by
  have hname : lengthName = ascii "\r\nContent-" ++ 76 :: ascii "ength: " := rfl
  have hskip : (76 : UInt8) ∉ lines ++
      (lengthName ++ (decimal n ++ (ascii "\r\n" ++ s))).take (ascii "\r\nContent-").length := by
    intro h
    rcases List.mem_append.mp h with h | h
    · exact hlines h
    · exact absurd (show (76 : UInt8) ∈ ascii "\r\nContent-" from h) (by decide)
  have hfind : find lengthName (lines ++ (lengthName ++ (decimal n ++ (ascii "\r\n" ++ s)))) =
      some (lengthName ++ (decimal n ++ (ascii "\r\n" ++ s))) := by
    nth_rewrite 1 [hname]
    rw [find_skip hskip, ← hname]
    exact find_append_self _
  rw [announced, hfind]
  dsimp only
  rw [List.drop_left]
  exact scanInt_decimal n (by decide) _

end Message
end NetLab
