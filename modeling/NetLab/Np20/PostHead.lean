import NetLab.Np20.Requests

/-!
# The header of a POST with a declared length
-/

namespace NetLab
namespace Np20

open CString

/-- `Content-Length:`, without the blank that the search wants behind it. -/
def lengthField : Bytes := ascii "Content-Length:"

/-- In a request line the search for the length ends only where the target itself
ends in the name of the field. -/
theorem find_length_requestLine {method target : Bytes} (hmethod : 58 ∉ method)
    (hword : 32 ∉ method) (htarget : 32 ∉ target) (fields : Bytes) :
    find (lengthField ++ [32]) (method ++ 32 :: (target ++ 32 ::
        (ascii "HTTP/1.1\r\n" ++ fields))) =
      if lengthField <:+ target then
        some (lengthField ++ [32] ++ (ascii "HTTP/1.1\r\n" ++ fields))
      else find (lengthField ++ [32]) fields := by
  have hsuffix : ¬ lengthField <:+ method := fun h => hmethod (h.subset (by decide))
  rw [find_skip_word (by decide) hword hsuffix]
  split
  · rename_i htail
    obtain ⟨u, rfl⟩ := htail
    have hskip : (32 : UInt8) ∉ u ++ (lengthField ++ 32 :: (ascii "HTTP/1.1\r\n" ++
        fields)).take lengthField.length := by
      rw [List.take_left]
      exact htarget
    rw [List.append_assoc, find_skip hskip]
    have hself : find (lengthField ++ [32]) (lengthField ++ [32] ++ (ascii "HTTP/1.1\r\n" ++
        fields)) = some _ := find_append_self _
    rw [List.append_assoc] at hself
    exact hself
  · rename_i htail
    rw [find_skip_word (by decide) htarget htail]
    have hneedle : lengthField ++ [32] = [] ++ 67 :: ascii "ontent-Length: " := rfl
    rw [hneedle]
    refine find_skip ?_
    show (67 : UInt8) ∉ ascii "HTTP/1.1\r\n" ++ []
    decide

/-- A header of lines that declares the length of the body. -/
structure PostHead where
  target : Bytes
  fieldsBefore : List Bytes
  fieldsAfter : List Bytes
  length : Nat
  target_ne : target ≠ []
  target_word : IsWord target
  target_nul : 0 ∉ target
  fields_lines : ∀ line ∈ fieldsBefore ++ fieldsAfter, IsLine line

namespace PostHead

variable (head : PostHead)

def lines : List Bytes :=
  (ascii "POST " ++ head.target ++ ascii " HTTP/1.1") :: head.fieldsBefore ++
    (lengthField ++ ascii " " ++ decimal head.length) :: head.fieldsAfter

def text : Bytes := unlines head.lines ++ ascii "\r\n"

/-- The fields, the empty line included. -/
def fields : Bytes :=
  unlines (head.fieldsBefore ++ (lengthField ++ ascii " " ++ decimal head.length) ::
    head.fieldsAfter) ++ ascii "\r\n"

theorem decimal_line : 0 ∉ decimal head.length ∧ 10 ∉ decimal head.length := by
  constructor
  · intro h
    exact absurd (isdigit_of_mem_decimal h) (by decide)
  · intro h
    exact absurd (isdigit_of_mem_decimal h) (by decide)

theorem lines_isLine : ∀ line ∈ head.lines, IsLine line := by
  have hpost : IsLine (ascii "POST ") := ⟨by decide, by decide, by decide⟩
  have hlength : IsLine (lengthField ++ ascii " ") := ⟨by decide, by decide, by decide⟩
  have htarget : 10 ∉ head.target := fun h => absurd (head.target_word 10 h) (by decide)
  intro line hline
  rcases List.mem_append.mp hline with hfirst | hrest
  · rcases List.mem_cons.mp hfirst with rfl | hbefore
    · exact (hpost.append head.target_nul htarget).append (by decide) (by decide)
    · exact head.fields_lines line (List.mem_append_left _ hbefore)
  · rcases List.mem_cons.mp hrest with rfl | hafter
    · exact hlength.append head.decimal_line.1 head.decimal_line.2
    · exact head.fields_lines line (List.mem_append_right _ hafter)

theorem isHeader : IsHeader head.text where
  nul_notMem := by
    rw [text, List.mem_append, not_or]
    exact ⟨nul_notMem_unlines head.lines_isLine, by decide⟩
  first := find_headerEnd_unlines head.lines_isLine (List.cons_ne_nil _ _)

/-! ## The request line -/

theorem text_eq : head.text =
    ascii "POST" ++ 32 :: (head.target ++ 32 :: (ascii "HTTP/1.1\r\n" ++ head.fields)) := by
  rw [text, lines, List.cons_append, unlines_cons, fields]
  simp only [List.append_assoc]
  rfl

theorem words : firstWord head.text = ascii "POST" ∧ secondWord head.text = head.target := by
  obtain ⟨b, w, hbw⟩ := List.exists_cons_of_ne_nil head.target_ne
  have hword : IsWord (b :: w) := hbw ▸ head.target_word
  have htoken : scanToken (head.target ++ 32 :: (ascii "HTTP/1.1\r\n" ++ head.fields)) =
      (head.target, 32 :: (ascii "HTTP/1.1\r\n" ++ head.fields)) := by
    rw [hbw, scanToken_word hword (by decide)]
  have hpost : scanToken (cstr head.text) =
      (ascii "POST", 32 :: (head.target ++ 32 :: (ascii "HTTP/1.1\r\n" ++ head.fields))) := by
    rw [cstr_eq_self head.isHeader.nul_notMem, text_eq]
    exact scanToken_word (by decide) (by decide)
  rw [firstWord, secondWord, hpost, scanToken_cons_space (by decide), htoken]
  exact ⟨rfl, rfl⟩

/-- The path that the target names. -/
def path : Bytes := cstr (urlDecode head.target)

theorem decodedPath_eq : decodedPath head.text = head.path := by
  rw [decodedPath, head.words.2]
  rfl

theorem clientThread_eq (host : Host) (cuts : Nat → Nat) (hlen : head.text.length ≤ intMax)
    (htarget : head.target.length < 1024) (body : Bytes) :
    clientThread host cuts (head.text ++ body) = servePost host cuts head.text head.path body := by
  have hline : requestLine head.text = .ok (ascii "POST", head.path) := by
    have hwords := head.words
    rw [requestLine_words, hwords.1, decodedPath_eq]
    · rw [hwords.1]
      decide
    · rw [hwords.2]
      exact htarget
  rw [clientThread_header host cuts head.isHeader hlen, hline]
  rfl

theorem clientThread_target (host : Host) (cuts : Nat → Nat) (hlen : head.text.length ≤ intMax)
    (htarget : ¬ head.target.length < 1024) (body : Bytes) :
    clientThread host cuts (head.text ++ body) = .error (.overflow .path) := by
  have hwords := head.words
  rw [clientThread_header host cuts head.isHeader hlen, requestLine_target]
  · rfl
  · rw [hwords.1]
    decide
  · rw [hwords.2]
    exact htarget

/-! ## The declared length -/

/-- No field before the declaration mentions the length. -/
def LengthOnce : Prop := ∀ line ∈ head.fieldsBefore, ¬ lengthField ++ ascii " " <:+: line

theorem find_length_fields (honce : head.LengthOnce) : find (lengthField ++ ascii " ") head.fields =
    some (lengthField ++ ascii " " ++ (decimal head.length ++ ascii "\r\n" ++
      (unlines head.fieldsAfter ++ ascii "\r\n"))) := by
  have hfields : head.fields = unlines head.fieldsBefore ++
      (lengthField ++ ascii " " ++ (decimal head.length ++ ascii "\r\n" ++
        (unlines head.fieldsAfter ++ ascii "\r\n"))) := by
    rw [fields, unlines_append, unlines_cons]
    simp only [List.append_assoc]
  rw [hfields, find_unlines (by decide) (by decide) (by decide) honce]
  exact find_append_self _

/-- Where the search for the length ends: at the field, unless the target
itself ends in the name of the field. -/
theorem strstr_length : strstr head.text (ascii "Content-Length: ") =
    if lengthField <:+ head.target then
      some (lengthField ++ ascii " " ++ (ascii "HTTP/1.1\r\n" ++ head.fields))
    else find (lengthField ++ ascii " ") head.fields := by
  have hblank : 32 ∉ head.target := fun h => absurd (head.target_word 32 h) (by decide)
  rw [strstr, cstr_eq_self head.isHeader.nul_notMem, text_eq]
  exact find_length_requestLine (by decide) (by decide) hblank head.fields

/-- The declared length is read, or nothing when it is no `int`; a target that
ends in the name of the field hides it. -/
theorem contentLength_text (honce : head.LengthOnce) : contentLength head.text =
    if lengthField <:+ head.target then some 0
    else if head.length ≤ intMax then some (head.length : Int) else none := by
  rw [contentLength, strstr_length]
  by_cases hsuffix : lengthField <:+ head.target
  · rw [if_pos hsuffix, if_pos hsuffix]
    rfl
  · have hdrop : ∀ s : Bytes, (lengthField ++ ascii " " ++ s).drop
        (ascii "Content-Length: ").length = s := fun s => rfl
    have hscan : scanInt (decimal head.length ++ ascii "\r\n" ++
        (unlines head.fieldsAfter ++ ascii "\r\n")) = some (head.length : Int) := by
      rw [List.append_assoc]
      exact scanInt_decimal _ (by decide) _
    rw [if_neg hsuffix, if_neg hsuffix, head.find_length_fields honce]
    dsimp only
    rw [hdrop, hscan]
    dsimp only
    by_cases hle : head.length ≤ intMax
    · rw [if_pos hle, if_pos]
      omega
    · rw [if_neg hle, if_neg]
      omega

theorem clientThread_store (host : Host) (cuts : Nat → Nat) (hlen : head.text.length ≤ intMax)
    (htarget : head.target.length < 1024) (hne : head.path ≠ []) {part name : Bytes}
    (hpart : IsHeader part) (hcount : part.length ≤ intMax) (hname : partName part = some name)
    (hlt : name.length < 1024) (rest : Bytes) :
    clientThread host cuts (head.text ++ (part ++ rest)) =
      storeUpload host cuts head.text head.path name (fullpathOf head.path name) part.length
        rest := by
  have hpath : head.path.length < 1024 :=
    Nat.lt_of_le_of_lt ((length_cstr_le _).trans (length_urlDecode_le _)) htarget
  rw [head.clientThread_eq host cuts hlen htarget,
    servePost_store host cuts head.text hpart hcount hname hlt hne hpath]

end PostHead

/-- A request with a body of the declared length. -/
structure PostRequest extends PostHead where
  body : Bytes
  body_length : body.length = length

end Np20
end NetLab
