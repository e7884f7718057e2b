import NetLab.Np20.PostHead

/-!
# The declared length among the fields

A request header is a request line and fields; one of them may declare the
length of the body.  The client thread looks for the text `Content-Length: ` in
the whole request, and reads a number behind the first one it finds.
-/

namespace NetLab
namespace Np20

open CString

/-- The bytes of methods and field names. -/
def isTchar (b : UInt8) : Bool :=
  isdigit b || 65 ≤ b && b ≤ 90 || 97 ≤ b && b ≤ 122 || (ascii "!#$%&'*+-.^_`|~").contains b

/-- A blank or a tab. -/
def isBlank (b : UInt8) : Bool := b = 32 ∨ b = 9

def lowercase (s : Bytes) : Bytes := s.map fun b => if 65 ≤ b ∧ b ≤ 90 then b + 32 else b

/-- A field: its name, the white space behind the colon, and the value with the
white space behind it. -/
structure Field where
  name : Bytes
  space : Bytes
  value : Bytes
  name_ne : name ≠ []
  name_token : ∀ b ∈ name, isTchar b = true
  space_blank : ∀ b ∈ space, isBlank b = true
  value_text : ∀ b ∈ value, b ≠ 0 ∧ b ≠ 10 ∧ b ≠ 13

namespace Field

def line (f : Field) : Bytes := f.name ++ 58 :: (f.space ++ f.value)

/-- The name is `Content-Length` in any spelling. -/
def isLength (f : Field) : Bool := lowercase f.name = ascii "content-length"

def digits (f : Field) : Bytes := f.value.takeWhile isdigit

end Field

/-- A well-formed request header: at most one field declares a length, and that
is an `int`. -/
structure RequestHeader where
  method : Bytes
  target : Bytes
  fields : List Field
  method_ne : method ≠ []
  method_token : ∀ b ∈ method, isTchar b = true
  target_ne : target ≠ []
  target_text : ∀ b ∈ target, isspace b = false ∧ b ≠ 0
  length_unique : (fields.filter Field.isLength).length ≤ 1
  length_digits : ∀ f ∈ fields, f.isLength = true →
    f.digits ≠ [] ∧ ∀ b ∈ f.value.dropWhile isdigit, isBlank b = true
  length_le : ∀ f ∈ fields, f.isLength = true → digitsValue f.digits ≤ intMax

/-- What stands behind the first `Content-Length: ` in some lines. -/
def mention : List Bytes → Option Bytes
  | [] => none
  | line :: lines =>
    match find (lengthField ++ [32]) line with
    | some found =>
      some (found.drop (lengthField ++ [32]).length ++ ascii "\r\n" ++ unlines lines ++
        ascii "\r\n")
    | none => mention lines

namespace RequestHeader

variable (header : RequestHeader)

def fieldLines : List Bytes := header.fields.map Field.line

def lines : List Bytes :=
  (header.method ++ 32 :: (header.target ++ ascii " HTTP/1.1")) :: header.fieldLines

def text : Bytes := unlines header.lines ++ ascii "\r\n"

/-- The declared length, zero when there is none. -/
def declared : Nat :=
  match header.fields.find? Field.isLength with
  | none => 0
  | some f => digitsValue f.digits

/-- Behind the first `Content-Length: ` of the field lines stands the declared
length, and the target does not hide it; where no length other than zero is
declared, no other number stands there. -/
def LengthShown : Prop :=
  if lengthField <:+ header.target then header.declared = 0
  else
    match mention header.fieldLines with
    | none => header.declared = 0
    | some behind =>
      NumberAt behind header.declared ∨ header.declared = 0 ∧ ∀ n, ¬ NumberAt behind n

/-! ## The text of a header -/

theorem isLine_fieldLines : ∀ line ∈ header.fieldLines, IsLine line := by
  intro line hline
  obtain ⟨f, -, rfl⟩ := List.mem_map.mp hline
  have hbyte : ∀ b : UInt8, isTchar b = false → isBlank b = false → b ≠ 58 →
      (b = 0 ∨ b = 10 ∨ b = 13) → b ∉ f.line := by
    intro b htoken hblank hcolon hctl hmem
    rcases List.mem_append.mp hmem with hmem | hmem
    · rw [f.name_token b hmem] at htoken
      cases htoken
    · rcases List.mem_cons.mp hmem with heq | hmem
      · exact hcolon heq
      · rcases List.mem_append.mp hmem with hmem | hmem
        · rw [f.space_blank b hmem] at hblank
          cases hblank
        · have htext := f.value_text b hmem
          rcases hctl with h | h | h
          · exact htext.1 h
          · exact htext.2.1 h
          · exact htext.2.2 h
  exact {
    ne_nil := List.append_ne_nil_of_left_ne_nil f.name_ne _
    nul_notMem := hbyte 0 (by decide) (by decide) (by decide) (.inl rfl)
    lf_notMem := hbyte 10 (by decide) (by decide) (by decide) (.inr (.inl rfl)) }

theorem notMem_target {b : UInt8} (h : isspace b = true ∨ b = 0) : b ∉ header.target := by
  intro hmem
  have htext := header.target_text b hmem
  rcases h with hspace | hnul
  · rw [htext.1] at hspace
    cases hspace
  · exact htext.2 hnul

theorem notMem_method {b : UInt8} (h : isTchar b = false) : b ∉ header.method := by
  intro hmem
  rw [header.method_token b hmem] at h
  cases h

theorem isLine_lines : ∀ line ∈ header.lines, IsLine line := by
  intro line hline
  rcases List.mem_cons.mp hline with rfl | hline
  · refine ⟨List.append_ne_nil_of_left_ne_nil header.method_ne _, ?_, ?_⟩
    · simp only [List.mem_append, List.mem_cons, not_or]
      exact ⟨header.notMem_method (by decide), by decide,
        header.notMem_target (.inr rfl), by decide⟩
    · simp only [List.mem_append, List.mem_cons, not_or]
      exact ⟨header.notMem_method (by decide), by decide,
        header.notMem_target (.inl (by decide)), by decide⟩
  · exact header.isLine_fieldLines line hline

/-- The client thread reads such a header to its end. -/
theorem isHeader : IsHeader header.text where
  nul_notMem := by
    rw [text, List.mem_append, not_or]
    exact ⟨nul_notMem_unlines header.isLine_lines, by decide⟩
  first := find_headerEnd_unlines header.isLine_lines (List.cons_ne_nil _ _)

theorem text_eq : header.text = header.method ++ 32 :: (header.target ++ 32 ::
    (ascii "HTTP/1.1\r\n" ++ (unlines header.fieldLines ++ ascii "\r\n"))) := by
  have hversion : ascii " HTTP/1.1" ++ ascii "\r\n" = 32 :: ascii "HTTP/1.1\r\n" := rfl
  rw [text, lines, unlines_cons]
  simp only [List.append_assoc, List.cons_append]
  rw [← List.append_assoc (ascii " HTTP/1.1"), hversion, List.cons_append]

/-! ## The search -/

/-- Over lines, the search ends where the first mention is. -/
theorem find_mention (lines : List Bytes) :
    find (lengthField ++ [32]) (unlines lines ++ ascii "\r\n") =
      (mention lines).map (lengthField ++ [32] ++ ·) := by
  induction lines with
  | nil => decide
  | cons line lines ih =>
    rw [mention, unlines_cons]
    cases hfind : find (lengthField ++ [32]) line with
    | none =>
      have hnot : ∀ l ∈ [line], ¬ lengthField ++ [32] <:+: l := by
        intro l hl hinfix
        rw [List.mem_singleton.mp hl, ← find_isSome_iff, hfind] at hinfix
        cases hinfix
      have hskip : find (lengthField ++ [32]) (unlines [line] ++ (unlines lines ++ ascii "\r\n")) =
          find (lengthField ++ [32]) (unlines lines ++ ascii "\r\n") :=
        find_unlines (by decide) (by decide) (by decide) hnot _
      have hnil : unlines [] = [] := rfl
      rw [unlines_cons, hnil, List.append_nil] at hskip
      rw [List.append_assoc]
      exact hskip.trans ih
    | some found =>
      obtain ⟨⟨behind, rfl⟩, -⟩ := find_spec hfind
      have hgrown := find_append hfind (ascii "\r\n" ++ (unlines lines ++ ascii "\r\n"))
      rw [List.append_assoc, List.append_assoc, hgrown]
      dsimp only
      rw [List.drop_left, Option.map_some]
      simp only [List.append_assoc]

/-- What the client thread finds in the header. -/
theorem strstr_length : strstr header.text (ascii "Content-Length: ") =
    if lengthField <:+ header.target then
      some (lengthField ++ [32] ++ (ascii "HTTP/1.1\r\n" ++
        (unlines header.fieldLines ++ ascii "\r\n")))
    else (mention header.fieldLines).map (lengthField ++ [32] ++ ·) := by
  rw [strstr, cstr_eq_self header.isHeader.nul_notMem, text_eq, ← find_mention]
  exact find_length_requestLine (header.notMem_method (by decide))
    (header.notMem_method (by decide)) (header.notMem_target (.inl (by decide))) _

theorem declared_le : header.declared ≤ intMax := by
  rw [declared]
  split
  · exact Nat.zero_le _
  · rename_i f hfind
    exact header.length_le f (List.mem_of_find?_eq_some hfind) (List.find?_some hfind)

/-- The number behind a mention, when it is an `int`; no number counts as zero. -/
theorem contentLength_of_strstr {requestBody behind : Bytes}
    (h : strstr requestBody (ascii "Content-Length: ") = some (lengthField ++ [32] ++ behind))
    {n : Nat} (hn : n ≤ intMax) : contentLength requestBody = some (n : Int) ↔
      NumberAt behind n ∨ n = 0 ∧ ∀ m, ¬ NumberAt behind m := by
  have hdrop : (lengthField ++ [32] ++ behind).drop (ascii "Content-Length: ").length =
      behind := rfl
  rw [contentLength, h]
  dsimp only
  rw [hdrop, ← scanInt_eq_some_iff]
  simp only [← scanInt_eq_some_iff]
  cases hscan : scanInt behind with
  | none =>
    simp only [Option.some.injEq, reduceCtorEq, not_false_eq_true, implies_true, and_true, false_or]
    omega
  | some m =>
    have hmore : ¬ (n = 0 ∧ ∀ k, ¬ some m = some k) := fun h => h.2 m rfl
    rw [or_iff_left hmore]
    dsimp only
    split
    · exact Iff.rfl
    · rename_i hrange
      refine iff_of_false (Option.some_ne_none _).symm fun heq => hrange ?_
      rw [Option.some.inj heq]
      omega

/-- The computed length is the declared one exactly when that is shown. -/
theorem contentLength_eq_iff :
    contentLength header.text = some (header.declared : Int) ↔ header.LengthShown := by
  have hfound := header.strstr_length
  rw [LengthShown]
  by_cases hsuffix : lengthField <:+ header.target
  · rw [if_pos hsuffix] at hfound ⊢
    have hzero : contentLength header.text = some 0 := by
      rw [contentLength, hfound]
      rfl
    rw [hzero, Option.some.injEq]
    omega
  · rw [if_neg hsuffix] at hfound ⊢
    cases hmention : mention header.fieldLines with
    | none =>
      rw [hmention] at hfound
      have hzero : contentLength header.text = some 0 := by
        rw [contentLength, hfound]
        rfl
      rw [hzero, Option.some.injEq]
      show (0 : Int) = header.declared ↔ header.declared = 0
      omega
    | some behind =>
      rw [hmention] at hfound
      exact contentLength_of_strstr hfound header.declared_le

/-! ## The usual spelling -/

theorem declared_eq {before after : List Field} {f : Field}
    (hfields : header.fields = before ++ f :: after) (hlength : f.isLength = true) :
    header.declared = digitsValue f.digits := by
  have hunique := header.length_unique
  rw [hfields, List.filter_append, List.filter_cons_of_pos hlength, List.length_append,
    List.length_cons] at hunique
  have hnone : before.find? Field.isLength = none := by
    rw [List.find?_eq_none]
    intro g hg hglength
    have hmem : g ∈ before.filter Field.isLength := List.mem_filter.mpr ⟨hg, hglength⟩
    have hpos := List.length_pos_of_mem hmem
    omega
  rw [declared, hfields, List.find?_append, hnone, Option.none_or, List.find?_cons_of_pos hlength]

theorem mention_append {before : List Bytes} (h : ∀ line ∈ before, ¬ lengthField ++ [32] <:+: line)
    (lines : List Bytes) : mention (before ++ lines) = mention lines := by
  induction before with
  | nil => rfl
  | cons line before ih =>
    have hnone : find (lengthField ++ [32]) line = none := by
      rw [← Option.not_isSome_iff_eq_none, find_isSome_iff]
      exact h line List.mem_cons_self
    rw [List.cons_append, mention, hnone]
    exact ih fun l hl => h l (List.mem_cons_of_mem line hl)

/-- A field spelled `Content-Length`, with a blank behind the colon, is read unless
the target or an earlier field mentions it. -/
theorem lengthShown_of_spelled {before after : List Field} {f : Field}
    (hfields : header.fields = before ++ f :: after) (hname : f.name = ascii "Content-Length")
    (hspace : f.space.head? = some 32) (htarget : ¬ lengthField <:+ header.target)
    (hbefore : ∀ g ∈ before, ¬ lengthField ++ [32] <:+: g.line) : header.LengthShown := by
  obtain ⟨space, hblank⟩ := List.head?_eq_some_iff.mp hspace
  have hmem : f ∈ header.fields := by
    rw [hfields]
    exact List.mem_append_right _ List.mem_cons_self
  have hlength : f.isLength = true := by
    rw [Field.isLength, hname]
    decide
  have hline : f.line = lengthField ++ [32] ++ (space ++ f.value) := by
    rw [Field.line, hname, hblank]
    rfl
  have hlines : ∀ line ∈ before.map Field.line, ¬ lengthField ++ [32] <:+: line := by
    intro line hl
    obtain ⟨g, hg, rfl⟩ := List.mem_map.mp hl
    exact hbefore g hg
  have hmention : mention header.fieldLines = some (space ++ f.value ++ ascii "\r\n" ++
      unlines (after.map Field.line) ++ ascii "\r\n") := by
    rw [fieldLines, hfields, List.map_append, List.map_cons, mention_append hlines, mention, hline,
      find_append_self]
    dsimp only
    rw [List.drop_left]
  have hspaces : ∀ b ∈ space, isspace b = true := by
    intro b hb
    have hb := f.space_blank b (hblank ▸ List.mem_cons_of_mem 32 hb)
    rw [isBlank, decide_eq_true_eq] at hb
    rcases hb with rfl | rfl
    · decide
    · decide
  have hend : ∀ s : Bytes, ∀ c ∈ (f.value.dropWhile isdigit ++ (ascii "\r\n" ++ s)).head?,
      isdigit c = false := by
    intro s c hc
    have hnot := List.head?_dropWhile_not isdigit f.value
    cases hrest : f.value.dropWhile isdigit with
    | nil =>
      rw [hrest, List.nil_append] at hc
      rw [← Option.some.inj hc]
      decide
    | cons b rest =>
      rw [hrest] at hc hnot
      rw [← Option.some.inj hc]
      exact hnot
  rw [LengthShown, if_neg htarget, hmention]
  left
  rw [header.declared_eq hfields hlength]
  refine ⟨space, [], f.digits, f.value.dropWhile isdigit ++ (ascii "\r\n" ++
    (unlines (after.map Field.line) ++ ascii "\r\n")), ?_, hspaces,
    (header.length_digits f hmem hlength).1, fun b hb => List.mem_takeWhile_imp hb, hend _,
    .inl ⟨.inl rfl, rfl⟩⟩
  have hvalue : f.digits ++ f.value.dropWhile isdigit = f.value := List.takeWhile_append_dropWhile
  rw [List.nil_append, ← List.append_assoc f.digits, hvalue]
  simp only [List.append_assoc]

end RequestHeader

/-- A header that declares five bytes in lower case. -/
def lowercaseHeader : RequestHeader where
  method := ascii "POST"
  target := ascii "/upload"
  fields := [{
    name := ascii "content-length"
    space := [32]
    value := ascii "5"
    name_ne := by decide
    name_token := by decide +kernel
    space_blank := by decide +kernel
    value_text := by decide +kernel }]
  method_ne := by decide
  method_token := by decide +kernel
  target_ne := by decide
  target_text := by decide +kernel
  length_unique := by decide +kernel
  length_digits := by decide +kernel
  length_le := by decide +kernel

/-- It is read as declaring none. -/
theorem lowercase_not_read :
    ¬ ∀ header : RequestHeader, contentLength header.text = some (header.declared : Int) := by
  intro h
  have hread : contentLength lowercaseHeader.text = some 0 := by decide +kernel
  have hdeclared : lowercaseHeader.declared = 5 := by decide +kernel
  have heq := h lowercaseHeader
  rw [hread, hdeclared] at heq
  exact absurd heq (by decide)

end Np20
end NetLab
