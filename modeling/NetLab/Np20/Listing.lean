import NetLab.Np20.Host

/-!
# The page of a directory

`CreateHTML` appends the page to its output piece by piece: an upload form, and
then a link for each entry of the directory.
-/

namespace NetLab
namespace Np20

open CString

/-- The comparator that `scandir` gets.  Directories come first, and entries of
one type in the order of their names. -/
def compare (e1 e2 : Dirent) : Int :=
  if e1.dType = e2.dType then strcmp e1.name e2.name
  else if e1.dType = dtDir then -1 else 1

/-- The counters of `Append` are of type `int`. -/
def append (destination str : Bytes) : Except Fault Bytes :=
  let oldlen := destination.length
  let more := str.length + 1
  if oldlen + more ≤ intMax then .ok (destination ++ str) else .error .pageLength

/-- The `/` between a path and a name. -/
def separator (path : Bytes) : Bytes := if path.getLast? ≠ some 47 then ascii "/" else []

/-- The pieces up to the path. -/
def headTexts : List Bytes :=
  [ascii "<html>",
    ascii "<head><style>",
    ascii "body \x7b font-family: Arial; margin: 20px; \x7d",
    ascii ".upload-form \x7b background: #f0f0f0; padding: 15px; " ++
      ascii "border-radius: 5px; margin-bottom: 20px; \x7d",
    ascii "input[type=file] \x7b margin: 10px 0; \x7d",
    ascii "input[type=submit] \x7b background: #4CAF50; color: white; " ++
      ascii "padding: 10px 20px; border: none; cursor: pointer; \x7d",
    ascii "</style></head><body>",
    ascii "<h2>Current Directory: "]

/-- The pieces between the path and the entries. -/
def formTexts : List Bytes :=
  [ascii "</h2>",
    ascii "<div class=\"upload-form\">",
    ascii "<h3>Upload File</h3>",
    ascii "<form method=\"post\" enctype=\"multipart/form-data\">",
    ascii "<input type=\"file\" id=\"file1\" name=\"file1\" required/><br>",
    ascii "<input type=\"submit\" value=\"Upload to this directory\">",
    ascii "</form></div>",
    ascii "<h3>Directory Contents:</h3>"]

/-- The pieces of the link to an entry. -/
def hrefTexts (path : Bytes) (entry : Dirent) : List Bytes :=
  if entry.dType = dtDir then [path, separator path, entry.name]
  else [path, separator path, entry.name, ascii "?"]

/-- The pieces of one entry. -/
def entryTexts (path : Bytes) (entry : Dirent) : List Bytes :=
  if entry.dType = dtDir then
    ascii "<a href=\"" :: hrefTexts path entry ++
      [ascii "\">", ascii "<b>", entry.name, ascii "</b>", ascii "</a>", ascii "<br>"]
  else
    ascii "<a href=\"" :: hrefTexts path entry ++
      [ascii "\">", ascii "<i>", entry.name, ascii "</i>", ascii "</a>", ascii "<br>"]

/-- The pieces of the page, the entries as `scandir` returns them. -/
def pageTexts (path : Bytes) (entries : List Dirent) : List Bytes :=
  headTexts ++ path :: formTexts ++ entries.flatMap (entryTexts path) ++
    [ascii "</body></html>"]

def createHTML (path : Bytes) (entries : List Dirent) : Except Fault Bytes :=
  (pageTexts path entries).foldlM append []

/-- The text of the link to an entry. -/
def href (path : Bytes) (entry : Dirent) : Bytes := (hrefTexts path entry).flatten

/-- The path of an entry: the path of the directory, one separator and the name. -/
def entryPath (path : Bytes) (entry : Dirent) : Bytes :=
  path ++ separator path ++ entry.name

/-- The length of the text of one entry. -/
def entrySize (path : Bytes) (entry : Dirent) : Nat :=
  (entryPath path entry).length + entry.name.length +
    if entry.dType = dtDir then 26 else 27

/-- The length of the page. -/
def pageSize (path : Bytes) (entries : List Dirent) : Nat :=
  608 + path.length + (entries.map (entrySize path)).sum

theorem href_eq (path : Bytes) (entry : Dirent) :
    href path entry = entryPath path entry ++ if entry.dType = dtDir then [] else ascii "?" := by
  rw [href, hrefTexts, entryPath]
  split
  · simp
  · simp

/-- The entry's text is a link to its `href`. -/
theorem entryTexts_link (path : Bytes) (entry : Dirent) :
    ascii "<a href=\"" ++ href path entry ++ ascii "\">" <+: (entryTexts path entry).flatten := by
  rw [entryTexts, href]
  split
  · simp [List.flatten_append, List.append_assoc]
  · simp [List.flatten_append, List.append_assoc]

theorem length_entryTexts (path : Bytes) (entry : Dirent) :
    (entryTexts path entry).flatten.length = entrySize path entry := by
  have hopen : (ascii "<a href=\"").length = 9 := rfl
  have hquote : (ascii "\">").length = 2 := rfl
  have hmark : (ascii "?").length = 1 := rfl
  have hbold : (ascii "<b>").length = 3 ∧ (ascii "</b>").length = 4 := ⟨rfl, rfl⟩
  have hitalic : (ascii "<i>").length = 3 ∧ (ascii "</i>").length = 4 := ⟨rfl, rfl⟩
  have hclose : (ascii "</a>").length = 4 ∧ (ascii "<br>").length = 4 := ⟨rfl, rfl⟩
  rw [entryTexts, entrySize, entryPath, hrefTexts]
  split
  · simp only [List.flatten_cons, List.flatten_nil, List.length_append, List.length_nil,
      List.cons_append, List.nil_append]
    omega
  · simp only [List.flatten_cons, List.flatten_nil, List.length_append, List.length_nil,
      List.cons_append, List.nil_append]
    omega

theorem length_pageTexts (path : Bytes) (entries : List Dirent) :
    (pageTexts path entries).flatten.length = pageSize path entries := by
  have hentries : ∀ es : List Dirent,
      (es.flatMap (entryTexts path)).flatten.length = (es.map (entrySize path)).sum := by
    intro es
    induction es with
    | nil => rfl
    | cons e es ih =>
      rw [List.flatMap_cons, List.flatten_append, List.length_append, length_entryTexts, ih,
        List.map_cons, List.sum_cons]
  have hhead : headTexts.flatten.length = 342 := by
    rw [headTexts]
    repeat rw [ascii_ofList]
    decide +kernel
  have hform : formTexts.flatten.length = 252 := by
    rw [formTexts]
    repeat rw [ascii_ofList]
    decide +kernel
  have hend : (ascii "</body></html>").length = 14 := rfl
  simp only [pageTexts, List.flatten_append, List.flatten_cons, List.flatten_nil,
    List.length_append, List.length_nil, hentries, hhead, hform, hend, pageSize]
  omega

/-- The pieces are appended one after the other as long as the counters of
`Append` hold the length. -/
theorem foldlM_append (texts : List Bytes) (output : Bytes) (h : output.length + 1 ≤ intMax) :
    texts.foldlM append output =
      if output.length + texts.flatten.length + 1 ≤ intMax then .ok (output ++ texts.flatten)
      else .error .pageLength := by
  induction texts generalizing output with
  | nil =>
    rw [List.flatten_nil, List.append_nil, List.length_nil, Nat.add_zero, if_pos h]
    rfl
  | cons text texts ih =>
    rw [List.foldlM_cons, List.flatten_cons, List.length_append]
    by_cases hfits : output.length + (text.length + 1) ≤ intMax
    · have hnext : (output ++ text).length + 1 ≤ intMax := by
        rw [List.length_append]
        omega
      have happend : append output text = .ok (output ++ text) := if_pos hfits
      rw [happend]
      show texts.foldlM append (output ++ text) = _
      rw [ih _ hnext, List.length_append, List.append_assoc, Nat.add_assoc output.length]
    · have happend : append output text = .error .pageLength := if_neg hfits
      have hnot : ¬ output.length + (text.length + texts.flatten.length) + 1 ≤ intMax := by omega
      rw [happend, if_neg hnot]
      rfl

theorem createHTML_eq (path : Bytes) (entries : List Dirent) :
    createHTML path entries =
      if pageSize path entries < intMax then .ok (pageTexts path entries).flatten
      else .error .pageLength := by
  have hstart : ([] : Bytes).length + 1 ≤ intMax := by decide
  rw [createHTML, foldlM_append _ _ hstart, length_pageTexts, List.nil_append, List.length_nil,
    Nat.zero_add]
  rfl

/-- The page links every entry of the directory by its `href`. -/
theorem createHTML_link {path html : Bytes} {entries : List Dirent}
    (h : createHTML path entries = .ok html) {entry : Dirent} (hentry : entry ∈ entries) :
    ascii "<a href=\"" ++ href path entry ++ ascii "\">" <:+: html := by
  have hpage : html = (headTexts ++ path :: formTexts).flatten ++
      (entries.flatMap (entryTexts path)).flatten ++ [ascii "</body></html>"].flatten := by
    rw [createHTML_eq] at h
    split at h
    · rw [← Except.ok.inj h, pageTexts, List.flatten_append, List.flatten_append]
    · contradiction
  obtain ⟨before, after, hsplit⟩ : entryTexts path entry <:+: entries.flatMap (entryTexts path) :=
    List.infix_of_mem_flatten (List.mem_map_of_mem hentry)
  have hentries : (entryTexts path entry).flatten <:+:
      (entries.flatMap (entryTexts path)).flatten := by
    rw [← hsplit, List.flatten_append, List.flatten_append]
    exact ⟨before.flatten, after.flatten, rfl⟩
  rw [hpage]
  exact (entryTexts_link path entry).isInfix.trans (hentries.trans (List.infix_append _ _ _))

end Np20
end NetLab
