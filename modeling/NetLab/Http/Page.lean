import NetLab.Http.Entries
import NetLab.Library.Cursor

/-!
# The page of the directory

`scan_directory` writes the page piece by piece.  It adds to its pointer, and
takes from `remaining`, what each `snprintf` returns, also when that is more
than was left.
-/

namespace NetLab
namespace Http

open Cursor

/-- The size of `html_content`. -/
def bufferSize : BitVec 64 := 8192

/-- What `FindFirstFile` finds, and the calls of `FindNextFile` after it. -/
structure Found where
  first : FindData
  rest : List FindData

def Found.all (found : Found) : List FindData := found.first :: found.rest

def errorPage : Bytes := ascii "<html><body><h1>Error opening directory</h1></body></html>"

def headLines : List Bytes :=
  [ascii "<!DOCTYPE html>\n",
    ascii "<html>\n",
    ascii "<head>\n",
    ascii "    <meta charset=\"UTF-8\">\n",
    ascii "    <title>File Browser</title>\n",
    ascii "    <link rel=\"icon\" href=\"/favicon.ico\" type=\"image/x-icon\">\n",
    ascii "    <style>\n",
    ascii "        body \x7b font-family: Arial, sans-serif; margin: 20px; \x7d\n",
    ascii "        h1 \x7b color: #333; \x7d\n",
    ascii "        ul \x7b list-style-type: none; padding: 0; \x7d\n",
    ascii "        li \x7b margin: 5px 0; \x7d\n",
    ascii "        a \x7b text-decoration: none; color: #0066cc; \x7d\n",
    ascii "        a:hover \x7b text-decoration: underline; \x7d\n",
    ascii "        .folder \x7b font-weight: bold; \x7d\n",
    ascii "        .file \x7b font-style: italic; \x7d\n",
    ascii "    </style>\n",
    ascii "</head>\n",
    ascii "<body>\n",
    ascii "    <h1>Directory Listing</h1>\n",
    ascii "    <ul>\n"]

/-- The text of the first `snprintf`. -/
def pageHead : Bytes := headLines.flatten

/-- `encoded_name` has 512 bytes. -/
def encodedName (name : Bytes) : Bytes := urlEncode name 512

/-- The line of an entry. -/
def entryText (entry : FileEntry) : Bytes :=
  if entry.isDir then
    ascii "        <li class=\"folder\"><a href=\"/files/" ++ encodedName entry.name ++
      ascii "/\">" ++ entry.name ++ ascii "/</a></li>\n"
  else
    ascii "        <li class=\"file\"><a href=\"/files/" ++ encodedName entry.name ++
      ascii "\">" ++ entry.name ++ ascii "</a></li>\n"

/-- The text of the last `snprintf`. -/
def pageEnd : Bytes := ascii "    </ul>\n</body>\n</html>\n"

/-- The texts after which the pointer moves on. -/
def pageTexts (found : Found) : List Bytes :=
  pageHead :: (sortedEntries found.all).map entryText

/-- The calls of `snprintf` on the page; `none` where `FindFirstFile` fails. -/
def scanCalls (search : Option Found) (size : BitVec 64) : List (Call 64) :=
  match search with
  | none => [{ given := start size, text := errorPage, after := start size }]
  | some found =>
      let last := (start size).past (pageTexts found)
      calls (start size) (pageTexts found) ++ [{ given := last, text := pageEnd, after := last }]

/-- `html_buffer` afterwards. -/
def scanDirectory (search : Option Found) (size : BitVec 64) (htmlBuffer : Bytes) :
    Option Bytes :=
  perform (scanCalls search size) htmlBuffer

/-- The whole page. -/
def pageText (search : Option Found) : Bytes :=
  match search with
  | none => errorPage
  | some found => (pageTexts found).flatten ++ pageEnd

/-- A call leaves the position in the buffer with the rest of the buffer as
`remaining`, and was given a position and a size inside the buffer. -/
structure InBuffer (size : BitVec 64) (call : Call 64) : Prop where
  position_le : call.after.offset ≤ size.toNat
  remaining_eq : call.after.remaining.toNat = size.toNat - call.after.offset
  given_le : call.given.offset + call.given.remaining.toNat ≤ size.toNat

/-- The length of the line of an entry, from its name. -/
def lineLength (found : FindData) : Nat :=
  let name := found.cFileName.take 255
  (encodedName name).length + name.length + if found.isDir then 57 else 53

/-- The bytes of the page before its last three lines. -/
def bytesBeforeEnd (search : Option Found) : Nat :=
  match search with
  | none => 0
  | some found => 580 + ((listed found.all).map lineLength).sum

theorem length_pageHead : pageHead.length = 580 := by
  rw [pageHead, headLines]
  repeat rw [ascii_ofList]
  decide +kernel

theorem length_entryText (found : FindData) :
    (entryText found.entry).length = lineLength found := by
  have hfolder : (ascii "        <li class=\"folder\"><a href=\"/files/").length = 43 := by
    rw [ascii_ofList]
    rfl
  have hfile : (ascii "        <li class=\"file\"><a href=\"/files/").length = 41 := by
    rw [ascii_ofList]
    rfl
  have hslash : (ascii "/\">").length = 3 := rfl
  have hquote : (ascii "\">").length = 2 := rfl
  have hend : (ascii "</a></li>\n").length = 10 := rfl
  have hslashEnd : (ascii "/</a></li>\n").length = 11 := rfl
  have hname : found.entry.name = found.cFileName.take 255 := rfl
  have hisDir : found.entry.isDir = found.isDir := rfl
  rw [entryText, lineLength, hname, hisDir]
  cases found.isDir with
  | true =>
    simp only [if_true, List.length_append, hfolder, hslash, hslashEnd]
    omega
  | false =>
    simp only [Bool.false_eq_true, if_false, List.length_append, hfile, hquote, hend]
    omega

theorem length_encodedName_le (name : Bytes) : (encodedName name).length ≤ 510 := by
  have hlimit : ((512 : BitVec 64) - 4).toNat = 508 := rfl
  rw [encodedName, urlEncode, hlimit]
  simpa only [Nat.zero_add] using length_encodeFrom_le 508 name (Nat.zero_le 510)

theorem lineLength_le (found : FindData) : lineLength found ≤ 822 := by
  have hencoded := length_encodedName_le (found.cFileName.take 255)
  have hname : (found.cFileName.take 255).length ≤ 255 := List.length_take_le _ _
  rw [lineLength]
  split <;> omega

theorem mem_pageTexts {found : Found} {text : Bytes} (h : text ∈ pageTexts found) :
    text = pageHead ∨ ∃ f, text = entryText (FindData.entry f) := by
  rw [pageTexts, List.mem_cons] at h
  rcases h with h | h
  · exact Or.inl h
  · obtain ⟨entry, hentry, rfl⟩ := List.mem_map.mp h
    obtain ⟨f, -, rfl⟩ := List.mem_map.mp ((sortedEntries_perm found.all).mem_iff.mp hentry)
    exact Or.inr ⟨f, rfl⟩

/-- What `snprintf` returns is far below the greatest `int`. -/
theorem length_text_le (search : Option Found) (size : BitVec 64) :
    ∀ call ∈ scanCalls search size, call.text.length ≤ 822 := by
  have herror : errorPage.length = 58 := rfl
  have hend : pageEnd.length = 26 := rfl
  cases search with
  | none =>
    rw [scanCalls, List.forall_mem_singleton, herror]
    omega
  | some found =>
    rw [scanCalls, List.forall_mem_append, List.forall_mem_singleton, hend]
    refine ⟨fun call hcall => ?_, by omega⟩
    have hmem : call.text ∈ pageTexts found :=
      map_text_calls (start size) (pageTexts found) ▸ List.mem_map_of_mem hcall
    rcases mem_pageTexts hmem with htext | ⟨f, htext⟩
    · rw [htext, length_pageHead]
      omega
    · rw [htext, length_entryText]
      exact lineLength_le f

/-- The order of the entries does not matter for the length. -/
theorem length_pageTexts (found : Found) :
    (pageTexts found).flatten.length = bytesBeforeEnd (some found) := by
  have hperm : (((sortedEntries found.all).map entryText).map List.length).sum =
      ((listed found.all).map lineLength).sum := by
    have hlines : (((listed found.all).map FindData.entry).map entryText).map List.length =
        (listed found.all).map lineLength := by
      rw [List.map_map, List.map_map]
      exact List.map_congr_left fun f _ => length_entryText f
    rw [← hlines]
    exact (((sortedEntries_perm found.all).map entryText).map List.length).sum_nat
  rw [pageTexts, List.flatten_cons, List.length_append, List.length_flatten, hperm,
    length_pageHead, bytesBeforeEnd]

theorem inBuffer_of_inside {size : BitVec 64} {given after : Cursor 64} {text : Bytes}
    (hgiven : Inside size given) (hafter : Inside size after) :
    InBuffer size { given := given, text := text, after := after } where
  position_le := hafter.offset_le
  remaining_eq := hafter.remaining_eq
  given_le := by
    have hle := hgiven.offset_le
    show given.offset + given.remaining.toNat ≤ size.toNat
    rw [hgiven.remaining_eq]
    omega

theorem InBuffer.inside {size : BitVec 64} {call : Call 64} (h : InBuffer size call) :
    Inside size call.after := ⟨h.position_le, h.remaining_eq⟩

theorem scanCalls_inBuffer_iff (found : Found) (size : BitVec 64) :
    (∀ call ∈ scanCalls (some found) size, InBuffer size call) ↔
      (pageTexts found).flatten.length ≤ size.toNat := by
  have hstart := inside_start size
  have hzero : (start size).offset + (pageTexts found).flatten.length =
      (pageTexts found).flatten.length := by
    rw [offset_start, Nat.zero_add]
  constructor
  · intro h
    rw [← hzero, ← hstart.calls_iff]
    exact fun call hcall => (h call (List.mem_append_left _ hcall)).inside
  · intro hfit
    rw [← hzero] at hfit
    have hlast := hstart.past hfit
    rw [scanCalls, List.forall_mem_append, List.forall_mem_singleton]
    constructor
    · intro call hcall
      exact inBuffer_of_inside (hstart.given hfit call hcall)
        ((hstart.calls_iff _).mpr hfit call hcall)
    · exact inBuffer_of_inside hlast hlast

/-- The page stays in its buffer exactly if all but its last lines fit. -/
theorem page_in_buffer_iff (search : Option Found) (size : BitVec 64) :
    (∀ call ∈ scanCalls search size, InBuffer size call) ↔
      bytesBeforeEnd search ≤ size.toNat := by
  cases search with
  | none =>
    rw [scanCalls, List.forall_mem_singleton]
    exact iff_of_true (inBuffer_of_inside (inside_start size) (inside_start size)) (Nat.zero_le _)
  | some found => rw [scanCalls_inBuffer_iff, length_pageTexts]

/-- Then the whole page is in the buffer, cut before its last byte if need be. -/
theorem scanDirectory_page {search : Option Found} {size : BitVec 64} {buf : Bytes}
    (hbuf : buf.length = size.toNat) (hpos : 0 < size.toNat)
    (hfit : bytesBeforeEnd search ≤ size.toNat) :
    ∃ page, scanDirectory search size buf = some page ∧ page.length = size.toNat ∧
      (pageText search).take (size.toNat - 1) ++ [0] <+: page := by
  have hstart := inside_start size
  have hnil := written_nil hbuf
  cases search with
  | none =>
    obtain ⟨page, hrun, hpage⟩ := snprintf_written hstart errorPage rfl hnil
    refine ⟨page, ?_, hpage.length_eq, hpage.prefix_of_ne hpos (List.cons_ne_nil _ _)⟩
    rw [scanDirectory, scanCalls, perform, List.foldlM_cons, hrun]
    rfl
  | some found =>
    have htexts : (start size).offset + (pageTexts found).flatten.length ≤ size.toNat := by
      rw [offset_start, Nat.zero_add, length_pageTexts]
      exact hfit
    obtain ⟨mid, hmid, hwritten⟩ := perform_calls hstart rfl hnil htexts
    have hoffset : (pageTexts found).flatten.length =
        ((start size).past (pageTexts found)).offset := by
      rw [offset_past, offset_start, Nat.zero_add]
    rw [List.nil_append] at hwritten
    obtain ⟨page, hlast, hpage⟩ :=
      snprintf_written (hstart.past htexts) pageEnd hoffset hwritten
    refine ⟨page, ?_, hpage.length_eq, hpage.prefix_of_ne hpos ?_⟩
    · rw [scanDirectory, scanCalls, perform_concat, hmid]
      exact hlast
    · exact List.append_ne_nil_of_right_ne_nil _ (List.cons_ne_nil _ _)

/-- A file whose name is one `a`, and `n` more. -/
def fileOfLetters (n : Fin 259) : FindData where
  cFileName := 97 :: List.replicate n 97
  dwFileAttributes := 0
  length_le := by
    rw [List.length_cons, List.length_replicate]
    omega
  nul_notMem := by
    rw [List.mem_cons, List.mem_replicate]
    exact fun h => h.elim (by decide) fun hmore => absurd hmore.2 (by decide)

/-- A hundred and fifty of them, `a`, `aa` and so on. -/
def filesOfLetters : Found where
  first := fileOfLetters 0
  rest := (List.range 149).map fun i => fileOfLetters (Fin.ofNat 259 (i + 1))

theorem isDots_fileOfLetters (n : Fin 259) : (fileOfLetters n).isDots = false := by
  rw [FindData.isDots, fileOfLetters]
  rfl

theorem length_filesOfLetters : filesOfLetters.all.length = 150 := by
  rw [Found.all, filesOfLetters, List.length_cons, List.length_map, List.length_range]

theorem listed_filesOfLetters : listed filesOfLetters.all = filesOfLetters.all := by
  have hnone : ∀ f ∈ filesOfLetters.all, (!f.isDots) = true := by
    rw [Found.all, List.forall_mem_cons]
    refine ⟨rfl, fun f hf => ?_⟩
    obtain ⟨i, -, rfl⟩ := List.mem_map.mp hf
    rw [isDots_fileOfLetters, Bool.not_false]
  rw [listed, List.filter_eq_self.mpr hnone, maxEntries]
  exact List.take_of_length_le (by rw [length_filesOfLetters]; omega)

theorem length_mul_le_sum_lineLength (found : List FindData) :
    found.length * 53 ≤ (found.map lineLength).sum := by
  induction found with
  | nil => exact Nat.le_refl 0
  | cons f found ih =>
    have hline : 53 ≤ lineLength f := by
      rw [lineLength]
      split <;> omega
    rw [List.length_cons, List.map_cons, List.sum_cons]
    omega

/-- The lines of the files are longer than what the head of the page leaves. -/
theorem page_leaves_buffer :
    ¬ ∀ call ∈ scanCalls (some filesOfLetters) bufferSize, InBuffer bufferSize call := by
  have hlines := length_mul_le_sum_lineLength (listed filesOfLetters.all)
  have hcount : (listed filesOfLetters.all).length = 150 := by
    rw [listed_filesOfLetters, length_filesOfLetters]
  have hsize : bufferSize.toNat = 8192 := rfl
  rw [scanCalls_inBuffer_iff, length_pageTexts, bytesBeforeEnd, hsize]
  omega

end Http
end NetLab
