import NetLab.Http.Server
import NetLab.Library.Quoted

/-!
# The listing as a client reads it

The server's answer is a header and a page, and the page has a line for each
entry.  A client that cuts the answer at its empty line, takes the links from the
page and decodes them has the directory again.
-/

namespace NetLab
namespace Http

open CString ByteStream Message Percent Quoted Transition Handover

/-- A name, and whether it is that of a folder, from a link. -/
def readLink (address : Bytes) : Bytes × Bool :=
  let code := address.drop (ascii "/files/").length
  if code.getLast? = some 47 then (decode code.dropLast, true) else (decode code, false)

/-- The listing in an answer. -/
def readAnswer (message : Bytes) : List (Bytes × Bool) :=
  (links (split message).2).map readLink

/-! ## One line -/

theorem quote_notMem_encodedName (name : Bytes) : 34 ∉ encodedName name := by
  obtain ⟨k, -, hcode⟩ := encodedName_eq name
  rw [hcode, List.mem_flatMap]
  rintro ⟨b, -, hquote⟩
  rcases mem_encodeByte hquote with ⟨hplain, hb⟩ | hpercent | hdigit
  · rw [← hb] at hplain
    exact absurd hplain (by decide)
  · exact absurd hpercent (by decide)
  · exact absurd hdigit (by decide)

theorem quote_notMem_link (entry : FileEntry) : 34 ∉ link entry := by
  have hmark : 34 ∉ (if entry.isDir then ascii "/" else [] : Bytes) := by
    split
    · decide
    · exact List.not_mem_nil
  rw [link, List.mem_append, List.mem_append, not_or, not_or]
  exact ⟨⟨by decide, quote_notMem_encodedName entry.name⟩, hmark⟩

/-- A link is read as its entry exactly if its name is not cut. -/
theorem readLink_link_iff {entry : FileEntry} (h : 47 ∉ entry.name) :
    readLink (link entry) = (entry.name, entry.isDir) ↔
      codeLength entry.name.dropLast < 508 := by
  have hslash := slash_notMem_encodedName h
  rw [← decode_encodedName_iff, readLink, link, List.append_assoc, List.drop_left]
  cases hdir : entry.isDir with
  | true =>
    have hlast : (encodedName entry.name ++ ascii "/").getLast? = some 47 := List.getLast?_concat
    have hcode : (encodedName entry.name ++ ascii "/").dropLast = encodedName entry.name :=
      List.dropLast_concat
    simp only [if_true, hlast, hcode, Prod.mk.injEq, and_true]
  | false =>
    have hlast : (encodedName entry.name).getLast? ≠ some 47 := fun hmem =>
      hslash (List.mem_of_getLast? hmem)
    simp only [Bool.false_eq_true, if_false, List.append_nil, hlast, Prod.mk.injEq, and_true]

/-- A line is a tag, the link, and a text that ends with the line. -/
theorem entryText_eq (entry : FileEntry) : ∃ kind label : Bytes,
    ¬ linkName ++ [34] <:+: kind ∧ (34 ∉ entry.name → 34 ∉ label) ∧
      entryText entry =
        kind ++ 62 :: (linkName ++ 34 :: (link entry ++ 34 :: (label ++ [10]))) := by
  have hfolder : ascii "        <li class=\"folder\"><a href=\"/files/" =
      ascii "        <li class=\"folder\"" ++ 62 :: (linkName ++ 34 :: ascii "/files/") := rfl
  have hfile : ascii "        <li class=\"file\"><a href=\"/files/" =
      ascii "        <li class=\"file\"" ++ 62 :: (linkName ++ 34 :: ascii "/files/") := rfl
  have hslash : ascii "/\">" = ascii "/" ++ 34 :: ascii ">" := rfl
  have hquote : ascii "\">" = 34 :: ascii ">" := rfl
  have hslashEnd : ascii "/</a></li>\n" = ascii "/</a></li>" ++ [10] := rfl
  have hend : ascii "</a></li>\n" = ascii "</a></li>" ++ [10] := rfl
  rw [entryText, link]
  cases entry.isDir with
  | true =>
    refine ⟨ascii "        <li class=\"folder\"", ascii ">" ++ entry.name ++ ascii "/</a></li>",
      by decide +kernel, fun h => ?_, ?_⟩
    · simp only [List.mem_append, h, or_false]
      decide
    · rw [if_pos rfl, if_pos rfl, hfolder, hslash, hslashEnd]
      simp only [List.append_assoc, List.cons_append]
  | false =>
    refine ⟨ascii "        <li class=\"file\"", ascii ">" ++ entry.name ++ ascii "</a></li>",
      by decide +kernel, fun h => ?_, ?_⟩
    · simp only [List.mem_append, h, or_false]
      decide
    · rw [if_neg Bool.false_ne_true, if_neg Bool.false_ne_true, hfile, hquote, hend]
      simp only [List.append_assoc, List.cons_append, List.append_nil]

theorem links_entryText {entry : FileEntry} (h : 34 ∉ entry.name) (rest : Bytes) :
    links (entryText entry ++ rest) = link entry :: links rest := by
  obtain ⟨kind, label, hkind, hlabel, heq⟩ := entryText_eq entry
  have hsplit : entryText entry ++ rest =
      kind ++ 62 :: (linkName ++ 34 :: (link entry ++ 34 :: (label ++ 10 :: rest))) := by
    rw [heq]
    simp
  rw [hsplit, links_skip (by decide) hkind,
    links_cons (quote_notMem_link entry) (hlabel h) (by decide)]

/-! ## The page -/

theorem links_lines {entries : List FileEntry} (h : ∀ e ∈ entries, 34 ∉ e.name) :
    links ((entries.map entryText).flatten ++ pageEnd) = entries.map link := by
  induction entries with
  | nil =>
    have hend : 34 ∉ pageEnd := by decide
    exact links_eq_nil hend
  | cons e entries ih =>
    rw [List.forall_mem_cons] at h
    rw [List.map_cons, List.flatten_cons, List.append_assoc, links_entryText h.1, ih h.2,
      List.map_cons]

theorem pageHead_eq : ∃ text, pageHead = text ++ [10] ∧ ¬ linkName ++ [34] <:+: text := by
  refine ⟨pageHead.dropLast, ?_, ?_⟩
  · rw [pageHead, headLines]
    repeat rw [ascii_ofList]
    decide +kernel
  · rw [pageHead, headLines, linkName]
    repeat rw [ascii_ofList]
    decide +kernel

theorem links_pageText {found : Found} (h : ∀ e ∈ sortedEntries found.all, 34 ∉ e.name) :
    links (pageText (some found)) = (sortedEntries found.all).map link := by
  obtain ⟨text, htext, hfree⟩ := pageHead_eq
  have hsplit : pageText (some found) =
      text ++ 10 :: (((sortedEntries found.all).map entryText).flatten ++ pageEnd) := by
    rw [pageText, pageTexts, List.flatten_cons, htext]
    simp
  rw [hsplit, links_skip (by decide) hfree, links_lines h]

/-- The body is what stands behind the first empty line. -/
theorem split_of_framed {message body : Bytes} (h : Framed message body) :
    (split message).2 = body := by
  obtain ⟨header, body', hsplit, hmessage, hhead⟩ := split_of_find h.find_eq
  obtain ⟨header', heq, hhead', -⟩ := h
  rw [hsplit]
  exact (hhead.unique hhead' (hmessage.symm.trans heq)).2

/-- The page is read back as the directory exactly if no name is cut in its
link. -/
theorem readAnswer_iff {found : Found} {message : Bytes}
    (hnames : ∀ e ∈ sortedEntries found.all, 34 ∉ e.name ∧ 47 ∉ e.name)
    (h : Framed message (pageText (some found))) :
    readAnswer message = (sortedEntries found.all).map (fun e => (e.name, e.isDir)) ↔
      ∀ e ∈ sortedEntries found.all, codeLength e.name.dropLast < 508 := by
  rw [readAnswer, split_of_framed h, links_pageText fun e he => (hnames e he).1, List.map_map,
    List.map_inj_left]
  exact forall₂_congr fun e he => readLink_link_iff (hnames e he).2

/-- In every run, a client that was sent the page of a directory, and whose page
fits behind its header, reads the entries from it in order, with their kinds,
exactly if no name was cut in its link. -/
theorem server_listing_read_iff {as : List (Action Connection ClientLabel)}
    {s : State ClientPc Connection} (h : httpServer.run Handover.start as = some s) {c : Nat}
    {pc : ClientPc} (hfin : s.threads c = some (.finished pc)) {cut : Nat} {found : Found}
    {htmlContent : Bytes} {rest : List ClientLabel}
    (hread : labels c as = .recv cut (some found) htmlContent :: rest)
    (hlen : htmlContent.length = bufferSize.toNat)
    (hwhole : ∀ k texts, s.opened[c]? = some k →
      handleRequest (recv cut (bufferSize.toNat - 1) k.incoming).1 (some found) htmlContent =
        some texts → SentWhole texts rest)
    (hnames : ∀ e ∈ sortedEntries found.all, 34 ∉ e.name ∧ 47 ∉ e.name)
    (hfit : (pageText (some found)).length ≤ maxPage) :
    ∃ k k' method path message, s.opened[c]? = some k ∧ s.conns c = some k' ∧
      TwoWords (cstr (recv cut (bufferSize.toNat - 1) k.incoming).1) method path ∧
      k'.outgoing = k.outgoing ++ message ∧
      (path ≠ ascii "/favicon.ico" →
        (readAnswer message = (sortedEntries found.all).map (fun e => (e.name, e.isDir)) ↔
          ∀ e ∈ sortedEntries found.all, codeLength e.name.dropLast < 508)) := by
  obtain ⟨k, k', texts, hk, hk', htexts, hout⟩ := run_answers h hfin hread hwhole
  obtain ⟨method, path, hwords, -, hpage⟩ := handleRequest_framed hlen htexts
  refine ⟨k, k', method, path, texts.flatten, hk, hk', hwords, hout, fun hother => ?_⟩
  exact readAnswer_iff hnames ((hpage hother).mpr hfit)

/-- A folder of one file, `a b`. -/
def oneEntry : Found where
  first := ⟨ascii "a b", 0, by decide, by decide⟩
  rest := []

theorem sortedEntries_oneEntry : sortedEntries oneEntry.all = [oneEntry.first.entry] := by
  have hread : readEntries oneEntry.all = [oneEntry.first.entry] := rfl
  rw [sortedEntries, hread, List.mergeSort_singleton]

/-- Its name is escaped in the link, and read back. -/
theorem server_listing_read_iff_one :
    ∃ (s : State ClientPc Connection) (k' : Connection), s.conns 0 = some k' ∧
      readAnswer k'.outgoing = [(ascii "a b", false)] := by
  obtain ⟨s, hrun, hstate⟩ := Option.map_eq_some_iff.mp (show
    (httpServer.run Handover.start [.accept 4 ⟨ascii "GET / ", []⟩, .malloc 100, .spawn, .take 0,
      .act 0 (.recv 512 (some oneEntry) (List.replicate 8192 0)), .act 0 (.send 8192),
      .close 0]).map (fun s => (s.threads 0, s.opened)) =
      some (some (.finished (.sending [])), [⟨ascii "GET / ", []⟩]) by decide +kernel)
  obtain ⟨hfin, hopened⟩ := Prod.mk.inj hstate
  have hnames : ∀ e ∈ sortedEntries oneEntry.all, 34 ∉ e.name ∧ 47 ∉ e.name := by
    rw [sortedEntries_oneEntry, List.forall_mem_singleton]
    decide
  obtain ⟨k, k', method, path, message, hk, hk', hwords, hout, hlisting⟩ :=
    server_listing_read_iff hrun hfin rfl List.length_replicate
      (fun _ _ _ htexts => sentWhole_of_le htexts fun n hn => by
        obtain rfl : n = 8192 := by simpa using hn
        exact Nat.le_refl _) hnames (by decide +kernel)
  rw [hopened] at hk
  obtain rfl : ⟨ascii "GET / ", []⟩ = k := Option.some.inj hk
  refine ⟨s, k', hk', ?_⟩
  rw [hout, List.nil_append, (hlisting (path_ne_icon hwords)).mpr ?_, sortedEntries_oneEntry]
  · rfl
  · rw [sortedEntries_oneEntry, List.forall_mem_singleton]
    decide

end Http
end NetLab
