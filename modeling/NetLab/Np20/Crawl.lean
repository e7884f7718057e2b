import NetLab.Library.Quoted
import NetLab.Np20.Links

/-!
# Following the links

A client reads the links of the pages it is sent and requests them.  What it
gets to know this way, starting at the root, is the tree of the directories.
-/

namespace NetLab
namespace Np20

open CString Quoted

/-! ## Reading a page -/

/-- What stands behind the link of an entry, up to its last byte. -/
def label (entry : Dirent) : Bytes :=
  if entry.dType = dtDir then ascii "><b>" ++ entry.name ++ ascii "</b></a><br"
  else ascii "><i>" ++ entry.name ++ ascii "</i></a><br"

theorem entryTexts_eq (path : Bytes) (entry : Dirent) :
    (entryTexts path entry).flatten =
      linkName ++ 34 :: (href path entry ++ 34 :: (label entry ++ [62])) := by
  rw [entryTexts, href, label]
  split
  · simp only [List.flatten_cons, List.flatten_nil, List.append_nil, List.cons_append,
      List.flatten_append, List.append_assoc]
    rfl
  · simp only [List.flatten_cons, List.flatten_nil, List.append_nil, List.cons_append,
      List.flatten_append, List.append_assoc]
    rfl

theorem quote_mem_href {path : Bytes} {entry : Dirent} :
    34 ∈ href path entry ↔ 34 ∈ path ∨ 34 ∈ entry.name := by
  have hsep : 34 ∉ separator path := by
    rw [separator]
    split
    · decide
    · exact List.not_mem_nil
  have hmark : 34 ∉ (if entry.dType = dtDir then [] else ascii "?" : Bytes) := by
    split
    · exact List.not_mem_nil
    · decide
  rw [href_eq, entryPath, List.mem_append, List.mem_append, List.mem_append]
  simp only [hsep, hmark, or_false]

theorem quote_notMem_label {entry : Dirent} (h : 34 ∉ entry.name) : 34 ∉ label entry := by
  have hbold : 34 ∉ ascii "><b>" ∧ 34 ∉ ascii "</b></a><br" := by decide
  have hitalic : 34 ∉ ascii "><i>" ∧ 34 ∉ ascii "</i></a><br" := by decide
  rw [label]
  split
  · simp only [List.mem_append, hbold, h, or_self, not_false_eq_true]
  · simp only [List.mem_append, hitalic, h, or_self, not_false_eq_true]

theorem links_entry {path : Bytes} {entry : Dirent} (h : 34 ∉ href path entry) (rest : Bytes) :
    links ((entryTexts path entry).flatten ++ rest) = href path entry :: links rest := by
  have hname : 34 ∉ entry.name := fun hmem => h (quote_mem_href.mpr (Or.inr hmem))
  have hsplit : (entryTexts path entry).flatten ++ rest =
      linkName ++ 34 :: (href path entry ++ 34 :: (label entry ++ 62 :: rest)) := by
    rw [entryTexts_eq]
    simp
  rw [hsplit, links_cons h (quote_notMem_label hname) (by decide)]

theorem links_entries {path : Bytes} {entries : List Dirent}
    (h : ∀ e ∈ entries, 34 ∉ href path e) :
    links ((entries.flatMap (entryTexts path)).flatten ++ ascii "</body></html>") =
      entries.map (href path) := by
  induction entries with
  | nil =>
    have hend : 34 ∉ ascii "</body></html>" := by decide
    exact links_eq_nil hend
  | cons e entries ih =>
    rw [List.forall_mem_cons] at h
    rw [List.flatMap_cons, List.flatten_append, List.append_assoc, links_entry h.1, ih h.2,
      List.map_cons]

/-- The last text before the path has no mark in it. -/
def heading : Bytes := ascii "Current Directory: "

theorem headTexts_eq : ∃ text, headTexts.flatten = text ++ 62 :: heading ∧
    ¬ linkName ++ [34] <:+: text := by
  refine ⟨headTexts.flatten.take 322, ?_, ?_⟩
  · rw [headTexts, heading]
    repeat rw [ascii_ofList]
    decide +kernel
  · rw [headTexts, linkName]
    repeat rw [ascii_ofList]
    decide +kernel

theorem formTexts_eq : ∃ text, formTexts.flatten = ascii "</h2" ++ 62 :: (text ++ [62]) ∧
    ¬ linkName ++ [34] <:+: text := by
  refine ⟨(formTexts.flatten.drop 5).take 246, ?_, ?_⟩
  · rw [formTexts]
    repeat rw [ascii_ofList]
    decide +kernel
  · rw [formTexts, linkName]
    repeat rw [ascii_ofList]
    decide +kernel

/-- The links start behind the form, unless the path makes up a mark. -/
theorem links_page {path : Bytes} (h : ¬ linkName ++ [34] <:+: path) (rest : Bytes) :
    links (headTexts.flatten ++ (path ++ (formTexts.flatten ++ rest))) = links rest := by
  obtain ⟨head, hhead, hheadFree⟩ := headTexts_eq
  obtain ⟨form, hform, hformFree⟩ := formTexts_eq
  have hpath : ¬ linkName ++ [34] <:+: heading ++ (path ++ ascii "</h2") := by
    have hstart : linkName = 60 :: ascii "a href=" := rfl
    rw [mark_infix_append_iff_of_head hstart (by decide), mark_infix_append_iff (by decide)]
    exact h
  have hsplit : headTexts.flatten ++ (path ++ (formTexts.flatten ++ rest)) =
      head ++ 62 :: ((heading ++ (path ++ ascii "</h2")) ++ 62 :: (form ++ 62 :: rest)) := by
    rw [hhead, hform]
    simp
  rw [hsplit, links_skip (by decide) hheadFree, links_skip (by decide) hpath,
    links_skip (by decide) hformFree]

theorem pageTexts_flatten (path : Bytes) (entries : List Dirent) :
    (pageTexts path entries).flatten =
      headTexts.flatten ++ (path ++ (formTexts.flatten ++
        ((entries.flatMap (entryTexts path)).flatten ++ ascii "</body></html>"))) := by
  rw [pageTexts]
  simp only [List.flatten_append, List.flatten_cons, List.flatten_nil, List.append_nil,
    List.append_assoc]

theorem createHTML_eq_ok_iff {path html : Bytes} {entries : List Dirent} :
    createHTML path entries = .ok html ↔
      pageSize path entries < intMax ∧ (pageTexts path entries).flatten = html := by
  rw [createHTML_eq]
  split
  · rename_i h
    rw [and_iff_right h, Except.ok.injEq]
  · rename_i h
    exact iff_of_false nofun fun hok => h hok.1

/-- The links that are read are the links of the entries in the order of the listing,
exactly if none of them holds a quote and the path does not look like a link. -/
theorem page_links_iff {path html : Bytes} {entries : List Dirent}
    (h : createHTML path entries = .ok html) :
    links html = entries.map (href path) ↔
      (∀ e ∈ entries, 34 ∉ href path e) ∧ ¬ linkName ++ [34] <:+: path := by
  rw [createHTML_eq_ok_iff, pageTexts_flatten] at h
  constructor
  · intro heq
    have hfree : ∀ e ∈ entries, 34 ∉ href path e := by
      intro e he
      have hmem : href path e ∈ links html := by
        rw [heq]
        exact List.mem_map_of_mem he
      exact quote_notMem_of_mem_values hmem
    refine ⟨hfree, fun hmark => ?_⟩
    cases entries with
    | nil =>
      have hnone : links html = [] := by
        rw [heq, List.map_nil]
      refine (values_eq_nil_iff html).mp hnone (hmark.trans ?_)
      rw [← h.2]
      exact List.infix_append' _ _ _
    | cons e entries =>
      refine hfree e List.mem_cons_self (quote_mem_href.mpr (Or.inl ?_))
      exact hmark.subset (by decide)
  · rintro ⟨hfree, hmark⟩
    rw [← h.2, links_page hmark]
    exact links_entries hfree

/-- A directory with itself and one file. -/
def dotted : List Dirent :=
  [⟨ascii ".", dtDir, by decide, by decide, by decide⟩,
    ⟨ascii "a", 8, by decide, by decide, by decide⟩]

theorem pageSize_dotted_lt {path : Bytes} (h : path.length < 1024) :
    pageSize path dotted < intMax := by
  have hsep : (separator path).length ≤ 1 := by
    rw [separator]
    split
    · decide
    · exact Nat.zero_le _
  have hdot : (ascii ".").length = 1 ∧ (ascii "a").length = 1 := ⟨rfl, rfl⟩
  have hmax : intMax = 2147483647 := rfl
  simp only [pageSize, dotted, entrySize, entryPath, List.map_cons, List.map_nil, List.sum_cons,
    List.sum_nil, List.length_append, hdot, hmax]
  split <;> split <;> omega

theorem page_links_iff_dotted :
    links (pageTexts (ascii "/") dotted).flatten = dotted.map (href (ascii "/")) := by
  have hsize : pageSize (ascii "/") dotted < intMax := pageSize_dotted_lt (by decide)
  exact (page_links_iff (createHTML_eq_ok_iff.mpr ⟨hsize, rfl⟩)).mpr ⟨by decide, by decide⟩

/-! ## The answer to a link -/

/-- What a client sends behind the request line: it ends the header, which stays far
below what an `int` counts. -/
structure Fields (fields : Bytes) : Prop where
  nul_notMem : 0 ∉ fields
  ends : headerEnd <:+: ascii "\r\n" ++ fields
  length_le : fields.length + 2048 ≤ intMax

/-- The request is answered with the page `html`. -/
def Shows (host : Host) (cuts : Nat → Nat) (request html : Bytes) : Prop :=
  ∃ target rest, clientThread host cuts request =
    .ok ([.scandir target, .send (okHeader html.length (ascii "text/html")), .send html], rest)

/-- A link that goes through the request line and the decoder unchanged and asks
for no icon. -/
structure Verbatim (link : Bytes) : Prop where
  slash : 47 ∈ link
  nul : 0 ∉ link
  word : IsWord link
  literal : Literal link
  icon : ¬ faviconName <:+: link

section Answers

variable {host : Host} (cuts : Nat → Nat) {link fields : Bytes}

theorem length_split_linkRequest_le (link fields : Bytes) :
    (Message.split (linkRequest link fields)).1.length ≤ link.length + fields.length + 15 := by
  have hsum := congrArg List.length (Message.split_append (linkRequest link fields))
  have htexts : (ascii "GET ").length = 4 ∧ (ascii " HTTP/1.1\r\n").length = 11 := ⟨rfl, rfl⟩
  rw [linkRequest] at hsum ⊢
  simp only [List.length_append, htexts] at hsum
  omega

theorem Verbatim.clientThread_iff (hlink : Verbatim link) (hfields : Fields fields)
    (P : List Effect → Prop) :
    (∃ effects rest, clientThread host cuts (linkRequest link fields) = .ok (effects, rest) ∧
        P effects) ↔
      link.length < 1024 ∧ ∃ effects, serveGet host link = .ok effects ∧ P effects := by
  have hle := length_split_linkRequest_le link fields
  have hcount := hfields.length_le
  by_cases hlen : (Message.split (linkRequest link fields)).1.length ≤ intMax
  · have hblack : ∃ b ∈ link, isspace b = false := ⟨47, hlink.slash, by decide⟩
    obtain ⟨token, htoken, hserve⟩ :=
      clientThread_link host cuts hlink.nul hfields.nul_notMem hfields.ends hlen hblack
    have hcr : 13 ∉ link := fun h => absurd (hlink.word 13 h) (by decide)
    obtain rfl : token = link := by
      rcases htoken with ⟨h, -⟩ | h
      · exact absurd h hcr
      · rw [h, scanToken_self hlink.word]
    rw [hserve, (cstr_urlDecode_eq_iff hlink.nul).mpr hlink.literal]
  · -- Only a link that is too long anyway makes the header that long.
    have hnul := nul_notMem_linkRequest hlink.nul hfields.nul_notMem
    refine iff_of_false ?_ fun h => by omega
    rintro ⟨effects, rest, hok, -⟩
    rw [← readHeader_eq_split_of_notMem hnul] at hlen
    exact hlen (length_request_le hok)

theorem Verbatim.shows_iff (hlink : Verbatim link) (hfields : Fields fields) (html : Bytes) :
    Shows host cuts (linkRequest link fields) html ↔
      link.length < 1024 ∧ link.getLast? ≠ some 63 ∧
        createHTML link (host.scandir link) = .ok html := by
  have hserve : (∃ effects, serveGet host link = .ok effects ∧ ∃ target, effects =
        [.scandir target, .send (okHeader html.length (ascii "text/html")), .send html]) ↔
      link.getLast? ≠ some 63 ∧ createHTML link (host.scandir link) = .ok html := by
    constructor
    · rintro ⟨effects, heffects, target, rfl⟩
      rcases (serveGet_eq_ok_iff hlink.nul).mp heffects with
        ⟨hicon, -⟩ | ⟨-, -, hlast, h⟩ | ⟨-, init, -, h⟩
      · exact absurd hicon hlink.icon
      · obtain ⟨page, hpage, h⟩ := bind_eq_ok.mp h
        obtain ⟨ok, -, heq⟩ := bind_eq_ok.mp h
        have hlist := Except.ok.inj heq
        simp only [List.cons.injEq, Effect.send.injEq, and_true] at hlist
        exact ⟨hlast, hlist.2.2 ▸ hpage⟩
      · exact absurd (sendFile_head h) (by simp)
    · rintro ⟨hlast, hpage⟩
      obtain ⟨page, hsame, h⟩ := sendListing_ok (createHTML_eq_ok_iff.mp hpage).1
      obtain rfl : page = html := Except.ok.inj (hsame.symm.trans hpage)
      exact ⟨_, (serveGet_eq_ok_iff hlink.nul).mpr
        (Or.inr (Or.inl ⟨hlink.icon, List.ne_nil_of_mem hlink.slash, hlast, h⟩)), link, rfl⟩
  rw [← hserve, ← hlink.clientThread_iff cuts hfields]
  constructor
  · rintro ⟨target, rest, h⟩
    exact ⟨_, rest, h, target, rfl⟩
  · rintro ⟨effects, rest, h, target, rfl⟩
    exact ⟨target, rest, h⟩

end Answers

/-! ## The tree of the directories -/

/-- The directories below the root whose paths fit a request. -/
inductive Directory (host : Host) : Bytes → Prop
  | root : Directory host (ascii "/")
  | child {path : Bytes} {e : Dirent} : Directory host path → e ∈ host.scandir path →
      e.dType = dtDir → (entryPath path e).length < 1024 → Directory host (entryPath path e)

/-- The links of the tree: the root, and the entries of the directories. -/
def TreeLink (host : Host) (link : Bytes) : Prop :=
  link = ascii "/" ∨ ∃ path e, Directory host path ∧ e ∈ host.scandir path ∧ link = href path e

/-- The links that a client gets to know from the root on. -/
inductive Known (host : Host) (cuts : Nat → Nat) (fields : Bytes) : Bytes → Prop
  | root : Known host cuts fields (ascii "/")
  | follow {link html next : Bytes} : Known host cuts fields link →
      Shows host cuts (linkRequest link fields) html → next ∈ links html →
      Known host cuts fields next

/-- Bytes that neither a request nor a page changes. -/
def Plain (text : Bytes) : Prop :=
  ∀ b ∈ text, isspace b = false ∧ b ≠ 34 ∧ b ≠ 37 ∧ b ≠ 43

/-- No name in the tree has a byte that a request or a page would change, none
mentions the icon, no directory looks like a file, and every page fits. -/
structure Tidy (host : Host) : Prop where
  plain : ∀ path, Directory host path → ∀ e ∈ host.scandir path, Plain e.name
  icon : ∀ path, Directory host path → ∀ e ∈ host.scandir path, ¬ faviconName <:+: e.name
  mark : ∀ path, Directory host path → ∀ e ∈ host.scandir path, e.dType = dtDir →
    e.name.getLast? ≠ some 63
  page : ∀ path, Directory host path → pageSize path (host.scandir path) < intMax

theorem plain_append {s t : Bytes} (hs : Plain s) (ht : Plain t) : Plain (s ++ t) := by
  intro b hb
  rcases List.mem_append.mp hb with h | h
  · exact hs b h
  · exact ht b h

theorem Plain.quote_notMem {text : Bytes} (h : Plain text) : 34 ∉ text :=
  fun hmem => (h 34 hmem).2.1 rfl

theorem Plain.literal {text : Bytes} (h : Plain text) : Literal text := by
  refine ⟨fun hmem => (h 43 hmem).2.2.2 rfl, ?_⟩
  rintro ⟨a, b, -, -, hescape⟩
  exact (h 37 (hescape.subset List.mem_cons_self)).2.2.1 rfl

/-- The path of an entry is a part of the path, a slash and the name. -/
theorem entryPath_prefix (path : Bytes) (entry : Dirent) :
    ∃ init, init <+: path ∧ entryPath path entry = init ++ 47 :: entry.name := by
  rw [entryPath, separator]
  split
  · exact ⟨path, List.prefix_rfl, List.append_assoc _ _ _⟩
  · rename_i hlast
    obtain ⟨init, hinit⟩ := List.getLast?_eq_some_iff.mp (not_not.mp hlast)
    refine ⟨init, ⟨[47], hinit.symm⟩, ?_⟩
    rw [hinit, List.append_nil, List.append_assoc]
    rfl

/-- The icon's name has neither slash nor question mark, so it is in no link
that is put together from parts without it. -/
theorem favicon_notInfix_join {b : UInt8} {s t : Bytes} (hb : b ∉ faviconName)
    (hs : ¬ faviconName <:+: s) (ht : ¬ faviconName <:+: t) : ¬ faviconName <:+: s ++ b :: t := by
  rw [← find_isSome_iff] at ht ⊢
  rw [find_skip_until (by decide) hb hs]
  exact ht

section Tree

variable {host : Host} {path : Bytes}

/-- What a path of the tree is made of. -/
structure TreePath (path : Bytes) : Prop where
  slash : 47 ∈ path
  nul : 0 ∉ path
  plain : Plain path
  icon : ¬ faviconName <:+: path

theorem TreePath.verbatim (h : TreePath path) : Verbatim path where
  slash := h.slash
  nul := h.nul
  word := fun b hb => (h.plain b hb).1
  literal := h.plain.literal
  icon := h.icon

theorem TreePath.question (h : TreePath path) : TreePath (path ++ ascii "?") where
  slash := List.mem_append_left _ h.slash
  nul := by
    rw [List.mem_append, not_or]
    exact ⟨h.nul, by decide⟩
  plain := by
    have hmark : Plain (ascii "?") := by
      intro b hb
      obtain rfl : b = 63 := List.mem_singleton.mp hb
      decide
    exact plain_append h.plain hmark
  icon := favicon_notInfix_join (b := 63) (t := []) (by decide) h.icon (by decide)

theorem Tidy.treePath_entryPath (htidy : Tidy host) (hdir : Directory host path)
    (hpath : TreePath path)
    {e : Dirent} (he : e ∈ host.scandir path) : TreePath (entryPath path e) := by
  obtain ⟨init, hinit, heq⟩ := entryPath_prefix path e
  have hplain : Plain init := fun b hb => hpath.plain b (hinit.subset hb)
  have hslash : Plain [47] := by
    intro b hb
    obtain rfl : b = 47 := List.mem_singleton.mp hb
    decide
  rw [heq]
  refine ⟨by simp, ?_, ?_, ?_⟩
  · simp only [List.mem_append, List.mem_cons, not_or]
    exact ⟨fun h => hpath.nul (hinit.subset h), by decide, e.nul_notMem⟩
  · exact plain_append hplain (plain_append hslash (htidy.plain path hdir e he))
  · exact favicon_notInfix_join (by decide) (fun h => hpath.icon (h.trans hinit.isInfix))
      (htidy.icon path hdir e he)

theorem Tidy.treePath (htidy : Tidy host) (h : Directory host path) : TreePath path := by
  induction h with
  | root =>
    refine ⟨by decide, by decide, ?_, by decide⟩
    intro b hb
    obtain rfl : b = 47 := List.mem_singleton.mp hb
    decide
  | child hdir he _ _ ih => exact htidy.treePath_entryPath hdir ih he

theorem Tidy.treePath_href (htidy : Tidy host) (hdir : Directory host path) {e : Dirent}
    (he : e ∈ host.scandir path) : TreePath (href path e) := by
  have hpath := htidy.treePath_entryPath hdir (htidy.treePath hdir) he
  rw [href_eq]
  split
  · rw [List.append_nil]
    exact hpath
  · exact hpath.question

theorem Directory.length_lt (h : Directory host path) : path.length < 1024 := by
  cases h with
  | root => decide
  | child _ _ _ hlen => exact hlen

theorem Tidy.getLast?_ne (htidy : Tidy host) (h : Directory host path) :
    path.getLast? ≠ some 63 := by
  cases h with
  | root => decide
  | child hdir he htype _ =>
    rw [getLast?_entryPath]
    exact htidy.mark _ hdir _ he htype

/-- The page of a directory, and its links as they are read. -/
theorem Tidy.shows (htidy : Tidy host) (cuts : Nat → Nat) {fields : Bytes}
    (hfields : Fields fields) (hdir : Directory host path) :
    ∃ html, Shows host cuts (linkRequest path fields) html ∧
      createHTML path (host.scandir path) = .ok html ∧
      links html = (host.scandir path).map (href path) := by
  have hpath := htidy.treePath hdir
  have hpage : createHTML path (host.scandir path) =
      .ok (pageTexts path (host.scandir path)).flatten :=
    createHTML_eq_ok_iff.mpr ⟨htidy.page path hdir, rfl⟩
  refine ⟨_, (hpath.verbatim.shows_iff cuts hfields _).mpr
    ⟨hdir.length_lt, htidy.getLast?_ne hdir, hpage⟩, hpage, ?_⟩
  rw [page_links_iff hpage]
  exact ⟨fun e he => (htidy.treePath_href hdir he).plain.quote_notMem,
    mark_notInfix hpath.plain.quote_notMem⟩

section Crawl

variable {cuts : Nat → Nat} {fields link : Bytes}

theorem Tidy.known_of_directory (htidy : Tidy host) (hfields : Fields fields)
    (h : Directory host path) :
    Known host cuts fields path := by
  induction h with
  | root => exact .root
  | @child path e hdir he htype hlen ih =>
    obtain ⟨html, hshows, -, hlinks⟩ := htidy.shows cuts hfields hdir
    refine ih.follow hshows ?_
    have hhref : href path e = entryPath path e := by
      rw [href_eq, if_pos htype, List.append_nil]
    rw [hlinks, ← hhref]
    exact List.mem_map_of_mem he

/-- What a client knows is in the tree: a link that is answered with a page is
the path of a directory. -/
theorem Tidy.treeLink_of_known (htidy : Tidy host) (hfields : Fields fields)
    (h : Known host cuts fields link) :
    TreeLink host link := by
  induction h with
  | root => exact Or.inl rfl
  | @follow link html next _ hshows hnext ih =>
    have hdir : Directory host link := by
      rcases ih with rfl | ⟨path, e, hdir, he, rfl⟩
      · exact .root
      · have hverbatim := (htidy.treePath_href hdir he).verbatim
        obtain ⟨hlen, hlast, -⟩ := (hverbatim.shows_iff cuts hfields html).mp hshows
        rw [href_eq] at hlen hlast ⊢
        by_cases htype : e.dType = dtDir
        · rw [if_pos htype, List.append_nil] at hlen ⊢
          exact .child hdir he htype hlen
        · rw [if_neg htype] at hlast
          exact absurd List.getLast?_concat hlast
    obtain ⟨-, -, hpage⟩ :=
      ((htidy.treePath hdir).verbatim.shows_iff cuts hfields html).mp hshows
    obtain ⟨page, -, hsame, hlinks⟩ := htidy.shows cuts hfields hdir
    obtain rfl : page = html := Except.ok.inj (hsame.symm.trans hpage)
    rw [hlinks] at hnext
    obtain ⟨e, he, rfl⟩ := List.mem_map.mp hnext
    exact Or.inr ⟨link, e, hdir, he, rfl⟩

theorem Tidy.known_iff (htidy : Tidy host) (hfields : Fields fields) :
    Known host cuts fields link ↔ TreeLink host link := by
  refine ⟨htidy.treeLink_of_known hfields, ?_⟩
  rintro (rfl | ⟨path, e, hdir, he, rfl⟩)
  · exact .root
  · obtain ⟨html, hshows, -, hlinks⟩ := htidy.shows cuts hfields hdir
    refine (htidy.known_of_directory hfields hdir).follow hshows ?_
    rw [hlinks]
    exact List.mem_map_of_mem he

/-- A client that follows the links from the root gets to know the links of the
tree and no others, each directory as the page of its entries in order, and
each file that can be announced as its content. -/
theorem crawl_reads_tree (htidy : Tidy host) (hfields : Fields fields) :
    (∀ link, Known host cuts fields link ↔ TreeLink host link) ∧
    (∀ path, Directory host path → ∃ html, Shows host cuts (linkRequest path fields) html ∧
      links html = (host.scandir path).map (href path)) ∧
    ∀ path e content, Directory host path → e ∈ host.scandir path → e.dType ≠ dtDir →
      host.fopen (entryPath path e) = some (.ofFile content) →
      content.length ≤ intMax → (href path e).length < 1024 →
      (decimal content.length).length + e.name.length + 123 < 1024 →
      ∃ effects rest, clientThread host cuts (linkRequest (href path e) fields) =
          .ok (effects, rest) ∧
        Serves host (entryPath path e) e.name effects (.file content) := by
  refine ⟨fun link => htidy.known_iff hfields, fun path hdir => ?_, ?_⟩
  · obtain ⟨html, hshows, -, hlinks⟩ := htidy.shows cuts hfields hdir
    exact ⟨html, hshows, hlinks⟩
  · intro path e content hdir he htype hopen hsize hlen hheader
    have hlink := htidy.treePath_href hdir he
    have hslash := (htidy.treePath_entryPath hdir (htidy.treePath hdir) he).slash
    have hhref : href path e = entryPath path e ++ ascii "?" := by
      rw [href_eq, if_neg htype]
    rw [hlink.verbatim.clientThread_iff cuts hfields]
    refine ⟨hlen, ?_⟩
    have hfile := serveGet_file hlink.nul hslash hopen
    dsimp only at hfile
    rw [rtakeWhile_entryPath, length_downloadHeader] at hfile
    exact hfile.mpr ⟨hhref, hlink.icon, hsize, hheader⟩

/-- A link that is too long for its array is copied beyond it. -/
theorem Verbatim.overflow (hlink : Verbatim link) (hfields : Fields fields)
    (hlong : 1024 ≤ link.length) (hshort : link.length ≤ 2000) :
    clientThread host cuts (linkRequest link fields) = .error (.overflow .path) := by
  obtain ⟨body, rest, hread, hnul, hfound, hbody⟩ :=
    readHeader_link hlink.nul hfields.nul_notMem hfields.ends
  have hlen : (ascii "GET " ++ body).length ≤ intMax := by
    have hsplit := readHeader_eq_split_of_notMem
      (nul_notMem_linkRequest hlink.nul hfields.nul_notMem)
    have hle := length_split_linkRequest_le link fields
    have hcount := hfields.length_le
    rw [← hsplit, hread] at hle
    exact hle.trans (by omega)
  have hblack : ∃ b ∈ link, isspace b = false := ⟨47, hlink.slash, by decide⟩
  have htoken : (scanToken body).1 = link := by
    rcases token_link hblack hfound hbody with ⟨h, -⟩ | h
    · exact absurd (hlink.word 13 h) (by decide)
    · rw [h, scanToken_self hlink.word]
  have hsome : (strstr (ascii "GET " ++ body) headerEnd).isNone = false := by
    rw [strstr, cstr_eq_self hnul, Option.isNone_eq_false_iff, find_isSome_iff]
    exact hfound
  have hline : requestLine (ascii "GET " ++ body) = .error (.overflow .path) := by
    have hnot : ¬ (scanToken body).1.length < 1024 := by
      rw [htoken]
      omega
    have heq := requestLine_eq (ascii "GET") body (by decide) (by decide) (by decide) hnul
    rw [if_neg hnot] at heq
    exact heq
  rw [clientThread, requestLoop_eq, hread, if_pos hlen]
  show (if (strstr (ascii "GET " ++ body) headerEnd).isNone = true then _ else _) = _
  rw [hsome]
  show (requestLine (ascii "GET " ++ body) >>= _) = _
  rw [hline]
  rfl

/-- Every directory lists itself as `.`, as `scandir` has it. -/
def ListsDot (host : Host) : Prop :=
  ∀ path, Directory host path → ∃ e ∈ host.scandir path, e.name = ascii "." ∧ e.dType = dtDir

theorem length_lt_entryPath (path : Bytes) (entry : Dirent) :
    path.length < (entryPath path entry).length := by
  have hname := List.length_pos_of_ne_nil entry.name_ne
  rw [entryPath, List.length_append, List.length_append]
  omega

/-- The paths through `.` grow until they do not fit. -/
theorem ListsDot.exists_long (hdots : ListsDot host) :
    ∃ path, Directory host path ∧ ∃ e ∈ host.scandir path, e.name = ascii "." ∧
      e.dType = dtDir ∧ 1024 ≤ (entryPath path e).length := by
  by_contra hnone
  have hgrow : ∀ n, ∃ path, Directory host path ∧ n ≤ path.length := by
    intro n
    induction n with
    | zero => exact ⟨_, .root, Nat.zero_le _⟩
    | succ n ih =>
      obtain ⟨path, hdir, hn⟩ := ih
      obtain ⟨e, he, hdot, htype⟩ := hdots path hdir
      have hfits : (entryPath path e).length < 1024 := by
        by_contra hlong
        exact hnone ⟨path, hdir, e, he, hdot, htype, Nat.le_of_not_lt hlong⟩
      have hlt := length_lt_entryPath path e
      exact ⟨entryPath path e, .child hdir he htype hfits, by omega⟩
  obtain ⟨path, hdir, hlong⟩ := hgrow 1024
  have hshort := hdir.length_lt
  omega

/-- A client that follows every link ends up with one that overruns `path`. -/
theorem crawl_overflows (htidy : Tidy host) (hdots : ListsDot host) (hfields : Fields fields) :
    ∃ link, Known host cuts fields link ∧
      clientThread host cuts (linkRequest link fields) = .error (.overflow .path) := by
  obtain ⟨path, hdir, e, he, hdot, htype, hlong⟩ := hdots.exists_long
  have hhref : href path e = entryPath path e := by
    rw [href_eq, if_pos htype, List.append_nil]
  refine ⟨href path e, (htidy.known_iff hfields).mpr (Or.inr ⟨path, e, hdir, he, rfl⟩), ?_⟩
  have hshort : (entryPath path e).length ≤ 2000 := by
    have hlt := hdir.length_lt
    have hsep : (separator path).length ≤ 1 := by
      rw [separator]
      split
      · decide
      · exact Nat.zero_le _
    rw [entryPath, hdot, List.length_append, List.length_append]
    show path.length + (separator path).length + 1 ≤ 2000
    omega
  rw [← hhref] at hlong hshort
  exact (htidy.treePath_href hdir he).verbatim.overflow hfields hlong hshort

end Crawl

end Tree

/-- Every directory of this host is the same. -/
def dottedHost : Host where
  scandir := fun _ => dotted
  fopen := fun _ => some (.ofFile [120])
  creates := fun _ => false
  verify := fun _ => none

theorem tidy_dottedHost : Tidy dottedHost where
  plain := by
    have h : ∀ e ∈ dotted, Plain e.name := by
      unfold Plain
      decide +kernel
    exact fun _ _ => h
  icon := by
    have h : ∀ e ∈ dotted, ¬ faviconName <:+: e.name := by decide +kernel
    exact fun _ _ => h
  mark := by
    have h : ∀ e ∈ dotted, e.dType = dtDir → e.name.getLast? ≠ some 63 := by decide +kernel
    exact fun _ _ => h
  page := fun _ h => pageSize_dotted_lt h.length_lt

/-- The empty line alone. -/
theorem noFields : Fields (ascii "\r\n") := ⟨by decide, by decide, by decide⟩

theorem crawl_reads_tree_dotted :
    Known dottedHost (fun _ => 1) (ascii "\r\n") (ascii "/a?") ∧
      ∃ effects rest, clientThread dottedHost (fun _ => 1)
          (linkRequest (ascii "/a?") (ascii "\r\n")) = .ok (effects, rest) ∧
        Serves dottedHost (ascii "/a") (ascii "a") effects (.file [120]) := by
  obtain ⟨hknown, -, hfiles⟩ := crawl_reads_tree tidy_dottedHost noFields
  have hfile : dotted[1] ∈ dotted := List.getElem_mem _
  constructor
  · exact (hknown _).mpr (Or.inr ⟨_, dotted[1], .root, hfile, rfl⟩)
  · exact hfiles (ascii "/") dotted[1] [120] .root hfile (by decide) rfl (by decide) (by decide)
      (by decide)

theorem crawl_overflows_dotted :
    ∃ link, Known dottedHost (fun _ => 1) (ascii "\r\n") link ∧
      clientThread dottedHost (fun _ => 1) (linkRequest link (ascii "\r\n")) =
        .error (.overflow .path) :=
  crawl_overflows tidy_dottedHost (fun _ _ => ⟨dotted[0], List.mem_cons_self, rfl, rfl⟩)
    noFields

end Np20
end NetLab
