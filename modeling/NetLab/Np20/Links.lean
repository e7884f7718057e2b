import NetLab.Np20.HeaderLoops

/-!
# Links of the listing

The page of a directory links each entry by its path, with a question mark
behind everything that is no directory.  Requested again, a link goes through
the request line, the decoder and the tests of the GET branch.
-/

namespace NetLab
namespace Np20

open CString

/-- What stands under the path of an entry. -/
inductive Node where
  | directory
  | file (content : Bytes)

/-- An entry of a directory that is shown, and what the file system says of it:
what is typed as a directory is one, and what is no directory is a file that can
be read. -/
structure Linked (host : Host) where
  path : Bytes
  entry : Dirent
  node : Node
  path_ne : path ≠ []
  nul_notMem : 0 ∉ path
  short : (entryPath path entry).length < 1000
  listed : entry ∈ host.scandir path
  stands : ∀ content, node = .file content →
    entry.dType ≠ dtDir ∧ host.fopen (entryPath path entry) = some (.ofFile content)

/-- The link requested verbatim, with what follows the request line. -/
def linkRequest (link fields : Bytes) : Bytes :=
  ascii "GET " ++ link ++ ascii " HTTP/1.1\r\n" ++ fields

/-- The directory `target` is listed, or the file `target` is sent. -/
def Serves (host : Host) (target name : Bytes) (effects : List Effect) : Node → Prop
  | .directory => ∃ html, createHTML target (host.scandir target) = .ok html ∧
      effects = [.scandir target, .send (okHeader html.length (ascii "text/html")), .send html]
  | .file content => ∃ blocks : List Bytes, blocks.flatten = content ∧
      effects = .openRead target :: .send (downloadHeader content.length name) ::
        blocks.map .send

/-- The request ends with exactly the entry being served. -/
def Resolves {host : Host} (l : Linked host) (cuts : Nat → Nat) (stream : Bytes) : Prop :=
  ∃ effects rest, clientThread host cuts stream = .ok (effects, rest) ∧
    Serves host (entryPath l.path l.entry) l.entry.name effects l.node

/-- What the tests of the GET branch and the sizes leave through. -/
def Servable (host : Host) (target name : Bytes) (dType : UInt8) : Node → Prop
  | .directory => dType = dtDir ∧ name.getLast? ≠ some 63 ∧
      pageSize target (host.scandir target) < intMax
  | .file content => content.length ≤ intMax ∧
      (decimal content.length).length + name.length + 123 < 1024

/-- The link is one word without anything to decode, it does not mention the
icon, and the entry can be served. -/
def Resolvable {host : Host} (l : Linked host) : Prop :=
  let link := href l.path l.entry
  IsWord link ∧ Literal link ∧ ¬ faviconName <:+: link ∧
    Servable host (entryPath l.path l.entry) l.entry.name l.entry.dType l.node

/-! ## The download loop -/

theorem length_blocks_le {content data : Bytes} (h : data ∈ (Opened.ofFile content).freads) :
    data.length ≤ blockSize := by
  obtain ⟨k, -, rfl⟩ := List.mem_map.mp h
  exact Blocks.length_block_le _ _ _

/-- A file that has the announced length is sent completely. -/
theorem downloadLoop_all (freads : List Bytes) :
    ∀ read : Nat, read + freads.flatten.length ≤ intMax →
      ∃ blocks, downloadLoop ((read + freads.flatten.length : Nat) : Int) read freads =
        .ok blocks ∧ blocks.flatten = freads.flatten := by
  induction freads with
  | nil =>
    intro read _
    have hnot : ¬ (read : Int) < ((read + ([] : List Bytes).flatten.length : Nat) : Int) := by
      rw [List.flatten_nil, List.length_nil]
      omega
    exact ⟨[], by rw [downloadLoop, if_neg hnot], rfl⟩
  | cons data more ih =>
    intro read hmax
    rw [List.flatten_cons, List.length_append] at hmax ⊢
    have hshift : read + (data.length + more.flatten.length) =
        read + data.length + more.flatten.length := by omega
    rw [hshift] at hmax ⊢
    by_cases hlt : (read : Int) < ((read + data.length + more.flatten.length : Nat) : Int)
    · have hfits : (read : Int) + data.length ≤ intMax := by omega
      obtain ⟨blocks, hloop, hblocks⟩ := ih (read + data.length) hmax
      refine ⟨data :: blocks, ?_, by rw [List.flatten_cons, hblocks]⟩
      rw [downloadLoop, if_pos hlt, if_pos hfits]
      show (downloadLoop _ ((read + data.length : Nat) : Int) more >>= _) = _
      rw [hloop]
      rfl
    · have hdata : data = [] := List.eq_nil_of_length_eq_zero (by omega)
      have hmore : more.flatten = [] := List.eq_nil_of_length_eq_zero (by omega)
      refine ⟨[], by rw [downloadLoop, if_neg hlt], ?_⟩
      rw [hdata, hmore]
      rfl

theorem downloadLoop_whole {content : Bytes} (hlen : content.length ≤ intMax) :
    ∃ blocks, downloadLoop (toInt32 content.length) 0 (Opened.ofFile content).freads =
      .ok blocks ∧ blocks.flatten = content := by
  have hflat := flatten_freads content
  have hmax : 0 + (Opened.ofFile content).freads.flatten.length ≤ intMax := by
    rw [hflat, Nat.zero_add]
    exact hlen
  have hall := downloadLoop_all (Opened.ofFile content).freads 0 hmax
  rw [hflat, Nat.zero_add] at hall
  rw [toInt32_of_le hlen]
  exact hall

/-- The loop stops within a block of the announced length. -/
theorem downloadLoop_le {len : Int} (freads : List Bytes) :
    ∀ {read : Int} {blocks : List Bytes}, (∀ data ∈ freads, data.length ≤ blockSize) →
      downloadLoop len read freads = .ok blocks →
      blocks = [] ∨ read + blocks.flatten.length < len + blockSize := by
  induction freads with
  | nil =>
    intro read blocks _ hloop
    rw [downloadLoop] at hloop
    split at hloop
    · contradiction
    · exact Or.inl (Except.ok.inj hloop).symm
  | cons data more ih =>
    intro read blocks hsize hloop
    rw [downloadLoop] at hloop
    split at hloop
    · rename_i hlt
      split at hloop
      · obtain ⟨sent, hsent, heq⟩ := bind_eq_ok.mp hloop
        have hdata := hsize data List.mem_cons_self
        rw [← Except.ok.inj heq]
        right
        rw [List.flatten_cons, List.length_append]
        rcases ih (fun d hd => hsize d (List.mem_cons_of_mem data hd)) hsent with hnil | hle
        · rw [hnil, List.flatten_nil, List.length_nil]
          omega
        · omega
      · contradiction
    · exact Or.inl (Except.ok.inj hloop).symm

/-- A file whose length is no `int` is not sent completely. -/
theorem downloadLoop_short {content : Bytes} {blocks : List Bytes} (hlong : intMax < content.length)
    (hloop : downloadLoop (toInt32 content.length) 0 (Opened.ofFile content).freads = .ok blocks) :
    blocks.flatten ≠ content := by
  intro heq
  have hcut := toInt32_le_sub hlong
  have hb : blockSize = 1048576 := rfl
  have hmax : intMax = 2147483647 := rfl
  rcases downloadLoop_le _ (fun d hd => length_blocks_le hd) hloop with hnil | hle
  · rw [hnil] at heq
    rw [← heq] at hlong
    exact absurd hlong (by decide)
  · rw [heq] at hle
    omega

/-! ## The branches of GET -/

theorem length_okHeader (n : Int) (contentType : Bytes) :
    (okHeader n contentType).length = (decimal n).length + contentType.length + 53 := by
  have hstatus : (ascii "HTTP/1.1 200 OK\r\nContent-Length: ").length = 33 := rfl
  have htype : (ascii "\r\nContent-Type: ").length = 16 := rfl
  have hend : (ascii "\r\n\r\n").length = 4 := rfl
  simp only [okHeader, List.length_append]
  omega

/-- With a length that is an `int` the header fits `ok`. -/
theorem okHeader_fits {n : Nat} (h : n ≤ intMax) {contentType : Bytes}
    (htype : contentType.length ≤ 900) : (okHeader n contentType).length < 1024 := by
  have hdigits : (decimal n).length ≤ 10 := length_decimal_le (by decide) (by
    rw [intMax] at h
    omega)
  rw [length_okHeader]
  omega

theorem length_downloadHeader (n : Int) (name : Bytes) :
    (downloadHeader n name).length = (decimal n).length + name.length + 123 := by
  have hstatus : (ascii "HTTP/1.1 200 OK\r\nContent-Length: ").length = 33 := rfl
  have htype : (ascii "\r\nContent-Type: application/octet-stream").length = 40 := rfl
  have hname : (ascii "\r\nContent-Disposition: attachment; filename=\"").length = 45 := rfl
  have hend : (ascii "\"\r\n\r\n").length = 5 := rfl
  simp only [downloadHeader, List.length_append]
  omega

theorem sendFavicon_head {host : Host} {effects : List Effect}
    (h : sendFavicon host = .ok effects) : effects.head? = some (.openRead faviconName) := by
  rw [sendFavicon] at h
  split at h
  · rw [← Except.ok.inj h]
    rfl
  · rename_i f _
    dsimp only at h
    split at h
    · contradiction
    · obtain ⟨ok, -, heq⟩ := bind_eq_ok.mp h
      rw [← Except.ok.inj heq]
      rfl

theorem sendFile_head {host : Host} {path : Bytes} {effects : List Effect}
    (h : sendFile host path = .ok effects) : effects.head? = some (.openRead path) := by
  rw [sendFile] at h
  split at h
  · rw [← Except.ok.inj h]
    rfl
  · obtain ⟨response, -, h⟩ := bind_eq_ok.mp h
    obtain ⟨sent, -, heq⟩ := bind_eq_ok.mp h
    rw [← Except.ok.inj heq]
    rfl

/-- A directory is listed as long as its page has a length. -/
theorem sendListing_ok {host : Host} {path : Bytes}
    (hsize : pageSize path (host.scandir path) < intMax) :
    ∃ html, createHTML path (host.scandir path) = .ok html ∧ sendListing host path =
      .ok [.scandir path, .send (okHeader html.length (ascii "text/html")), .send html] := by
  obtain ⟨html, hhtml⟩ : ∃ html, html = (pageTexts path (host.scandir path)).flatten := ⟨_, rfl⟩
  have hpage : createHTML path (host.scandir path) = .ok html := by
    rw [createHTML_eq, if_pos hsize, hhtml]
  have hlen : html.length ≤ intMax := by
    rw [hhtml, length_pageTexts]
    omega
  refine ⟨html, hpage, ?_⟩
  rw [sendListing, hpage]
  show (Buffer.ok.put _ >>= _) = _
  rw [Buffer.put_of_lt (okHeader_fits hlen (by decide))]
  rfl

theorem sendListing_error {host : Host} {path : Bytes}
    (hsize : ¬ pageSize path (host.scandir path) < intMax) :
    sendListing host path = .error .pageLength := by
  rw [sendListing, createHTML_eq, if_neg hsize]
  rfl

theorem sendListing_head {host : Host} {path : Bytes} {effects : List Effect}
    (h : sendListing host path = .ok effects) : effects.head? = some (.scandir path) := by
  obtain ⟨html, -, h⟩ := bind_eq_ok.mp h
  obtain ⟨ok, -, heq⟩ := bind_eq_ok.mp h
  rw [← Except.ok.inj heq]
  rfl

/-- A regular file is sent completely unless its length is no `int` or its
header does not fit. -/
theorem sendFile_file {host : Host} {path content : Bytes}
    (hopen : host.fopen path = some (.ofFile content)) :
    let name := path.rtakeWhile (· ≠ 47)
    (∃ effects, sendFile host path = .ok effects ∧ Serves host path name effects (.file content)) ↔
      content.length ≤ intMax ∧ (downloadHeader content.length name).length < 1024 := by
  intro name
  constructor
  · rintro ⟨effects, heffects, blocks, hblocks, hserves⟩
    obtain ⟨hfits, sent, hsent, rfl⟩ := (sendFile_eq_ok_iff hopen).mp heffects
    rw [List.cons.injEq, List.cons.injEq] at hserves
    obtain ⟨-, -, hsends⟩ := hserves
    have hinj : Function.Injective Effect.send := fun a b h => Effect.send.inj h
    have hlen : content.length ≤ intMax := by
      by_contra hlong
      refine downloadLoop_short (Nat.lt_of_not_le hlong) hsent ?_
      rw [(List.map_injective_iff.mpr hinj) hsends, hblocks]
    rw [toInt32_of_le hlen] at hfits
    exact ⟨hlen, hfits⟩
  · rintro ⟨hlen, hfits⟩
    obtain ⟨blocks, hloop, hblocks⟩ := downloadLoop_whole hlen
    refine ⟨.openRead path :: .send (downloadHeader content.length name) :: blocks.map .send, ?_,
      blocks, hblocks, rfl⟩
    rw [toInt32_of_le hlen] at hloop
    rw [sendFile_eq_ok_iff hopen, toInt32_of_le hlen]
    exact ⟨hfits, blocks, hloop, rfl⟩

/-- A path that mentions the icon serves the icon, and its directory part is
never served. -/
theorem not_serves_favicon {host : Host} {target name : Bytes} {node : Node}
    {effects : List Effect} (hslash : 47 ∈ target) (h : sendFavicon host = .ok effects) :
    ¬ Serves host target name effects node := by
  intro hserves
  have hhead := sendFavicon_head h
  cases node with
  | directory =>
    obtain ⟨html, -, rfl⟩ := hserves
    exact absurd hhead (by simp)
  | file content =>
    obtain ⟨blocks, -, rfl⟩ := hserves
    rw [List.head?_cons, Option.some.injEq, Effect.openRead.injEq] at hhead
    rw [hhead] at hslash
    exact absurd hslash (by decide)

/-- The four ways of the GET branch: the icon, a directory, a file, and the
fault on an empty path. -/
theorem serveGet_eq_ok_iff {host : Host} {path : Bytes} (hnul : 0 ∉ path)
    {effects : List Effect} :
    serveGet host path = .ok effects ↔
      faviconName <:+: path ∧ sendFavicon host = .ok effects ∨
      ¬ faviconName <:+: path ∧ path ≠ [] ∧ path.getLast? ≠ some 63 ∧
        sendListing host path = .ok effects ∨
      ¬ faviconName <:+: path ∧ ∃ init, path = init ++ [63] ∧ sendFile host init = .ok effects := by
  have hicon : (strstr path faviconName).isSome ↔ faviconName <:+: path := by
    rw [strstr, cstr_eq_self hnul, find_isSome_iff]
  rw [serveGet]
  by_cases hfavicon : faviconName <:+: path
  · rw [if_pos (hicon.mpr hfavicon), or_iff_left, and_iff_right hfavicon]
    rintro (⟨hnot, -⟩ | ⟨hnot, -⟩)
    · exact hnot hfavicon
    · exact hnot hfavicon
  · rw [if_neg fun h => hfavicon (hicon.mp h), or_iff_right fun h => hfavicon h.1,
      and_iff_right hfavicon, and_iff_right hfavicon]
    rcases List.eq_nil_or_concat' path with rfl | ⟨init, last, rfl⟩
    · simp
    · by_cases hmark : last = 63
      · simp [hmark]
      · simp [hmark]

/-- The GET branch lists exactly the path it is given. -/
theorem serveGet_directory {host : Host} {path target : Bytes} (hnul : 0 ∉ path)
    (hslash : 47 ∈ target) (name : Bytes) :
    (∃ effects, serveGet host path = .ok effects ∧
        Serves host target name effects .directory) ↔
      path = target ∧ ¬ faviconName <:+: path ∧ path.getLast? ≠ some 63 ∧
        pageSize target (host.scandir target) < intMax := by
  constructor
  · rintro ⟨effects, heffects, hserves⟩
    rcases (serveGet_eq_ok_iff hnul).mp heffects with
      ⟨-, h⟩ | ⟨hicon, -, hlast, h⟩ | ⟨-, init, -, h⟩
    · exact absurd hserves (not_serves_favicon hslash h)
    · have hhead := sendListing_head h
      obtain ⟨html, -, rfl⟩ := hserves
      obtain rfl : target = path := Effect.scandir.inj (Option.some.inj hhead)
      refine ⟨rfl, hicon, hlast, ?_⟩
      by_contra hsize
      rw [sendListing_error hsize] at h
      contradiction
    · have hhead := sendFile_head h
      obtain ⟨html, -, rfl⟩ := hserves
      exact absurd hhead (by simp)
  · rintro ⟨rfl, hicon, hlast, hsize⟩
    obtain ⟨html, hhtml, h⟩ := sendListing_ok hsize
    have hne : path ≠ [] := List.ne_nil_of_mem hslash
    exact ⟨_, (serveGet_eq_ok_iff hnul).mpr (Or.inr (Or.inl ⟨hicon, hne, hlast, h⟩)), html, hhtml,
      rfl⟩

/-- The GET branch sends exactly the file whose path stands before the question
mark. -/
theorem serveGet_file {host : Host} {path target content : Bytes} (hnul : 0 ∉ path)
    (hslash : 47 ∈ target) (hopen : host.fopen target = some (.ofFile content)) :
    let name := target.rtakeWhile (· ≠ 47)
    (∃ effects, serveGet host path = .ok effects ∧
        Serves host target name effects (.file content)) ↔
      path = target ++ ascii "?" ∧ ¬ faviconName <:+: path ∧ content.length ≤ intMax ∧
        (downloadHeader content.length name).length < 1024 := by
  intro name
  constructor
  · rintro ⟨effects, heffects, hserves⟩
    rcases (serveGet_eq_ok_iff hnul).mp heffects with
      ⟨-, h⟩ | ⟨-, -, -, h⟩ | ⟨hicon, init, hpath, h⟩
    · exact absurd hserves (not_serves_favicon hslash h)
    · have hhead := sendListing_head h
      obtain ⟨blocks, -, rfl⟩ := hserves
      exact absurd hhead (by simp)
    · have htarget : target = init := by
        have hhead := sendFile_head h
        obtain ⟨blocks, -, rfl⟩ := hserves
        exact Effect.openRead.inj (Option.some.inj hhead)
      rw [← htarget] at hpath h
      exact ⟨hpath, hicon, (sendFile_file hopen).mp ⟨effects, h, hserves⟩⟩
  · rintro ⟨hpath, hicon, hsizes⟩
    obtain ⟨effects, h, hserves⟩ := (sendFile_file hopen).mpr hsizes
    exact ⟨effects, (serveGet_eq_ok_iff hnul).mpr (Or.inr (Or.inr ⟨hicon, target, hpath, h⟩)),
      hserves⟩

/-! ## The path of an entry -/

theorem entryPath_split (path : Bytes) (entry : Dirent) :
    ∃ init, entryPath path entry = init ++ 47 :: entry.name := by
  rw [entryPath, separator]
  split
  · exact ⟨path, List.append_assoc _ _ _⟩
  · rename_i hlast
    obtain ⟨init, hinit⟩ := List.getLast?_eq_some_iff.mp (not_not.mp hlast)
    refine ⟨init, ?_⟩
    rw [hinit, List.append_nil, List.append_assoc]
    rfl

theorem rtakeWhile_entryPath (path : Bytes) (entry : Dirent) :
    (entryPath path entry).rtakeWhile (· ≠ 47) = entry.name := by
  obtain ⟨init, hinit⟩ := entryPath_split path entry
  have hname : ∀ b ∈ entry.name.reverse, decide (b ≠ 47) = true := by
    intro b hb
    have hne : b ≠ 47 := fun heq => entry.slash_notMem (heq ▸ List.mem_reverse.mp hb)
    exact decide_eq_true hne
  rw [hinit, List.rtakeWhile, List.reverse_append, List.reverse_cons, List.append_assoc,
    List.takeWhile_append_of_pos hname]
  show (entry.name.reverse ++ []).reverse = entry.name
  rw [List.append_nil, List.reverse_reverse]

theorem getLast?_entryPath (path : Bytes) (entry : Dirent) :
    (entryPath path entry).getLast? = entry.name.getLast? := by
  obtain ⟨init, hinit⟩ := entryPath_split path entry
  obtain ⟨b, name, hname⟩ := List.exists_cons_of_ne_nil entry.name_ne
  rw [hinit, hname, List.getLast?_append, List.getLast?_cons_cons, List.getLast?_cons]
  rfl

namespace Linked

variable {host : Host} (l : Linked host)

theorem slash_mem : 47 ∈ entryPath l.path l.entry := by
  obtain ⟨init, hinit⟩ := entryPath_split l.path l.entry
  rw [hinit]
  exact List.mem_append_right init List.mem_cons_self

theorem nul_notMem_entryPath : 0 ∉ entryPath l.path l.entry := by
  rw [entryPath, List.mem_append, List.mem_append]
  rintro ((h | h) | h)
  · exact l.nul_notMem h
  · rw [separator] at h
    split at h
    · exact absurd h (by decide)
    · contradiction
  · exact l.entry.nul_notMem h

theorem nul_notMem_href : 0 ∉ href l.path l.entry := by
  rw [href_eq, List.mem_append]
  rintro (h | h)
  · exact l.nul_notMem_entryPath h
  · split at h
    · contradiction
    · exact absurd h (by decide)

theorem length_href_le : (href l.path l.entry).length ≤ 1000 := by
  have hshort := l.short
  have hmark : (if l.entry.dType = dtDir then [] else ascii "?").length ≤ 1 := by
    split
    · decide
    · decide
  rw [href_eq, List.length_append]
  omega

end Linked

/-! ## The link as a request -/

theorem nul_notMem_linkRequest {link fields : Bytes} (hlink : 0 ∉ link) (hfields : 0 ∉ fields) :
    0 ∉ linkRequest link fields := by
  rw [linkRequest]
  simp only [List.mem_append, not_or]
  exact ⟨⟨⟨by decide, hlink⟩, by decide⟩, hfields⟩

/-- What the request loop reads starts with the method and goes on with a part
of the request that ends in an empty line. -/
theorem readHeader_link {link fields : Bytes} (hlink : 0 ∉ link) (hfields : 0 ∉ fields)
    (hend : headerEnd <:+: ascii "\r\n" ++ fields) :
    ∃ body rest, readHeader [] (linkRequest link fields) = (ascii "GET " ++ body, rest) ∧
      0 ∉ ascii "GET " ++ body ∧ headerEnd <:+: ascii "GET " ++ body ∧
      body <+: link ++ (ascii " HTTP/1.1\r\n" ++ fields) := by
  have hnul : 0 ∉ [] ++ linkRequest link fields := nul_notMem_linkRequest hlink hfields
  have hinfix : headerEnd <:+: [] ++ linkRequest link fields := by
    have hversion : ascii " HTTP/1.1\r\n" = ascii " HTTP/1.1" ++ ascii "\r\n" := rfl
    rw [List.nil_append, linkRequest, hversion, ← List.append_assoc, List.append_assoc _ _ fields]
    exact hend.trans (List.suffix_append _ _).isInfix
  have happend := readHeader_append [] (linkRequest link fields)
  have hfound := readHeader_found [] hnul hinfix
  obtain ⟨⟨header, rest⟩, hread⟩ : ∃ r, readHeader [] (linkRequest link fields) = r := ⟨_, rfl⟩
  rw [hread] at happend hfound
  rw [List.nil_append] at happend hnul
  have hwhole : header <+: ascii "GET " ++ (link ++ (ascii " HTTP/1.1\r\n" ++ fields)) := by
    rw [← List.append_assoc, ← List.append_assoc]
    exact ⟨rest, happend⟩
  rcases List.prefix_or_prefix_of_prefix hwhole (List.prefix_append (ascii "GET ") _) with
    hshort | ⟨body, hbody⟩
  · exact absurd (hfound.trans hshort.isInfix) (by decide)
  · rw [← hbody] at hread hfound hwhole
    refine ⟨body, rest, hread, fun hmem => hnul ?_, hfound,
      (List.prefix_append_right_inj _).mp hwhole⟩
    rw [← happend, ← hbody]
    exact List.mem_append_left _ hmem

/-- The token of the request line is that of the link, except where an empty
line inside the link ends the header. -/
theorem token_link {link body rest : Bytes} (hblack : ∃ b ∈ link, isspace b = false)
    (hend : headerEnd <:+: ascii "GET " ++ body)
    (hbody : body <+: link ++ (ascii " HTTP/1.1\r\n" ++ rest)) :
    13 ∈ link ∧ (scanToken body).1.length + 3 ≤ link.length ∨
      (scanToken body).1 = (scanToken link).1 := by
  rcases List.prefix_or_prefix_of_prefix hbody (List.prefix_append link _) with hcut | ⟨t, rfl⟩
  · left
    have hmem : (13 : UInt8) ∈ ascii "GET " ++ body :=
      hend.sublist.subset (show (13 : UInt8) ∈ headerEnd by decide)
    have hbody13 : (13 : UInt8) ∈ body := by
      rcases List.mem_append.mp hmem with h | h
      · exact absurd h (by decide)
      · exact h
    have hcount := hend.countP_le (p := isspace)
    have htoken := length_scanToken_add_countP_le body
    have hlen := hcut.length_le
    rw [List.countP_append] at hcount
    have hfour : headerEnd.countP isspace = 4 := by decide
    have hone : (ascii "GET ").countP isspace = 1 := by decide
    exact ⟨hcut.subset hbody13, by omega⟩
  · right
    refine scanToken_append hblack ?_
    intro c hc
    cases t with
    | nil => contradiction
    | cons b t =>
      obtain rfl : b = c := Option.some.inj hc
      have hb := (List.prefix_append_right_inj _).mp hbody
      obtain rfl : b = 32 := (List.cons_prefix_cons.mp hb).1
      decide

/-- What a client thread does with a link depends on its token only, as long as
the header is counted. -/
theorem clientThread_link (host : Host) (cuts : Nat → Nat) {link fields : Bytes}
    (hlink : 0 ∉ link) (hfields : 0 ∉ fields) (hend : headerEnd <:+: ascii "\r\n" ++ fields)
    (hlen : (Message.split (linkRequest link fields)).1.length ≤ intMax)
    (hblack : ∃ b ∈ link, isspace b = false) :
    ∃ token, (13 ∈ link ∧ token.length + 3 ≤ link.length ∨ token = (scanToken link).1) ∧
      ∀ P : List Effect → Prop,
        (∃ effects rest, clientThread host cuts (linkRequest link fields) = .ok (effects, rest) ∧
            P effects) ↔
          token.length < 1024 ∧
            ∃ effects, serveGet host (cstr (urlDecode token)) = .ok effects ∧ P effects := by
  obtain ⟨body, rest, hread, hnul, hfound, hbody⟩ := readHeader_link hlink hfields hend
  refine ⟨(scanToken body).1, token_link hblack hfound hbody, fun P => ?_⟩
  rw [← readHeader_eq_split_of_notMem (nul_notMem_linkRequest hlink hfields), hread] at hlen
  have hsome : (strstr (ascii "GET " ++ body) headerEnd).isNone = false := by
    rw [strstr, cstr_eq_self hnul, Option.isNone_eq_false_iff, find_isSome_iff]
    exact hfound
  have hline := requestLine_eq (ascii "GET") body (by decide) (by decide) (by decide) hnul
  have hthread : clientThread host cuts (linkRequest link fields) = (do
      let line ← requestLine (ascii "GET " ++ body)
      if line.1 = ascii "GET" then
        let effects ← serveGet host line.2
        return (effects, rest)
      else if line.1 = ascii "POST" then
        servePost host cuts (ascii "GET " ++ body) line.2 rest
      else return ([], rest)) := by
    rw [clientThread, requestLoop_eq, hread, if_pos hlen]
    show (if (strstr (ascii "GET " ++ body) headerEnd).isNone = true then _ else _) = _
    rw [hsome]
    rfl
  have hget : requestLine (ascii "GET " ++ body) =
      if (scanToken body).1.length < 1024 then
        .ok (ascii "GET", cstr (urlDecode (scanToken body).1))
      else .error (.overflow .path) := hline
  rw [hthread, hget]
  by_cases hfits : (scanToken body).1.length < 1024
  · rw [if_pos hfits]
    show (∃ effects r, (serveGet host _ >>= _) = _ ∧ _) ↔ _
    constructor
    · rintro ⟨effects, r, heq, hP⟩
      obtain ⟨served, hserved, heq⟩ := bind_eq_ok.mp heq
      obtain ⟨rfl, -⟩ := Prod.mk.inj (Except.ok.inj heq)
      exact ⟨hfits, served, hserved, hP⟩
    · rintro ⟨-, effects, hserved, hP⟩
      refine ⟨effects, rest, ?_, hP⟩
      rw [hserved]
      rfl
  · rw [if_neg hfits]
    refine iff_of_false ?_ fun h => hfits h.1
    rintro ⟨effects, r, heq, -⟩
    contradiction

/-! ## From the link to the entry -/

/-- The decoded token is the link itself exactly where the link is one word with
nothing to decode. -/
theorem path_eq_link_iff {link token : Bytes} (hnul : 0 ∉ link) (hlen : link.length < 1024)
    (htoken : 13 ∈ link ∧ token.length + 3 ≤ link.length ∨ token = (scanToken link).1) :
    token.length < 1024 ∧ cstr (urlDecode token) = link ↔
      IsWord link ∧ Literal link := by
  have hle : (cstr (urlDecode token)).length ≤ token.length :=
    Nat.le_trans (length_cstr_le _) (length_urlDecode_le token)
  constructor
  · rintro ⟨-, heq⟩
    rw [heq] at hle
    rcases htoken with ⟨-, hcut⟩ | hword
    · omega
    · rw [hword] at hle
      have hself := scanToken_eq_of_length_le hle
      rw [hword, hself] at heq
      refine ⟨fun b hb => ?_, (cstr_urlDecode_eq_iff hnul).mp heq⟩
      rw [← hself] at hb
      exact isspace_of_mem_scanToken hb
  · rintro ⟨hword, hliteral⟩
    rcases htoken with ⟨hcr, -⟩ | htoken
    · exact absurd (hword 13 hcr) (by decide)
    · rw [htoken, scanToken_self hword]
      exact ⟨hlen, (cstr_urlDecode_eq_iff hnul).mpr hliteral⟩

/-- A link with a question mark never leads to the path before the mark, unless
that ends in one too. -/
theorem path_ne_of_question {target token : Bytes} (hlast : target.getLast? ≠ some 63)
    (htoken : 13 ∈ target ++ [63] ∧ token.length + 3 ≤ (target ++ [63]).length ∨
      token = (scanToken (target ++ [63])).1) :
    cstr (urlDecode token) ≠ target := by
  intro heq
  have hle : target.length ≤ token.length := by
    rw [← heq]
    exact Nat.le_trans (length_cstr_le _) (length_urlDecode_le token)
  have hlen : (target ++ [63]).length = target.length + 1 := by
    rw [List.length_append, List.length_singleton]
  rcases htoken with ⟨-, hcut⟩ | hword
  · omega
  · have htok := length_scanToken_le (target ++ [63])
    rw [hword] at hle heq
    rcases scanToken_concat target (c := 63) (by decide) with ⟨u, hu⟩ | hlt
    · rw [hu, hlen, List.length_append, List.length_singleton] at htok
      rw [hu, urlDecode_question] at heq
      by_cases hzero : 0 ∈ urlDecode u
      · -- A decoded NUL cuts the path off before the mark.
        have hcut := length_cstr_lt hzero
        have hdec := length_urlDecode_le u
        rw [cstr_append_of_mem hzero] at heq
        rw [heq] at hcut
        omega
      · have hnone : 0 ∉ urlDecode u ++ [63] := by
          rw [List.mem_append, not_or]
          exact ⟨hzero, by decide⟩
        rw [cstr_eq_self hnone] at heq
        rw [← heq, List.getLast?_concat] at hlast
        exact hlast rfl
    · omega

section Resolving

variable {host : Host} (l : Linked host) (cuts : Nat → Nat) {fields : Bytes}

/-- A link leads where its decoded token leads. -/
theorem exists_token (hfields : 0 ∉ fields) (hend : headerEnd <:+: ascii "\r\n" ++ fields)
    (hlen : (Message.split (linkRequest (href l.path l.entry) fields)).1.length ≤ intMax) :
    ∃ token, (13 ∈ href l.path l.entry ∧ token.length + 3 ≤ (href l.path l.entry).length ∨
        token = (scanToken (href l.path l.entry)).1) ∧
      (Resolves l cuts (linkRequest (href l.path l.entry) fields) ↔ token.length < 1024 ∧
        ∃ effects, serveGet host (cstr (urlDecode token)) = .ok effects ∧
          Serves host (entryPath l.path l.entry) l.entry.name effects l.node) := by
  have hblack : ∃ b ∈ href l.path l.entry, isspace b = false := by
    refine ⟨47, ?_, by decide⟩
    rw [href_eq]
    exact List.mem_append_left _ l.slash_mem
  obtain ⟨token, htoken, hserve⟩ :=
    clientThread_link host cuts l.nul_notMem_href hfields hend hlen hblack
  exact ⟨token, htoken, hserve _⟩

theorem resolves_directory_iff (hnode : l.node = .directory) (hfields : 0 ∉ fields)
    (hend : headerEnd <:+: ascii "\r\n" ++ fields)
    (hlen : (Message.split (linkRequest (href l.path l.entry) fields)).1.length ≤ intMax) :
    Resolves l cuts (linkRequest (href l.path l.entry) fields) ↔ Resolvable l := by
  obtain ⟨token, htoken, hserve⟩ := exists_token l cuts hfields hend hlen
  have hpath := path_eq_link_iff l.nul_notMem_href (Nat.lt_of_le_of_lt l.length_href_le (by decide))
    htoken
  rw [hserve, Resolvable, hnode, ← and_assoc, ← hpath,
    serveGet_directory (zero_notMem_cstr _) l.slash_mem]
  by_cases hdir : l.entry.dType = dtDir
  · have hhref : href l.path l.entry = entryPath l.path l.entry := by
      rw [href_eq, if_pos hdir, List.append_nil]
    rw [hhref]
    constructor
    · rintro ⟨hfits, heq, hicon, hlast, hsize⟩
      rw [heq] at hicon hlast
      rw [getLast?_entryPath] at hlast
      exact ⟨⟨hfits, heq⟩, hicon, hdir, hlast, hsize⟩
    · rintro ⟨⟨hfits, heq⟩, hicon, -, hlast, hsize⟩
      rw [← getLast?_entryPath l.path] at hlast
      exact ⟨hfits, heq, heq ▸ hicon, heq ▸ hlast, hsize⟩
  · -- The mark behind the link of an untyped directory asks for a file.
    refine iff_of_false ?_ fun h => hdir h.2.2.1
    rintro ⟨-, heq, -, hlast, -⟩
    have hhref : href l.path l.entry = entryPath l.path l.entry ++ [63] := by
      rw [href_eq, if_neg hdir]
      rfl
    rw [hhref] at htoken
    rw [heq] at hlast
    exact path_ne_of_question hlast htoken heq

theorem resolves_file_iff {content : Bytes} (hnode : l.node = .file content)
    (hfields : 0 ∉ fields) (hend : headerEnd <:+: ascii "\r\n" ++ fields)
    (hlen : (Message.split (linkRequest (href l.path l.entry) fields)).1.length ≤ intMax) :
    Resolves l cuts (linkRequest (href l.path l.entry) fields) ↔ Resolvable l := by
  obtain ⟨token, htoken, hserve⟩ := exists_token l cuts hfields hend hlen
  have hpath := path_eq_link_iff l.nul_notMem_href (Nat.lt_of_le_of_lt l.length_href_le (by decide))
    htoken
  obtain ⟨hdir, hopen⟩ := l.stands content hnode
  have hhref : href l.path l.entry = entryPath l.path l.entry ++ ascii "?" := by
    rw [href_eq, if_neg hdir]
  have hfile := serveGet_file (zero_notMem_cstr (urlDecode token)) l.slash_mem hopen
  dsimp only at hfile
  rw [rtakeWhile_entryPath, length_downloadHeader] at hfile
  rw [hserve, Resolvable, hnode, ← and_assoc, ← hpath, hfile, hhref]
  constructor
  · rintro ⟨hfits, heq, hicon, hsizes⟩
    rw [heq] at hicon
    exact ⟨⟨hfits, heq⟩, hicon, hsizes⟩
  · rintro ⟨⟨hfits, heq⟩, hicon, hsizes⟩
    exact ⟨hfits, heq, heq ▸ hicon, hsizes⟩

/-- A header that no `int` counts leads nowhere. -/
theorem length_split_le (hfields : 0 ∉ fields)
    (h : Resolves l cuts (linkRequest (href l.path l.entry) fields)) :
    (Message.split (linkRequest (href l.path l.entry) fields)).1.length ≤ intMax := by
  have hnul := nul_notMem_linkRequest l.nul_notMem_href hfields
  obtain ⟨effects, rest, hthread, -⟩ := h
  rw [← readHeader_eq_split_of_notMem hnul]
  exact length_request_le hthread

/-- The page links the entry, and the link leads to it exactly if it is
`Resolvable` and the header of the request is counted. -/
theorem links_resolve_iff (hfields : 0 ∉ fields) (hend : headerEnd <:+: ascii "\r\n" ++ fields) :
    (∀ html, createHTML l.path (host.scandir l.path) = .ok html →
      ascii "<a href=\"" ++ href l.path l.entry ++ ascii "\">" <:+: html) ∧
    (Resolves l cuts (linkRequest (href l.path l.entry) fields) ↔
      (Message.split (linkRequest (href l.path l.entry) fields)).1.length ≤ intMax ∧
        Resolvable l) := by
  refine ⟨fun html hhtml => createHTML_link hhtml l.listed, ?_⟩
  by_cases hlen : (Message.split (linkRequest (href l.path l.entry) fields)).1.length ≤ intMax
  · rw [and_iff_right hlen]
    cases hnode : l.node with
    | directory => exact resolves_directory_iff l cuts hnode hfields hend hlen
    | file content => exact resolves_file_iff l cuts hnode hfields hend hlen
  · exact iff_of_false (fun h => hlen (length_split_le l cuts hfields h)) fun h => hlen h.1

end Resolving

/-- The root directory with one readable file. -/
def oneFile (name : Bytes) (hne : name ≠ []) (hnul : 0 ∉ name) (hslash : 47 ∉ name)
    (hshort : name.length < 999) :
    Linked
      { scandir := fun _ => [⟨name, 8, hne, hnul, hslash⟩]
        fopen := fun path => if path = ascii "/" ++ name then some (.ofFile [120]) else none
        creates := fun _ => false
        verify := fun _ => none } where
  path := ascii "/"
  entry := ⟨name, 8, hne, hnul, hslash⟩
  node := .file [120]
  path_ne := by decide
  nul_notMem := by decide
  short := by
    show name.length + 1 < 1000
    omega
  listed := List.mem_singleton_self _
  stands := by
    intro content hcontent
    obtain rfl := Node.file.inj hcontent
    have hdir : (8 : UInt8) ≠ dtDir := by decide
    exact ⟨hdir, if_pos rfl⟩

theorem links_resolve_iff_plain :
    Resolves (oneFile (ascii "a") (by decide) (by decide) (by decide) (by decide)) (fun _ => 1)
      (linkRequest (ascii "/a?") (ascii "\r\n")) :=
  (links_resolve_iff _ _ (by decide) (by decide)).2.mpr
    ⟨by decide +kernel, by decide, (urlDecode_eq_self_iff _).mp (by decide), by decide, by decide,
      by decide⟩

/-- The link to the file `a+b` asks for the file `a b`. -/
theorem link_with_plus_fails :
    ¬ Resolves (oneFile (ascii "a+b") (by decide) (by decide) (by decide) (by decide)) (fun _ => 1)
      (linkRequest (ascii "/a+b?") (ascii "\r\n")) := by
  intro h
  have hliteral := ((resolves_file_iff
    (oneFile (ascii "a+b") (by decide) (by decide) (by decide) (by decide)) (fun _ => 1) rfl
    (by decide) (by decide) (by decide +kernel)).mp h).2.1
  exact hliteral.1 (by decide)

end Np20
end NetLab
