import NetLab.Np20.Handler

/-!
# Requests taken apart

What the client thread does with a stream, in terms of where the headers in it
end: the header of the request, and in a POST the header of the first part of
its body.
-/

namespace NetLab
namespace Np20

open CString ByteStream

/-- A text that ends with the first empty line in it. -/
structure IsHeader (header : Bytes) : Prop where
  nul_notMem : 0 ∉ header
  first : find headerEnd header = some headerEnd

instance : DecidablePred IsHeader := fun header =>
  decidable_of_iff (0 ∉ header ∧ find headerEnd header = some headerEnd)
    ⟨fun h => ⟨h.1, h.2⟩, fun h => ⟨h.nul_notMem, h.first⟩⟩

/-- No header ends within the stream. -/
def Headless (stream : Bytes) : Prop := ∀ header rest, stream = header ++ rest → ¬ IsHeader header

theorem IsHeader.strstr_eq {header : Bytes} (h : IsHeader header) :
    strstr header headerEnd = some headerEnd := by
  rw [strstr, cstr_eq_self h.nul_notMem]
  exact h.first

theorem IsHeader.ne_nil {header : Bytes} (h : IsHeader header) : header ≠ [] := by
  rintro rfl
  exact absurd h.first (by decide)

theorem IsHeader.readHeader_eq {header : Bytes} (h : IsHeader header) (rest : Bytes) :
    readHeader [] (header ++ rest) = (header, rest) :=
  readHeader_exact rest [] h.nul_notMem h.first

/-- A stream has at most one header at its start. -/
theorem IsHeader.unique {header header' rest rest' : Bytes} (h : IsHeader header)
    (h' : IsHeader header') (heq : header ++ rest = header' ++ rest') :
    header = header' ∧ rest = rest' := by
  have hread := h.readHeader_eq rest
  rw [heq, h'.readHeader_eq, Prod.mk.injEq] at hread
  exact ⟨hread.1.symm, hread.2.symm⟩

/-- The byte that completes the first empty line ends a header. -/
theorem isHeader_concat {buf : Bytes} {chr : UInt8} (h : strstr buf headerEnd = none)
    (h' : (strstr (buf ++ [chr]) headerEnd).isSome) : IsHeader (buf ++ [chr]) := by
  have hnul : 0 ∉ buf ++ [chr] := by
    intro hmem
    have hcstr : cstr (buf ++ [chr]) = cstr buf := by
      by_cases hbuf : 0 ∈ buf
      · exact cstr_append_of_mem hbuf [chr]
      · have hchr : 0 = chr := by
          rcases List.mem_append.mp hmem with hmem | hmem
          · exact absurd hmem hbuf
          · exact List.mem_singleton.mp hmem
        rw [cstr_eq_self hbuf, ← hchr, cstr, List.takeWhile_append_of_pos]
        · exact List.append_nil buf
        · intro b hb
          exact decide_eq_true fun hzero => hbuf (hzero ▸ hb)
    rw [strstr, hcstr, ← strstr, h] at h'
    contradiction
  have hbuf : 0 ∉ buf := fun hmem => hnul (List.mem_append_left _ hmem)
  rw [strstr, cstr_eq_self hbuf] at h
  rw [strstr, cstr_eq_self hnul] at h'
  obtain ⟨t, ht⟩ := Option.isSome_iff_exists.mp h'
  obtain ⟨⟨u, hu⟩, hsuffix⟩ := find_spec ht
  refine ⟨hnul, ?_⟩
  rw [ht, ← hu]
  rcases List.eq_nil_or_concat u with rfl | ⟨v, b, rfl⟩
  · rw [List.append_nil]
  · -- An earlier end would stand in `buf`.
    obtain ⟨w, hw⟩ := hsuffix
    rw [← hu, List.concat_eq_append, ← List.append_assoc, ← List.append_assoc] at hw
    have hinfix : headerEnd <:+: buf := ⟨w, v, (List.append_inj' hw rfl).1⟩
    rw [← find_isSome_iff, h] at hinfix
    contradiction

/-- The loop stops behind the header, or takes the whole stream. -/
theorem readHeader_cases (stream : Bytes) : ∀ buf, strstr buf headerEnd = none →
    (∃ header rest, buf ++ stream = header ++ rest ∧ IsHeader header) ∨
      readHeader buf stream = (buf ++ stream, []) ∧ strstr (buf ++ stream) headerEnd = none := by
  induction stream with
  | nil =>
    intro buf hbuf
    rw [List.append_nil]
    exact .inr ⟨rfl, hbuf⟩
  | cons chr stream ih =>
    intro buf hbuf
    have hshift : buf ++ chr :: stream = buf ++ [chr] ++ stream := by
      rw [List.append_assoc]
      rfl
    have hread : readHeader buf (chr :: stream) = readHeader (buf ++ [chr]) stream := by
      rw [readHeader, hbuf]
      rfl
    rw [hshift, hread]
    by_cases hnext : strstr (buf ++ [chr]) headerEnd = none
    · exact ih (buf ++ [chr]) hnext
    · exact .inl ⟨buf ++ [chr], stream, rfl,
        isHeader_concat hbuf (Option.isSome_iff_ne_none.mpr hnext)⟩

theorem Headless.readHeader_eq {stream : Bytes} (h : Headless stream) :
    readHeader [] stream = (stream, []) ∧ strstr stream headerEnd = none := by
  rcases readHeader_cases stream [] rfl with ⟨header, rest, heq, hheader⟩ | hall
  · exact absurd hheader (h header rest heq)
  · exact hall

theorem IsHeader.requestLoop_eq {header : Bytes} (h : IsHeader header)
    (hlen : header.length ≤ intMax) (rest : Bytes) : requestLoop (header ++ rest) =
      .ok { body := header, counters := { len := header.length, contentRead := 0 },
            rest := rest } := by
  rw [NetLab.Np20.requestLoop_eq, h.readHeader_eq, if_pos hlen]

theorem IsHeader.partLoop_eq {header : Bytes} (h : IsHeader header)
    (hlen : header.length ≤ intMax) (rest : Bytes) : partLoop (header ++ rest) =
      .ok { body := header,
            counters := { len := header.length, contentRead := header.length },
            rest := rest } := by
  rw [NetLab.Np20.partLoop_eq, h.readHeader_eq, if_pos hlen]

theorem headless_or (stream : Bytes) :
    (∃ header rest, stream = header ++ rest ∧ IsHeader header) ∨ Headless stream := by
  by_cases h : ∃ header rest, stream = header ++ rest ∧ IsHeader header
  · exact .inl h
  · refine .inr fun header rest heq hheader => h ⟨header, rest, heq, hheader⟩

/-- A shorter stream than the header holds none. -/
theorem IsHeader.headless_of_prefix {header stream : Bytes} (h : IsHeader header)
    (hstart : stream <+: header) (hlt : stream.length < header.length) : Headless stream := by
  rintro header' rest heq h'
  obtain ⟨u, hu⟩ := hstart
  have hsplit : header ++ [] = header' ++ (rest ++ u) := by
    rw [List.append_nil, ← hu, heq, List.append_assoc]
  obtain ⟨rfl, -⟩ := h.unique h' hsplit
  rw [heq, List.length_append] at hlt
  omega

/-! ## The words of the request line -/

/-- What `%s%s` finds in the header. -/
def firstWord (header : Bytes) : Bytes := (scanToken (cstr header)).1

def secondWord (header : Bytes) : Bytes := (scanToken (scanToken (cstr header)).2).1

/-- The path as it stands in `path` after the decoding. -/
def decodedPath (header : Bytes) : Bytes := cstr (urlDecode (secondWord header))

theorem requestLine_words {header : Bytes} (hmethod : (firstWord header).length < 8)
    (htarget : (secondWord header).length < 1024) :
    requestLine header = .ok (firstWord header, decodedPath header) := by
  have hlen := length_urlDecode_le (secondWord header)
  have hcstr := length_cstr_le (urlDecode (secondWord header))
  have hput₁ : Buffer.method.put (firstWord header) = .ok (firstWord header) :=
    Buffer.put_of_lt hmethod
  have hput₂ : Buffer.path.put (secondWord header) = .ok (secondWord header) :=
    Buffer.put_of_lt htarget
  have hput₃ : Buffer.decodedPath.put (urlDecode (secondWord header)) =
      .ok (urlDecode (secondWord header)) :=
    Buffer.put_of_lt (Nat.lt_of_le_of_lt hlen htarget)
  have hput₄ : Buffer.path.put (decodedPath header) = .ok (decodedPath header) :=
    Buffer.put_of_lt (Nat.lt_of_le_of_lt (hcstr.trans hlen) htarget)
  show (Buffer.method.put (firstWord header) >>= _) = _
  rw [hput₁]
  show (Buffer.path.put (secondWord header) >>= _) = _
  rw [hput₂]
  show (Buffer.decodedPath.put (urlDecode (secondWord header)) >>= _) = _
  rw [hput₃]
  show (Buffer.path.put (decodedPath header) >>= _) = _
  rw [hput₄]
  rfl

theorem requestLine_method {header : Bytes} (hmethod : ¬ (firstWord header).length < 8) :
    requestLine header = .error (.overflow .method) := by
  have hput : Buffer.method.put (firstWord header) = .error (.overflow .method) :=
    Buffer.put_of_not_lt hmethod
  show (Buffer.method.put (firstWord header) >>= _) = _
  rw [hput]
  rfl

theorem requestLine_target {header : Bytes} (hmethod : (firstWord header).length < 8)
    (htarget : ¬ (secondWord header).length < 1024) :
    requestLine header = .error (.overflow .path) := by
  have hput₁ : Buffer.method.put (firstWord header) = .ok (firstWord header) :=
    Buffer.put_of_lt hmethod
  have hput₂ : Buffer.path.put (secondWord header) = .error (.overflow .path) :=
    Buffer.put_of_not_lt htarget
  show (Buffer.method.put (firstWord header) >>= _) = _
  rw [hput₁]
  show (Buffer.path.put (secondWord header) >>= _) = _
  rw [hput₂]
  rfl

theorem requestLine_ok {header : Bytes} {line : Bytes × Bytes} (h : requestLine header = .ok line) :
    line = (firstWord header, decodedPath header) := by
  by_cases hmethod : (firstWord header).length < 8
  · by_cases htarget : (secondWord header).length < 1024
    · rw [requestLine_words hmethod htarget] at h
      exact (Except.ok.inj h).symm
    · rw [requestLine_target hmethod htarget] at h
      cases h
  · rw [requestLine_method hmethod] at h
    cases h

/-! ## The client thread -/

/-- A header, or a stream without one, that the counters do not hold. -/
theorem clientThread_long (host : Host) (cuts : Nat → Nat) {stream : Bytes}
    (h : ¬ (readHeader [] stream).1.length ≤ intMax) :
    clientThread host cuts stream = .error .headerLength := by
  rw [clientThread, requestLoop_eq, if_neg h]
  rfl

/-- A thread that ends has counted what it read. -/
theorem length_request_le {host : Host} {cuts : Nat → Nat} {stream : Bytes}
    {out : List Effect × Bytes} (h : clientThread host cuts stream = .ok out) :
    (readHeader [] stream).1.length ≤ intMax := by
  by_contra hlong
  rw [clientThread_long host cuts hlong] at h
  cases h

theorem clientThread_longHeader (host : Host) (cuts : Nat → Nat) {header : Bytes}
    (h : IsHeader header) (hlen : ¬ header.length ≤ intMax) (body : Bytes) :
    clientThread host cuts (header ++ body) = .error .headerLength := by
  refine clientThread_long host cuts ?_
  rw [h.readHeader_eq]
  exact hlen

theorem clientThread_headless (host : Host) (cuts : Nat → Nat) {stream : Bytes}
    (h : Headless stream) (hlen : stream.length ≤ intMax) :
    clientThread host cuts stream = .ok ([], []) := by
  obtain ⟨hread, hnone⟩ := h.readHeader_eq
  rw [clientThread, requestLoop_eq, hread, if_pos hlen]
  show (if (strstr stream headerEnd).isNone then _ else _) = _
  rw [hnone]
  rfl

/-- What follows the header is served according to the words of the request
line. -/
theorem clientThread_header (host : Host) (cuts : Nat → Nat) {header : Bytes} (h : IsHeader header)
    (hlen : header.length ≤ intMax) (body : Bytes) :
    clientThread host cuts (header ++ body) = (do
      let line ← requestLine header
      if line.1 = ascii "GET" then
        let effects ← serveGet host line.2
        return (effects, body)
      else if line.1 = ascii "POST" then servePost host cuts header line.2 body
      else return ([], body)) := by
  rw [clientThread, h.requestLoop_eq hlen]
  show (if (strstr header headerEnd).isNone then _ else _) = _
  rw [h.strstr_eq]
  rfl

theorem length_header_le {host : Host} {cuts : Nat → Nat} {header body : Bytes}
    (hheader : IsHeader header) {out : List Effect × Bytes}
    (h : clientThread host cuts (header ++ body) = .ok out) : header.length ≤ intMax := by
  have hlen := length_request_le h
  rw [hheader.readHeader_eq] at hlen
  exact hlen

theorem clientThread_get (host : Host) (cuts : Nat → Nat) {header : Bytes} (h : IsHeader header)
    (hlen : header.length ≤ intMax) (hget : firstWord header = ascii "GET")
    (htarget : (secondWord header).length < 1024) (body : Bytes) :
    clientThread host cuts (header ++ body) = (do
      let effects ← serveGet host (decodedPath header)
      return (effects, body)) := by
  have hmethod : (firstWord header).length < 8 := by
    rw [hget]
    decide
  rw [clientThread_header host cuts h hlen, requestLine_words hmethod htarget]
  exact if_pos hget

theorem serveGet_of_clientThread {host : Host} {cuts : Nat → Nat} {header body : Bytes}
    (hheader : IsHeader header) (hget : firstWord header = ascii "GET") {effects : List Effect}
    {rest : Bytes} (h : clientThread host cuts (header ++ body) = .ok (effects, rest)) :
    serveGet host (decodedPath header) = .ok effects := by
  rw [clientThread_header host cuts hheader (length_header_le hheader h)] at h
  obtain ⟨line, hline, h⟩ := bind_eq_ok.mp h
  obtain rfl := requestLine_ok hline
  rw [if_pos hget] at h
  obtain ⟨served, hserved, h⟩ := bind_eq_ok.mp h
  obtain ⟨rfl, -⟩ := Prod.mk.inj (Except.ok.inj h)
  exact hserved

/-! ## The part header -/

/-- The file name in a part header. -/
def partName (partBody : Bytes) : Option Bytes :=
  match strstr partBody (ascii "filename=\"") with
  | none => none
  | some found =>
    let filenameStart := found.drop (ascii "filename=\"").length
    if 34 ∈ filenameStart then some (filenameStart.takeWhile (· ≠ 34)) else none

/-- Where an upload is stored. -/
def fullpathOf (path name : Bytes) : Bytes := path ++ separator path ++ name

theorem length_fullpathOf_lt {path name : Bytes} (hpath : path.length < 1024)
    (hname : name.length < 1024) : (fullpathOf path name).length < 2048 := by
  have hsep : (separator path).length ≤ 1 := by
    rw [separator]
    split <;> simp [ascii]
  rw [fullpathOf, List.length_append, List.length_append]
  omega

theorem servePost_nil (host : Host) (cuts : Nat → Nat) (requestBody path : Bytes) :
    servePost host cuts requestBody path [] = .error .nullPartBody := rfl

theorem servePost_long (host : Host) (cuts : Nat → Nat) (requestBody path : Bytes) {body : Bytes}
    (h : ¬ (readHeader [] body).1.length ≤ intMax) :
    servePost host cuts requestBody path body = .error .headerLength := by
  rw [servePost, partLoop_eq, if_neg h]
  rfl

theorem length_part_le {host : Host} {cuts : Nat → Nat} {requestBody path body : Bytes}
    {out : List Effect × Bytes} (h : servePost host cuts requestBody path body = .ok out) :
    (readHeader [] body).1.length ≤ intMax := by
  by_contra hlong
  rw [servePost_long host cuts requestBody path hlong] at h
  cases h

theorem servePost_headless (host : Host) (cuts : Nat → Nat) (requestBody path : Bytes)
    {body : Bytes} (hne : body ≠ []) (h : Headless body) (hlen : body.length ≤ intMax) :
    servePost host cuts requestBody path body =
      .ok ([.send (badRequest (ascii "Invalid request format"))], []) := by
  obtain ⟨hread, hnone⟩ := h.readHeader_eq
  rw [servePost, partLoop_eq, hread, if_pos hlen]
  show (if body = [] then _ else _) = _
  rw [if_neg hne]
  show (if (strstr body headerEnd).isNone then _ else _) = _
  rw [hnone]
  rfl

/-- A part header that is counted is searched for the name. -/
theorem servePost_part (host : Host) (cuts : Nat → Nat) (requestBody path : Bytes)
    {part : Bytes} (h : IsHeader part) (hlen : part.length ≤ intMax) (rest : Bytes) :
    servePost host cuts requestBody path (part ++ rest) =
      match strstr part (ascii "filename=\"") with
      | none => .ok ([.send (badRequest (ascii "No file selected"))], rest)
      | some found =>
        let filenameStart := found.drop (ascii "filename=\"").length
        if 34 ∈ filenameStart then do
          let name ← Buffer.name.put (filenameStart.takeWhile (· ≠ 34))
          if path = [] then throw .emptyPath
          let fullpath ← Buffer.fullpath.put (fullpathOf path name)
          storeUpload host cuts requestBody path name fullpath part.length rest
        else .ok ([.send (badRequest (ascii "Invalid filename format"))], rest) := by
  rw [servePost, h.partLoop_eq hlen]
  show (if part = [] then _ else _) = _
  rw [if_neg h.ne_nil]
  show (if (strstr part headerEnd).isNone then _ else _) = _
  rw [h.strstr_eq]
  rfl

theorem servePost_unnamed (host : Host) (cuts : Nat → Nat) (requestBody path : Bytes)
    {part : Bytes} (h : IsHeader part) (hlen : part.length ≤ intMax) (hname : partName part = none)
    (rest : Bytes) :
    ∃ error, servePost host cuts requestBody path (part ++ rest) =
      .ok ([.send (badRequest error)], rest) := by
  rw [servePost_part host cuts requestBody path h hlen]
  rw [partName] at hname
  cases hfound : strstr part (ascii "filename=\"") with
  | none => exact ⟨ascii "No file selected", rfl⟩
  | some found =>
    rw [hfound] at hname
    dsimp only at hname ⊢
    by_cases hquote : 34 ∈ found.drop (ascii "filename=\"").length
    · rw [if_pos hquote] at hname
      contradiction
    · rw [if_neg hquote]
      exact ⟨ascii "Invalid filename format", rfl⟩

theorem servePost_named (host : Host) (cuts : Nat → Nat) (requestBody path : Bytes)
    {part name : Bytes} (h : IsHeader part) (hlen : part.length ≤ intMax)
    (hname : partName part = some name) (rest : Bytes) :
    servePost host cuts requestBody path (part ++ rest) = (do
      let name ← Buffer.name.put name
      if path = [] then throw .emptyPath
      let fullpath ← Buffer.fullpath.put (fullpathOf path name)
      storeUpload host cuts requestBody path name fullpath part.length rest) := by
  rw [servePost_part host cuts requestBody path h hlen]
  rw [partName] at hname
  cases hfound : strstr part (ascii "filename=\"") with
  | none =>
    rw [hfound] at hname
    contradiction
  | some found =>
    rw [hfound] at hname
    dsimp only at hname ⊢
    by_cases hquote : 34 ∈ found.drop (ascii "filename=\"").length
    · rw [if_pos hquote, Option.some.injEq] at hname
      rw [if_pos hquote, hname]
    · rw [if_neg hquote] at hname
      contradiction

/-- A file name that fits is stored under its path. -/
theorem servePost_store (host : Host) (cuts : Nat → Nat) (requestBody : Bytes)
    {path part name : Bytes} (h : IsHeader part) (hlen : part.length ≤ intMax)
    (hname : partName part = some name) (hlt : name.length < 1024) (hne : path ≠ [])
    (hpath : path.length < 1024) (rest : Bytes) :
    servePost host cuts requestBody path (part ++ rest) =
      storeUpload host cuts requestBody path name (fullpathOf path name) part.length rest := by
  have hput : Buffer.fullpath.put (fullpathOf path name) = .ok (fullpathOf path name) :=
    Buffer.put_of_lt (length_fullpathOf_lt hpath hlt)
  rw [servePost_named host cuts requestBody path h hlen hname rest, Buffer.put_of_lt hlt]
  show (if path = [] then _ else _) = _
  rw [if_neg hne]
  show (Buffer.fullpath.put (fullpathOf path name) >>= _) = _
  rw [hput]
  rfl

theorem servePost_longName (host : Host) (cuts : Nat → Nat) (requestBody path : Bytes)
    {part name : Bytes} (h : IsHeader part) (hlen : part.length ≤ intMax)
    (hname : partName part = some name) (hlt : ¬ name.length < 1024) (rest : Bytes) :
    servePost host cuts requestBody path (part ++ rest) = .error (.overflow .name) := by
  rw [servePost_named host cuts requestBody path h hlen hname rest, Buffer.put_of_not_lt hlt]
  rfl

theorem servePost_emptyPath (host : Host) (cuts : Nat → Nat) (requestBody : Bytes)
    {part name : Bytes} (h : IsHeader part) (hlen : part.length ≤ intMax)
    (hname : partName part = some name) (hlt : name.length < 1024) (rest : Bytes) :
    servePost host cuts requestBody [] (part ++ rest) = .error .emptyPath := by
  rw [servePost_named host cuts requestBody [] h hlen hname rest, Buffer.put_of_lt hlt]
  rfl

/-! ## Storing -/

theorem storeUpload_refused {host : Host} (cuts : Nat → Nat) (requestBody path name : Bytes)
    {fullpath : Bytes} (h : host.creates fullpath = false) (contentRead : Nat) (stream : Bytes) :
    storeUpload host cuts requestBody path name fullpath contentRead stream =
      .ok ([.send (serverError (ascii "Could not create file"))], stream) := by
  rw [storeUpload, h]
  rfl

theorem storeUpload_boundary {host : Host} (cuts : Nat → Nat) {requestBody : Bytes}
    (path name : Bytes) {fullpath : Bytes} (h : host.creates fullpath = true)
    (hboundary : ¬ (boundaryOf requestBody).length < 256) (contentRead : Nat) (stream : Bytes) :
    storeUpload host cuts requestBody path name fullpath contentRead stream =
      .error (.overflow .boundaryStr) := by
  rw [storeUpload, if_pos h, Buffer.put_of_not_lt hboundary]
  rfl

theorem storeUpload_noLength {host : Host} (cuts : Nat → Nat) {requestBody : Bytes}
    (path name : Bytes) {fullpath : Bytes} (h : host.creates fullpath = true)
    (hboundary : (boundaryOf requestBody).length < 256) (hlength : contentLength requestBody = none)
    (contentRead : Nat) (stream : Bytes) :
    storeUpload host cuts requestBody path name fullpath contentRead stream =
      .error .contentLength := by
  rw [storeUpload, if_pos h, Buffer.put_of_lt hboundary, hlength]
  rfl

/-- A boundary that fits is forgotten. -/
theorem storeUpload_created {host : Host} (cuts : Nat → Nat) {requestBody : Bytes}
    (path name : Bytes) {fullpath : Bytes} (h : host.creates fullpath = true)
    (hboundary : (boundaryOf requestBody).length < 256) {length : Int}
    (hlength : contentLength requestBody = some length) (contentRead : Nat) (stream : Bytes) :
    storeUpload host cuts requestBody path name fullpath contentRead stream = (do
      let content ← contentLoop cuts length 0 contentRead stream
      let response ← verifyUpload host name fullpath path
      return (.create fullpath :: content.1.map (.append fullpath) ++ [.send response],
        content.2)) := by
  rw [storeUpload, if_pos h, Buffer.put_of_lt hboundary, hlength]
  rfl

end Np20
end NetLab
