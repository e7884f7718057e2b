import NetLab.Library.ByteStream
import NetLab.Library.Message
import NetLab.Np20.Listing
import NetLab.Np20.Url

/-!
# The client thread of the web server

A request is read byte by byte up to an empty line.  A GET shows the page of a
directory or, when its target ends in a question mark, sends a file.  A POST
stores one file: the part header is read like the request, and the content in
pieces of at most 1024 bytes.
-/

namespace NetLab
namespace Np20

open CString ByteStream

/-- The empty line after a header, with the end of the line before it. -/
def headerEnd : Bytes := ascii "\r\n\r\n"

/-- The counters of a loop that takes one byte at a time: `bodyLen` or `partLen`,
and the `contentRead` that a request does not have yet. -/
structure Counters where
  len : Nat
  contentRead : Nat
  deriving DecidableEq

/-- Where a loop stands: the buffer, the counters and the rest of the stream. -/
structure HeaderRead where
  body : Bytes
  counters : Counters
  rest : Bytes
  deriving DecidableEq

/-- `++` on an `int`. -/
def increment (n : Nat) : Except Fault Nat :=
  if n + 1 ≤ intMax then .ok (n + 1) else .error .headerLength

/-- The loop, from what it does to its counters for a byte. -/
def headerLoop (count : Counters → Except Fault Counters) (buf : Bytes) (c : Counters) :
    Bytes → Except Fault HeaderRead
  | [] => .ok { body := buf, counters := c, rest := [] }
  | chr :: stream =>
    if (strstr buf headerEnd).isSome then .ok { body := buf, counters := c, rest := chr :: stream }
    else do
      let c ← count c
      headerLoop count (buf ++ [chr]) c stream

def countRequest (c : Counters) : Except Fault Counters := do
  let bodyLen ← increment c.len
  return { c with len := bodyLen }

def countPart (c : Counters) : Except Fault Counters := do
  let partLen ← increment c.len
  let contentRead ← increment c.contentRead
  return { len := partLen, contentRead := contentRead }

/-- The loop that reads the request. -/
def requestLoop (stream : Bytes) : Except Fault HeaderRead :=
  headerLoop countRequest [] { len := 0, contentRead := 0 } stream

/-- The loop that reads the part header. -/
def partLoop (stream : Bytes) : Except Fault HeaderRead :=
  headerLoop countPart [] { len := 0, contentRead := 0 } stream

/-- The method and the decoded path of the request. -/
def requestLine (requestBody : Bytes) : Except Fault (Bytes × Bytes) := do
  let first := scanToken (cstr requestBody)
  let method ← Buffer.method.put first.1
  let path ← Buffer.path.put (scanToken first.2).1
  let decodedPath ← Buffer.decodedPath.put (urlDecode path)
  let path ← Buffer.path.put (cstr decodedPath)
  return (method, path)

/-- What `sscanf` leaves in `contentLength`; nothing is known about it when the
number is no `int`. -/
def contentLength (requestBody : Bytes) : Option Int :=
  match strstr requestBody (ascii "Content-Length: ") with
  | none => some 0
  | some ctLen =>
    match scanInt (ctLen.drop (ascii "Content-Length: ").length) with
    | none => some 0
    | some n => if -(intMax : Int) - 1 ≤ n ∧ n ≤ intMax then some n else none

/-! ## GET -/

def okHeader (length : Int) (contentType : Bytes) : Bytes :=
  ascii "HTTP/1.1 200 OK\r\nContent-Length: " ++ decimal length ++ ascii "\r\nContent-Type: " ++
    contentType ++ ascii "\r\n\r\n"

def notFound : Bytes := ascii "HTTP/1.1 404 NOT FOUND\r\n\r\n"

def faviconName : Bytes := ascii "favicon.ico"

/-- An array of `length` zeros with the file read into it. -/
def icoData (f : Opened) (length : Nat) : Bytes :=
  let read := f.freads.flatten.take length
  read ++ List.replicate (length - read.length) 0

def sendFavicon (host : Host) : Except Fault (List Effect) :=
  match host.fopen faviconName with
  | none => .ok [.openRead faviconName, .send notFound]
  | some f => do
    let length := toInt32 f.length
    -- `calloc` of a negative length returns no memory, and `fread` writes all the same.
    if length < 0 then throw .allocation
    let ok ← Buffer.ok.put (okHeader length (ascii "image/x-icon"))
    return [.openRead faviconName, .send ok, .send (icoData f length.toNat)]

def sendListing (host : Host) (path : Bytes) : Except Fault (List Effect) := do
  let html ← createHTML path (host.scandir path)
  let ok ← Buffer.ok.put (okHeader html.length (ascii "text/html"))
  return [.scandir path, .send ok, .send html]

def downloadHeader (len : Int) (filename : Bytes) : Bytes :=
  ascii "HTTP/1.1 200 OK\r\nContent-Length: " ++ decimal len ++
    ascii "\r\nContent-Type: application/octet-stream" ++
    ascii "\r\nContent-Disposition: attachment; filename=\"" ++ filename ++ ascii "\"\r\n\r\n"

/-- The download loop on the results of `fread`.  It hangs when they are used up,
since `fread` returns nothing from then on. -/
def downloadLoop (len read : Int) : List Bytes → Except Fault (List Bytes)
  | [] => if read < len then .error .hang else .ok []
  | data :: more =>
    if read < len then
      if read + data.length ≤ intMax then do
        let sent ← downloadLoop len (read + data.length) more
        return data :: sent
      else .error .intOverflow
    else .ok []

def sendFile (host : Host) (path : Bytes) : Except Fault (List Effect) :=
  match host.fopen path with
  | none => .ok [.openRead path, .send notFound]
  | some f => do
    let len := toInt32 f.length
    let filename := path.rtakeWhile (· ≠ 47)
    let response ← Buffer.response.put (downloadHeader len filename)
    let sent ← downloadLoop len 0 f.freads
    return .openRead path :: .send response :: sent.map .send

def serveGet (host : Host) (path : Bytes) : Except Fault (List Effect) :=
  if (strstr path faviconName).isSome then sendFavicon host
  else
    match path.getLast? with
    | none => .error .emptyPath
    | some last => if last ≠ 63 then sendListing host path else sendFile host path.dropLast

/-! ## POST -/

def badRequest (error : Bytes) : Bytes :=
  ascii "HTTP/1.1 400 BAD REQUEST\r\nContent-Type: text/html\r\n\r\n<html><body><h2>Error: " ++
    error ++ ascii "</h2></body></html>"

def serverError (error : Bytes) : Bytes :=
  ascii "HTTP/1.1 500 INTERNAL SERVER ERROR\r\nContent-Type: text/html\r\n\r\n" ++
    ascii "<html><body><h2>Error: " ++ error ++ ascii "</h2></body></html>"

def uploadPage (name : Bytes) (fileSize : Int) (fullpath path : Bytes) : Bytes :=
  ascii "<html><body><h2>Upload Successful!</h2><p>File: <b>" ++ name ++
    ascii "</b></p><p>Size: <b>" ++ decimal fileSize ++
    ascii "</b> bytes</p><p>Location: <b>" ++ fullpath ++
    ascii "</b></p><a href=\"" ++ path ++ ascii "\">Back to directory</a></body></html>"

/-- The answer to an upload. -/
def verifyUpload (host : Host) (name fullpath path : Bytes) : Except Fault Bytes :=
  match host.verify fullpath with
  | none => .ok (serverError (ascii "Could not verify uploaded file"))
  | some fileSize => do
    let html ← Buffer.htmlResponse.put (uploadPage name fileSize fullpath path)
    Buffer.response.put <|
      ascii "HTTP/1.1 200 OK\r\nContent-Type: text/html\r\nContent-Length: " ++
        decimal html.length ++ ascii "\r\n\r\n" ++ html

/-- The word after `boundary=`. -/
def boundaryOf (requestBody : Bytes) : Bytes :=
  match strstr requestBody (ascii "boundary=") with
  | none => []
  | some boundary => (scanToken (boundary.drop (ascii "boundary=").length)).1

/-- The content loop from call `i` of `recv` on: the blocks it writes and the
rest of the stream. -/
def contentLoop (cuts : Nat → Nat) (contentLength : Int) (i contentRead : Nat)
    (stream : Bytes) : Except Fault (List Bytes × Bytes) :=
  if contentRead < contentLength then
    let r := recv (cuts i) 1024 stream
    if r.1 = [] then .ok ([], stream)
    else if contentRead + r.1.length ≤ intMax then do
      let more ← contentLoop cuts contentLength (i + 1) (contentRead + r.1.length) r.2
      return (r.1 :: more.1, more.2)
    else .error .intOverflow
  else .ok ([], stream)
termination_by stream.length
decreasing_by
  have hpos : 0 < r.1.length := List.length_pos_iff.mpr ‹_›
  have hlen : r.1.length + r.2.length = stream.length := length_recv_add _ _ _
  change r.2.length < stream.length
  omega

/-- The branch that stores the content under `fullpath`. -/
def storeUpload (host : Host) (cuts : Nat → Nat) (requestBody path name fullpath : Bytes)
    (contentRead : Nat) (stream : Bytes) : Except Fault (List Effect × Bytes) :=
  if host.creates fullpath then do
    -- The boundary is stored, but nothing reads it.
    let _boundaryStr ← Buffer.boundaryStr.put (boundaryOf requestBody)
    match contentLength requestBody with
    | none => throw .contentLength
    | some length =>
      let content ← contentLoop cuts length 0 contentRead stream
      let response ← verifyUpload host name fullpath path
      return (.create fullpath :: content.1.map (.append fullpath) ++ [.send response], content.2)
  else .ok ([.send (serverError (ascii "Could not create file"))], stream)

def servePost (host : Host) (cuts : Nat → Nat) (requestBody path stream : Bytes) :
    Except Fault (List Effect × Bytes) := do
  let part ← partLoop stream
  if part.body = [] then throw .nullPartBody
  if (strstr part.body headerEnd).isNone then
    return ([.send (badRequest (ascii "Invalid request format"))], part.rest)
  match strstr part.body (ascii "filename=\"") with
  | none => return ([.send (badRequest (ascii "No file selected"))], part.rest)
  | some found =>
    let filenameStart := found.drop (ascii "filename=\"").length
    if 34 ∈ filenameStart then
      let name ← Buffer.name.put (filenameStart.takeWhile (· ≠ 34))
      if path = [] then throw .emptyPath
      let fullpath ← Buffer.fullpath.put (path ++ separator path ++ name)
      storeUpload host cuts requestBody path name fullpath part.counters.contentRead part.rest
    else return ([.send (badRequest (ascii "Invalid filename format"))], part.rest)

/-- One connection: what is done and the bytes that stay in the stream. -/
def clientThread (host : Host) (cuts : Nat → Nat) (stream : Bytes) :
    Except Fault (List Effect × Bytes) := do
  let request ← requestLoop stream
  if (strstr request.body headerEnd).isNone then return ([], request.rest)
  let (method, path) ← requestLine request.body
  if method = ascii "GET" then
    let effects ← serveGet host path
    return (effects, request.rest)
  else if method = ascii "POST" then servePost host cuts request.body path request.rest
  else return ([], request.rest)

/-! ## Reading headers -/

/-- What the loops take and leave as long as their counters hold. -/
def readHeader (buf : Bytes) : Bytes → Bytes × Bytes
  | [] => (buf, [])
  | chr :: stream =>
    if (strstr buf headerEnd).isSome then (buf, chr :: stream)
    else readHeader (buf ++ [chr]) stream

theorem length_le_readHeader (buf stream : Bytes) :
    buf.length ≤ (readHeader buf stream).1.length := by
  induction stream generalizing buf with
  | nil => exact Nat.le_refl _
  | cons chr stream ih =>
    rw [readHeader]
    split
    · exact Nat.le_refl _
    · have hle := ih (buf ++ [chr])
      rw [List.length_append, List.length_singleton] at hle
      omega

/-- Where the counters follow the length of the buffer, the loop reads the header
as long as the counters can follow. -/
theorem headerLoop_eq {count : Counters → Except Fault Counters} (counted : Nat → Counters)
    (hcount : ∀ n, count (counted n) =
      if n + 1 ≤ intMax then .ok (counted (n + 1)) else .error .headerLength)
    (stream : Bytes) : ∀ buf, buf.length ≤ intMax →
      headerLoop count buf (counted buf.length) stream =
        if (readHeader buf stream).1.length ≤ intMax then
          .ok { body := (readHeader buf stream).1
                counters := counted (readHeader buf stream).1.length
                rest := (readHeader buf stream).2 }
        else .error .headerLength := by
  induction stream with
  | nil =>
    intro buf hbuf
    exact (if_pos hbuf).symm
  | cons chr stream ih =>
    intro buf hbuf
    rw [headerLoop, readHeader]
    by_cases hfound : (strstr buf headerEnd).isSome
    · rw [if_pos hfound, if_pos hfound]
      exact (if_pos hbuf).symm
    · rw [if_neg hfound, if_neg hfound]
      have hlen : (buf ++ [chr]).length = buf.length + 1 := by
        rw [List.length_append, List.length_singleton]
      rw [hcount]
      split
      · rename_i hfits
        have hnext := ih (buf ++ [chr]) (by omega)
        rw [hlen] at hnext
        exact hnext
      · rename_i hfull
        have hle := length_le_readHeader (buf ++ [chr]) stream
        rw [if_neg (by omega)]
        rfl

theorem requestLoop_eq (stream : Bytes) : requestLoop stream =
    if (readHeader [] stream).1.length ≤ intMax then
      .ok { body := (readHeader [] stream).1
            counters := { len := (readHeader [] stream).1.length, contentRead := 0 }
            rest := (readHeader [] stream).2 }
    else .error .headerLength := by
  refine headerLoop_eq (fun n => { len := n, contentRead := 0 }) ?_ stream []
    (Nat.zero_le _)
  intro n
  rw [countRequest, increment]
  split
  · rfl
  · rfl

theorem partLoop_eq (stream : Bytes) : partLoop stream =
    if (readHeader [] stream).1.length ≤ intMax then
      .ok { body := (readHeader [] stream).1
            counters := { len := (readHeader [] stream).1.length,
                          contentRead := (readHeader [] stream).1.length }
            rest := (readHeader [] stream).2 }
    else .error .headerLength := by
  refine headerLoop_eq (fun n => { len := n, contentRead := n }) ?_ stream []
    (Nat.zero_le _)
  intro n
  rw [countPart, increment]
  split
  · rfl
  · rfl

theorem readHeader_append (buf stream : Bytes) :
    (readHeader buf stream).1 ++ (readHeader buf stream).2 = buf ++ stream := by
  induction stream generalizing buf with
  | nil => rfl
  | cons chr stream ih =>
    rw [readHeader]
    split
    · rfl
    · rw [ih, List.append_assoc]
      rfl

/-- A header without NUL is read exactly, up to the first empty line. -/
theorem readHeader_exact {header : Bytes} (stream : Bytes) :
    ∀ buf, 0 ∉ buf ++ header → find headerEnd (buf ++ header) = some headerEnd →
      readHeader buf (header ++ stream) = (buf ++ header, stream) := by
  induction header with
  | nil =>
    intro buf hnul hfind
    rw [List.append_nil] at hnul hfind
    have hfound : (strstr buf headerEnd).isSome := by
      rw [strstr, cstr_eq_self hnul, hfind]
      rfl
    rw [List.append_nil, List.nil_append]
    cases stream with
    | nil => rfl
    | cons chr stream => rw [readHeader, if_pos hfound]
  | cons chr header ih =>
    intro buf hnul hfind
    have hbuf : 0 ∉ buf := fun h => hnul (List.mem_append_left _ h)
    have hnot : ¬ (strstr buf headerEnd).isSome := by
      intro hsome
      rw [strstr, cstr_eq_self hbuf] at hsome
      obtain ⟨t, ht⟩ := Option.isSome_iff_exists.mp hsome
      have hgrown := find_append ht (chr :: header)
      have hlen := (find_spec ht).1.length_le
      have heq := congrArg List.length (Option.some.inj (hgrown.symm.trans hfind))
      rw [List.length_append, List.length_cons] at heq
      omega
    have hshift : buf ++ chr :: header = buf ++ [chr] ++ header := by
      rw [List.append_assoc]
      rfl
    rw [List.cons_append, readHeader, if_neg hnot, hshift]
    rw [hshift] at hnul hfind
    exact ih (buf ++ [chr]) hnul hfind

/-- The loop finds an empty line wherever there is one. -/
theorem readHeader_found {stream : Bytes} :
    ∀ buf, 0 ∉ buf ++ stream → headerEnd <:+: buf ++ stream →
      headerEnd <:+: (readHeader buf stream).1 := by
  induction stream with
  | nil =>
    intro buf _ hinfix
    rw [List.append_nil] at hinfix
    exact hinfix
  | cons chr stream ih =>
    intro buf hnul hinfix
    have hbuf : 0 ∉ buf := fun h => hnul (List.mem_append_left _ h)
    have hshift : buf ++ chr :: stream = buf ++ [chr] ++ stream := by
      rw [List.append_assoc]
      rfl
    rw [readHeader]
    split
    · rename_i hsome
      rw [strstr, cstr_eq_self hbuf] at hsome
      exact find_isSome_iff.mp hsome
    · rw [hshift] at hnul hinfix
      exact ih (buf ++ [chr]) hnul hinfix

/-- A line that is not the last one is passed over in the search for the empty
line. -/
theorem find_headerEnd_line {line s : Bytes} (hline : 10 ∉ line) (hs : ¬ ascii "\r\n" <+: s) :
    find headerEnd (line ++ ascii "\r\n" ++ s) = find headerEnd s :=
  Message.find_emptyLine_line hline hs

/-- The last line of a header. -/
theorem find_headerEnd_last {line : Bytes} (hline : 10 ∉ line) (s : Bytes) :
    find headerEnd (line ++ headerEnd ++ s) = some (headerEnd ++ s) :=
  Message.find_emptyLine_last hline s

/-- A line of a header, without its end. -/
structure IsLine (line : Bytes) : Prop where
  ne_nil : line ≠ []
  nul_notMem : 0 ∉ line
  lf_notMem : 10 ∉ line

theorem IsLine.append {line more : Bytes} (h : IsLine line) (hnul : 0 ∉ more) (hlf : 10 ∉ more) :
    IsLine (line ++ more) where
  ne_nil := List.append_ne_nil_of_left_ne_nil h.ne_nil more
  nul_notMem := by
    rw [List.mem_append, not_or]
    exact ⟨h.nul_notMem, hnul⟩
  lf_notMem := by
    rw [List.mem_append, not_or]
    exact ⟨h.lf_notMem, hlf⟩

/-- Lines with their ends. -/
def unlines (lines : List Bytes) : Bytes := lines.flatMap (· ++ ascii "\r\n")

theorem unlines_cons (line : Bytes) (lines : List Bytes) :
    unlines (line :: lines) = line ++ ascii "\r\n" ++ unlines lines := List.flatMap_cons

theorem unlines_append (lines more : List Bytes) :
    unlines (lines ++ more) = unlines lines ++ unlines more := List.flatMap_append

theorem nul_notMem_unlines {lines : List Bytes} (h : ∀ line ∈ lines, IsLine line) :
    0 ∉ unlines lines := by
  intro hmem
  obtain ⟨line, hline, hbyte⟩ := List.mem_flatMap.mp hmem
  rcases List.mem_append.mp hbyte with hbyte | hbyte
  · exact (h line hline).nul_notMem hbyte
  · exact absurd hbyte (by decide)

/-- A line is no end of a line. -/
theorem IsLine.not_starts_crlf {line : Bytes} (h : IsLine line) (s : Bytes) :
    ¬ ascii "\r\n" <+: line ++ ascii "\r\n" ++ s := by
  rintro ⟨t, ht⟩
  obtain ⟨b, rest, rfl⟩ := List.exists_cons_of_ne_nil h.ne_nil
  cases rest with
  | nil =>
    have hsecond := congrArg (fun l : Bytes => l[1]?) ht
    exact absurd hsecond (by simp [ascii])
  | cons d rest =>
    have hsecond : (10 : UInt8) = d := Option.some.inj (congrArg (fun l : Bytes => l[1]?) ht)
    exact h.lf_notMem (hsecond ▸ List.mem_cons_of_mem b List.mem_cons_self)

/-- The empty line behind the lines of a header is the first one. -/
theorem find_headerEnd_unlines {lines : List Bytes} (h : ∀ line ∈ lines, IsLine line)
    (hne : lines ≠ []) : find headerEnd (unlines lines ++ ascii "\r\n") = some headerEnd := by
  induction lines with
  | nil => contradiction
  | cons line lines ih =>
    have hline := h line List.mem_cons_self
    rw [unlines_cons]
    cases lines with
    | nil =>
      have hlast := find_headerEnd_last hline.lf_notMem []
      rw [List.append_nil, List.append_nil] at hlast
      rw [← hlast]
      show find headerEnd (line ++ ascii "\r\n" ++ [] ++ ascii "\r\n") = _
      rw [List.append_nil, List.append_assoc]
      rfl
    | cons next lines =>
      have hnext := h next (List.mem_cons_of_mem line List.mem_cons_self)
      have hcrlf : ¬ ascii "\r\n" <+: unlines (next :: lines) ++ ascii "\r\n" := by
        rw [unlines_cons, List.append_assoc]
        exact hnext.not_starts_crlf _
      rw [List.append_assoc, find_headerEnd_line hline.lf_notMem hcrlf]
      exact ih (fun l hl => h l (List.mem_cons_of_mem line hl)) (List.cons_ne_nil _ _)

/-- Lines without the needle are passed over. -/
theorem find_unlines {needle : Bytes} (hne : needle ≠ []) (hcr : 13 ∉ needle) (hlf : 10 ∉ needle)
    {lines : List Bytes} (h : ∀ line ∈ lines, ¬ needle <:+: line) (s : Bytes) :
    find needle (unlines lines ++ s) = find needle s := by
  have hnil : ¬ needle <:+: [] := fun hinfix => hne (List.infix_nil.mp hinfix)
  induction lines with
  | nil => rfl
  | cons line lines ih =>
    rw [unlines_cons, List.append_assoc, List.append_assoc]
    calc find needle (line ++ 13 :: ([] ++ 10 :: (unlines lines ++ s)))
        = find needle ([] ++ 10 :: (unlines lines ++ s)) :=
          find_skip_until hne hcr (h line List.mem_cons_self) _
      _ = find needle (unlines lines ++ s) := find_skip_until hne hlf hnil _
      _ = find needle s := ih fun l hl => h l (List.mem_cons_of_mem line hl)

/-! ## The request line -/

/-- The decoded target fits wherever the target does. -/
theorem requestLine_eq (method target : Bytes) (hne : method ≠ [])
    (hword : IsWord method) (hlt : method.length < 8)
    (hnul : 0 ∉ method ++ 32 :: target) :
    requestLine (method ++ 32 :: target) =
      if (scanToken target).1.length < 1024 then
        .ok (method, cstr (urlDecode (scanToken target).1))
      else .error (.overflow .path) := by
  obtain ⟨b, w, rfl⟩ := List.exists_cons_of_ne_nil hne
  have hfirst : scanToken (cstr (b :: w ++ 32 :: target)) = (b :: w, 32 :: target) := by
    rw [cstr_eq_self hnul, scanToken_word hword (by decide)]
  have hsecond : scanToken (32 :: target) = scanToken target :=
    scanToken_cons_space (by decide) target
  have hmethod : Buffer.method.put (b :: w) = .ok (b :: w) := Buffer.put_of_lt hlt
  rw [requestLine, hfirst, hsecond, hmethod]
  show (Buffer.path.put (scanToken target).1 >>= _) = _
  by_cases hfits : (scanToken target).1.length < 1024
  · have hpath : Buffer.path.put (scanToken target).1 = .ok (scanToken target).1 :=
      Buffer.put_of_lt hfits
    have hdecoded : (urlDecode (scanToken target).1).length < 1024 :=
      Nat.lt_of_le_of_lt (length_urlDecode_le _) hfits
    have hput : Buffer.decodedPath.put (urlDecode (scanToken target).1) =
        .ok (urlDecode (scanToken target).1) := Buffer.put_of_lt hdecoded
    have hcopy : Buffer.path.put (cstr (urlDecode (scanToken target).1)) =
        .ok (cstr (urlDecode (scanToken target).1)) :=
      Buffer.put_of_lt (Nat.lt_of_le_of_lt (length_cstr_le _) hdecoded)
    rw [if_pos hfits, hpath]
    show (Buffer.decodedPath.put _ >>= _) = _
    rw [hput]
    show (Buffer.path.put _ >>= _) = _
    rw [hcopy]
    rfl
  · have hpath : Buffer.path.put (scanToken target).1 = .error (.overflow .path) :=
      Buffer.put_of_not_lt hfits
    rw [if_neg hfits, hpath]
    rfl

/-! ## Sending a file -/

/-- The header has to fit `response`, and the loop has to end. -/
theorem sendFile_eq_ok_iff {host : Host} {path content : Bytes}
    (opened : host.fopen path = some (.ofFile content)) {effects : List Effect} :
    sendFile host path = .ok effects ↔
      (downloadHeader (toInt32 content.length) (path.rtakeWhile (· ≠ 47))).length < 1024 ∧
        ∃ sent,
          downloadLoop (toInt32 content.length) 0 (Opened.ofFile content).freads = .ok sent ∧
            effects = .openRead path ::
              .send (downloadHeader (toInt32 content.length) (path.rtakeWhile (· ≠ 47))) ::
                sent.map .send := by
  rw [sendFile, opened]
  constructor
  · intro h
    obtain ⟨response, hput, h⟩ := bind_eq_ok.mp h
    obtain ⟨hfits, rfl⟩ := Buffer.put_eq_ok.mp hput
    obtain ⟨sent, hsent, h⟩ := bind_eq_ok.mp h
    exact ⟨hfits, sent, hsent, (Except.ok.inj h).symm⟩
  · rintro ⟨hfits, sent, hsent, rfl⟩
    refine bind_eq_ok.mpr ⟨_, Buffer.put_eq_ok.mpr ⟨hfits, rfl⟩, ?_⟩
    exact bind_eq_ok.mpr ⟨sent, hsent, rfl⟩

end Np20
end NetLab
