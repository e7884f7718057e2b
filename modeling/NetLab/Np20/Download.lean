import NetLab.Library.Message
import NetLab.Np20.Links
import NetLab.Np20.Responses

/-!
# Downloads

A file goes out behind a header with its length, which passed through an `int`.
The loop that sends it counts what `fread` returned, whatever that was.
-/

namespace NetLab
namespace Np20

open CString Message

/-- A GET whose decoded target is a path with a question mark behind it. -/
structure DownloadRequest where
  header : Bytes
  path : Bytes
  isHeader : IsHeader header
  method_eq : firstWord header = ascii "GET"
  decodedPath_eq : decodedPath header = path ++ [63]

/-- The header is counted, and the target fits `path`. -/
structure DownloadRequest.Fits (request : DownloadRequest) : Prop where
  header_le : request.header.length ≤ intMax
  target_lt : (secondWord request.header).length < 1024

/-- What stands behind the last slash. -/
def DownloadRequest.filename (request : DownloadRequest) : Bytes :=
  request.path.rtakeWhile (· ≠ 47)

/-- The icon of the server is sent whole and has the content. -/
def IconIs (host : Host) (content : Bytes) : Prop :=
  ∃ icon, host.fopen faviconName = some icon ∧ 0 ≤ toInt32 icon.length ∧
    icoData icon (toInt32 icon.length).toNat = content

/-- The connection gets a message with exactly the content. -/
def Delivers (host : Host) (cuts : Nat → Nat) (stream content : Bytes) : Prop :=
  ∃ effects rest, clientThread host cuts stream = .ok (effects, rest) ∧
    Framed (blocksOf effects).flatten content

/-- The results of `fread`, call after call, on a file that may change: at the
end of the file it returns nothing from then on. -/
structure Reads where
  result : Nat → Bytes
  size_le : ∀ i, (result i).length ≤ blockSize
  at_end : ∀ i, result i = [] → result (i + 1) = []

def Reads.first (reads : Reads) (n : Nat) : List Bytes := (List.range n).map reads.result

/-- The loop ends after some of the results and passes no more to `Send` than was
announced. -/
def EndsWithin (reads : Reads) (len : Int) : Prop :=
  ∃ n sent, downloadLoop len 0 (reads.first n) = .ok sent ∧ (sent.flatten.length : Int) ≤ len

/-! ## The header of a download -/

/-- Only in the file name an empty line can stand before the end. -/
theorem find_downloadHeader (n : Nat) (filename s : Bytes) :
    find emptyLine (downloadHeader n filename ++ s) =
      find emptyLine (filename ++ 34 :: (emptyLine ++ s)) := by
  have hdigits : 10 ∉ decimal n := fun h => absurd (isdigit_of_mem_decimal h) (by decide)
  have hlength : 10 ∉ ascii "Content-Length: " ++ decimal n := by
    rw [List.mem_append, not_or]
    exact ⟨by decide, hdigits⟩
  have hstatus : ascii "HTTP/1.1 200 OK\r\nContent-Length: " =
      ascii "HTTP/1.1 200 OK" ++ ascii "\r\n" ++ ascii "Content-Length: " := by decide +kernel
  have htype : ascii "\r\nContent-Type: application/octet-stream" =
      ascii "\r\n" ++ ascii "Content-Type: application/octet-stream" := by decide +kernel
  have hname : ascii "\r\nContent-Disposition: attachment; filename=\"" =
      ascii "\r\n" ++ ascii "Content-Disposition: attachment; filename=" ++ [34] := by
    decide +kernel
  have hend : ascii "\"\r\n\r\n" = [34] ++ emptyLine := by decide +kernel
  have hheader : downloadHeader n filename ++ s = ascii "HTTP/1.1 200 OK" ++ ascii "\r\n" ++
      (ascii "Content-Length: " ++ decimal n ++ ascii "\r\n" ++
        (ascii "Content-Type: application/octet-stream" ++ ascii "\r\n" ++
          (ascii "Content-Disposition: attachment; filename=" ++
            34 :: (filename ++ 34 :: (emptyLine ++ s))))) := by
    simp only [downloadHeader, hstatus, htype, hname, hend, List.append_assoc, List.cons_append,
      List.nil_append]
  rw [hheader, find_emptyLine_line (by decide) ?_, find_emptyLine_line hlength ?_,
    find_emptyLine_line (by decide) (not_starts_crlf (by decide) (by decide)),
    find_skip_until (by decide) (by decide) (by decide)]
  · rw [List.append_assoc]
    exact not_starts_crlf (by decide) (by decide)
  · rw [List.append_assoc, List.append_assoc]
    exact not_starts_crlf (by decide) (by decide)

theorem isHead_downloadHeader (n : Nat) {filename : Bytes} (h : ¬ emptyLine <:+: filename) :
    IsHead (downloadHeader n filename) := by
  have hfind := find_downloadHeader n filename []
  rw [List.append_nil, find_skip_until (by decide) (by decide) h, List.append_nil] at hfind
  exact hfind

theorem announced_downloadHeader (n : Nat) (filename : Bytes) :
    announced (downloadHeader n filename) = some (n : Int) := by
  have hheader : downloadHeader n filename = ascii "HTTP/1.1 200 OK" ++
      (lengthName ++ (decimal n ++ (ascii "\r\n" ++
        (ascii "Content-Type: application/octet-stream" ++
          (ascii "\r\nContent-Disposition: attachment; filename=\"" ++
            (filename ++ ascii "\"\r\n\r\n")))))) := by
    have hstatus : ascii "HTTP/1.1 200 OK\r\nContent-Length: " =
        ascii "HTTP/1.1 200 OK" ++ lengthName := by decide +kernel
    have htype : ascii "\r\nContent-Type: application/octet-stream" =
        ascii "\r\n" ++ ascii "Content-Type: application/octet-stream" := by decide +kernel
    simp only [downloadHeader, hstatus, htype, List.append_assoc]
  rw [hheader]
  exact announced_append (by decide) n _

/-- An empty line in the file name makes the rest of the header a part of the
body. -/
theorem body_of_infix {n : Nat} {filename sent body : Bytes} (hname : emptyLine <:+: filename)
    (h : Framed (downloadHeader n filename ++ sent) body) : sent.length < body.length := by
  obtain ⟨t, ht⟩ := Option.isSome_iff_exists.mp (find_isSome_iff.mpr hname)
  obtain ⟨⟨u, rfl⟩, -⟩ := find_spec ht
  have hfind := h.find_eq
  rw [find_downloadHeader, find_append ht, Option.some.injEq, List.append_assoc] at hfind
  rw [← List.append_cancel_left hfind, List.length_append, List.length_cons, List.length_append]
  omega

/-! ## The answer -/

variable (request : DownloadRequest) (host : Host)

theorem DownloadRequest.nul_notMem : 0 ∉ request.path ++ [63] := by
  rw [← request.decodedPath_eq]
  exact zero_notMem_cstr _

/-- The question mark is no part of the name of the icon. -/
theorem DownloadRequest.favicon_iff :
    (strstr (request.path ++ [63]) faviconName).isSome ↔ faviconName <:+: request.path := by
  rw [strstr, cstr_eq_self request.nul_notMem, find_isSome_iff]
  constructor
  · rintro ⟨before, after, h⟩
    rcases List.eq_nil_or_concat after with rfl | ⟨init, last, rfl⟩
    · rw [List.append_nil] at h
      have hlast := congrArg List.getLast? h
      rw [List.getLast?_concat, List.getLast?_append_of_ne_nil _ (by decide)] at hlast
      exact absurd hlast (by decide)
    · rw [List.concat_eq_append, ← List.append_assoc] at h
      exact ⟨before, init, (List.append_inj' h rfl).1⟩
  · intro h
    exact h.trans (List.prefix_append _ _).isInfix

/-- Such a request reaches the branch that sends a file, unless it asks for the
icon. -/
theorem DownloadRequest.clientThread_eq (hfits : request.Fits) (cuts : Nat → Nat) (body : Bytes) :
    clientThread host cuts (request.header ++ body) =
      (if faviconName <:+: request.path then sendFavicon host
        else sendFile host request.path) >>= fun effects => .ok (effects, body) := by
  rw [clientThread_get host cuts request.isHeader hfits.header_le request.method_eq hfits.target_lt,
    request.decodedPath_eq, serveGet, List.getLast?_concat, List.dropLast_concat]
  by_cases hicon : faviconName <:+: request.path
  · rw [if_pos (request.favicon_iff.mpr hicon), if_pos hicon]
    rfl
  · rw [if_neg fun h => hicon (request.favicon_iff.mp h), if_neg hicon]
    rfl

/-- A request that ends has been counted, and its target fits. -/
theorem DownloadRequest.fits_of_ok {cuts : Nat → Nat} {body : Bytes} {out : List Effect × Bytes}
    (h : clientThread host cuts (request.header ++ body) = .ok out) : request.Fits := by
  have hlen := length_header_le request.isHeader h
  refine ⟨hlen, ?_⟩
  by_contra hlong
  have hmethod : (firstWord request.header).length < 8 := by
    rw [request.method_eq]
    decide
  rw [clientThread_header host cuts request.isHeader hlen, requestLine_target hmethod hlong] at h
  cases h

theorem DownloadRequest.delivers_iff (cuts : Nat → Nat) (body content : Bytes) :
    Delivers host cuts (request.header ++ body) content ↔ request.Fits ∧
      ∃ effects, (if faviconName <:+: request.path then sendFavicon host
          else sendFile host request.path) = .ok effects ∧
        Framed (blocksOf effects).flatten content := by
  constructor
  · rintro ⟨effects, rest, hok, hframed⟩
    have hfits := request.fits_of_ok host hok
    rw [request.clientThread_eq host hfits] at hok
    obtain ⟨sent, hsent, heq⟩ := bind_eq_ok.mp hok
    obtain ⟨rfl, -⟩ := Prod.mk.inj (Except.ok.inj heq)
    exact ⟨hfits, sent, hsent, hframed⟩
  · rintro ⟨hfits, effects, hok, hframed⟩
    refine ⟨effects, body, ?_, hframed⟩
    rw [request.clientThread_eq host hfits]
    exact bind_eq_ok.mpr ⟨effects, hok, rfl⟩

/-! ## The icon -/

theorem isHead_okHeader (n : Nat) :
    IsHead (okHeader n (ascii "image/x-icon")) ∧
      announced (okHeader n (ascii "image/x-icon")) = some (n : Int) := by
  have hdigits : 10 ∉ decimal n := fun h => absurd (isdigit_of_mem_decimal h) (by decide)
  have hlength : 10 ∉ ascii "Content-Length: " ++ decimal n := by
    rw [List.mem_append, not_or]
    exact ⟨by decide, hdigits⟩
  have hstatus : ascii "HTTP/1.1 200 OK\r\nContent-Length: " =
      ascii "HTTP/1.1 200 OK" ++ ascii "\r\n" ++ ascii "Content-Length: " := by decide +kernel
  have hname : ascii "HTTP/1.1 200 OK\r\nContent-Length: " =
      ascii "HTTP/1.1 200 OK" ++ lengthName := by decide +kernel
  have htype : ascii "\r\nContent-Type: " = ascii "\r\n" ++ ascii "Content-Type: " := by
    decide +kernel
  have hlines : okHeader n (ascii "image/x-icon") = ascii "HTTP/1.1 200 OK" ++ ascii "\r\n" ++
      (ascii "Content-Length: " ++ decimal n ++ ascii "\r\n" ++
        (ascii "Content-Type: image/x-icon" ++ emptyLine ++ [])) := by
    have hicon : ascii "Content-Type: image/x-icon" =
        ascii "Content-Type: " ++ ascii "image/x-icon" := by decide +kernel
    rw [okHeader, hstatus, htype, hicon, List.append_nil]
    simp only [List.append_assoc]
    rfl
  constructor
  · have hplain : 10 ∉ ascii "Content-Type: image/x-icon" := by decide
    have hlast := find_emptyLine_last hplain []
    rw [IsHead, hlines, find_emptyLine_line (by decide) ?_, find_emptyLine_line hlength ?_, hlast,
      List.append_nil]
    · rw [List.append_assoc]
      exact not_starts_crlf (by decide) (by decide)
    · rw [List.append_assoc, List.append_assoc]
      exact not_starts_crlf (by decide) (by decide)
  · have hheader : okHeader n (ascii "image/x-icon") = ascii "HTTP/1.1 200 OK" ++
        (lengthName ++ (decimal n ++ (ascii "\r\n" ++
          (ascii "Content-Type: " ++ (ascii "image/x-icon" ++ ascii "\r\n\r\n"))))) := by
      rw [okHeader, hname, htype]
      simp only [List.append_assoc]
    rw [hheader]
    exact announced_append (by decide) n _

theorem length_icoData (f : Opened) (n : Nat) : (icoData f n).length = n := by
  rw [icoData, List.length_append, List.length_replicate, List.length_take]
  omega

theorem framed_icon_iff (icon : Opened) (n : Nat) (content : Bytes) :
    Framed (okHeader n (ascii "image/x-icon") ++ icoData icon n) content ↔
      icoData icon n = content := by
  rw [framed_iff (isHead_okHeader n).1, (isHead_okHeader n).2, Option.some.injEq]
  constructor
  · intro h
    exact h.1
  · intro h
    rw [← h, length_icoData]
    exact ⟨rfl, rfl⟩

/-- The answer without an icon announces nothing. -/
theorem not_framed_notFound (content : Bytes) : ¬ Framed notFound content := by
  rintro ⟨header, hmessage, hhead, hlength⟩
  have hnotFound : find emptyLine notFound = some emptyLine ∧ announced notFound = none := by
    decide +kernel
  have hsent : notFound ++ [] = header ++ content := by
    rw [List.append_nil]
    exact hmessage
  obtain ⟨rfl, -⟩ := IsHead.unique hnotFound.1 hhead hsent
  rw [hnotFound.2] at hlength
  cases hlength

/-- What the branch of the icon delivers is the icon. -/
theorem sendFavicon_framed_iff (content : Bytes) :
    (∃ effects, sendFavicon host = .ok effects ∧ Framed (blocksOf effects).flatten content) ↔
      IconIs host content := by
  rw [IconIs, sendFavicon]
  cases host.fopen faviconName with
  | none =>
    refine iff_of_false ?_ (by rintro ⟨_, h, -⟩; cases h)
    rintro ⟨effects, hok, hframed⟩
    obtain rfl := Except.ok.inj hok
    exact not_framed_notFound content (by simpa [blocksOf] using hframed)
  | some icon =>
    dsimp only
    by_cases hlt : toInt32 icon.length < 0
    · rw [if_pos hlt]
      refine iff_of_false (by rintro ⟨_, h, -⟩; cases h) ?_
      rintro ⟨icon', heq, hle, -⟩
      obtain rfl := Option.some.inj heq
      omega
    · rw [if_neg hlt]
      obtain ⟨n, hn⟩ := Int.eq_ofNat_of_zero_le (Int.not_lt.mp hlt)
      have hmax : n ≤ intMax := by
        have hle := toInt32_le_intMax icon.length
        omega
      have hput : Buffer.ok.put (okHeader n (ascii "image/x-icon")) = .ok _ :=
        Buffer.put_of_lt (okHeader_fits hmax (by decide))
      rw [hn, Int.toNat_natCast]
      show (∃ effects,
        (Buffer.ok.put (okHeader n (ascii "image/x-icon")) >>= _) = .ok effects ∧ _) ↔ _
      rw [hput]
      constructor
      · rintro ⟨effects, hok, hmessage⟩
        obtain rfl := Except.ok.inj hok
        refine ⟨icon, rfl, by omega, ?_⟩
        rw [hn, Int.toNat_natCast]
        exact (framed_icon_iff icon n content).mp (by simpa [blocksOf] using hmessage)
      · rintro ⟨icon', heq, -, hcontent⟩
        obtain rfl := Option.some.inj heq
        rw [hn, Int.toNat_natCast] at hcontent
        refine ⟨_, rfl, ?_⟩
        have hmessage := (framed_icon_iff icon n content).mpr hcontent
        simpa [blocksOf] using hmessage

/-! ## The file -/

/-- What goes out behind the header ends within a block of the announced length. -/
theorem length_sent_le {content : Bytes} {sent : List Bytes}
    (h : downloadLoop (toInt32 content.length) 0 (Opened.ofFile content).freads = .ok sent)
    (hlong : intMax < content.length) : sent.flatten.length + 1024 ≤ content.length := by
  have hcut := toInt32_le_sub hlong
  have hmax : intMax = 2147483647 := rfl
  have hb : blockSize = 1048576 := rfl
  rcases downloadLoop_le _ (fun d hd => length_blocks_le hd) h with rfl | hle
  · rw [List.flatten_nil, List.length_nil]
    omega
  · omega

/-- A longer file goes out short. -/
theorem length_le_of_framed {path content : Bytes}
    (opened : host.fopen path = some (.ofFile content)) {effects : List Effect}
    (hok : sendFile host path = .ok effects) (h : Framed (blocksOf effects).flatten content) :
    content.length ≤ intMax := by
  obtain ⟨header, hmessage, hhead, -⟩ := h
  obtain ⟨hfits, sent, hsent, rfl⟩ := (sendFile_eq_ok_iff opened).mp hok
  rw [flatten_blocksOf_file] at hmessage
  by_contra hlong
  have hshort := length_sent_le hsent (Nat.lt_of_not_le hlong)
  have hpos := List.length_pos_of_ne_nil hhead.ne_nil
  have htotal := congrArg List.length hmessage
  rw [List.length_append, List.length_append] at htotal
  omega

/-- The branch of a file delivers it when its length is an `int`, its header fits
`response`, and its name does not hold an empty line. -/
theorem sendFile_framed_iff {path content : Bytes}
    (opened : host.fopen path = some (.ofFile content)) :
    (∃ effects, sendFile host path = .ok effects ∧ Framed (blocksOf effects).flatten content) ↔
      content.length ≤ intMax ∧
        (downloadHeader content.length (path.rtakeWhile (· ≠ 47))).length < 1024 ∧
        ¬ emptyLine <:+: path.rtakeWhile (· ≠ 47) := by
  constructor
  · rintro ⟨effects, hok, hframed⟩
    have hlen := length_le_of_framed host opened hok hframed
    obtain ⟨hfits, sent, hsent, rfl⟩ := (sendFile_eq_ok_iff opened).mp hok
    rw [flatten_blocksOf_file] at hframed
    have hwhole : sent.flatten = content := by
      obtain ⟨blocks, hloop, hblocks⟩ := downloadLoop_whole hlen
      rw [Except.ok.inj (hsent.symm.trans hloop), hblocks]
    rw [toInt32_of_le hlen] at hfits hframed
    refine ⟨hlen, hfits, fun hname => ?_⟩
    have hlt := body_of_infix hname hframed
    rw [hwhole] at hlt
    exact absurd hlt (Nat.lt_irrefl _)
  · rintro ⟨hlen, hfits, hname⟩
    obtain ⟨effects, hok, blocks, hblocks, rfl⟩ := (sendFile_file opened).mpr ⟨hlen, hfits⟩
    refine ⟨_, hok, ?_⟩
    rw [flatten_blocksOf_file, hblocks]
    exact (framed_iff (isHead_downloadHeader _ hname) _ _).mpr
      ⟨rfl, announced_downloadHeader _ _⟩

/-- A file is delivered exactly when the request fits and either its path does not
mention the icon, its length is an `int`, its header fits `response` and its name
does not hold an empty line, or the icon that is sent in its place has the same
content. -/
theorem download_delivers_iff (cuts : Nat → Nat) (body : Bytes) {content : Bytes}
    (opened : host.fopen request.path = some (.ofFile content)) :
    Delivers host cuts (request.header ++ body) content ↔ request.Fits ∧
      (¬ faviconName <:+: request.path ∧ content.length ≤ intMax ∧
          (downloadHeader content.length request.filename).length < 1024 ∧
          ¬ emptyLine <:+: request.filename ∨
        faviconName <:+: request.path ∧ IconIs host content) := by
  rw [request.delivers_iff]
  refine and_congr_right fun _ => ?_
  by_cases hicon : faviconName <:+: request.path
  · rw [or_iff_right fun h => h.1 hicon, and_iff_right hicon, ← sendFavicon_framed_iff]
    simp only [if_pos hicon]
  · rw [or_iff_left fun h => hicon h.1, and_iff_right hicon, DownloadRequest.filename,
      ← sendFile_framed_iff host opened]
    simp only [if_neg hicon]

/-- The link of the file `/a`. -/
def requestOfA : DownloadRequest where
  header := ascii "GET /a? HTTP/1.1\r\n\r\n"
  path := ascii "/a"
  isHeader := by decide +kernel
  method_eq := by decide +kernel
  decodedPath_eq := by decide +kernel

/-- A host with one file, `/a`. -/
def hostOfA (content : Bytes) : Host where
  scandir := fun _ => []
  fopen := fun path => if path = ascii "/a" then some (.ofFile content) else none
  creates := fun _ => false
  verify := fun _ => none

theorem hostOfA_fopen (content : Bytes) :
    (hostOfA content).fopen requestOfA.path = some (.ofFile content) := by
  show (if ascii "/a" = ascii "/a" then some (Opened.ofFile content) else none) = _
  exact if_pos rfl

theorem one_byte_delivered : (hostOfA [7]).fopen requestOfA.path = some (.ofFile [7]) ∧
    Delivers (hostOfA [7]) (fun _ => 1) (requestOfA.header ++ []) [7] :=
  ⟨hostOfA_fopen [7], (download_delivers_iff requestOfA (hostOfA [7]) (fun _ => 1) []
    (hostOfA_fopen [7])).mpr ⟨⟨by decide +kernel, by decide +kernel⟩,
      .inl ⟨by decide +kernel, by decide, by decide +kernel, by decide +kernel⟩⟩⟩

/-- A file of `2 ^ 31` bytes is announced with a negative length and not sent. -/
theorem long_file_not_delivered :
    ¬ ∀ (request : DownloadRequest) (host : Host) (cuts : Nat → Nat) (content : Bytes),
      host.fopen request.path = some (.ofFile content) →
        Delivers host cuts (request.header ++ []) content := by
  intro h
  obtain ⟨content, hcontent⟩ : ∃ content : Bytes, content = List.replicate (2 ^ 31) 7 := ⟨_, rfl⟩
  have hlen : content.length = 2 ^ 31 := by rw [hcontent, List.length_replicate]
  have hicon : ¬ faviconName <:+: requestOfA.path := by decide +kernel
  obtain ⟨-, effects, hok, hframed⟩ := (requestOfA.delivers_iff ..).mp
    (h requestOfA (hostOfA content) (fun _ => 1) content (hostOfA_fopen content))
  rw [if_neg hicon] at hok
  have hle := length_le_of_framed (hostOfA content) (hostOfA_fopen content) hok hframed
  rw [hlen, intMax] at hle
  omega

/-! ## The loop -/

/-- The loop stops only at the announced length. -/
theorem downloadLoop_reaches {len : Int} (freads : List Bytes) :
    ∀ {read : Int} {sent : List Bytes}, downloadLoop len read freads = .ok sent →
      ∃ k, sent = freads.take k ∧ len ≤ read + sent.flatten.length := by
  induction freads with
  | nil =>
    intro read sent h
    rw [downloadLoop] at h
    split at h
    · cases h
    · rename_i hge
      rw [← Except.ok.inj h]
      refine ⟨0, rfl, ?_⟩
      rw [List.flatten_nil, List.length_nil]
      omega
  | cons data more ih =>
    intro read sent h
    rw [downloadLoop] at h
    split at h
    · split at h
      · obtain ⟨later, hlater, h⟩ := bind_eq_ok.mp h
        obtain ⟨k, rfl, hle⟩ := ih hlater
        rw [← Except.ok.inj h]
        refine ⟨k + 1, rfl, ?_⟩
        rw [List.flatten_cons, List.length_append]
        omega
      · cases h
    · rename_i hge
      rw [← Except.ok.inj h]
      refine ⟨0, rfl, ?_⟩
      rw [List.flatten_nil, List.length_nil]
      omega

theorem Reads.take_first (reads : Reads) (n k : Nat) :
    (reads.first n).take k = reads.first (min k n) := by
  rw [first, first, ← List.map_take, List.take_range]

/-- The loop ends in time exactly when the results add up to the announced length
at some call. -/
theorem download_ends_iff (reads : Reads) (length : Int) :
    EndsWithin reads (toInt32 length) ↔
      ∃ k, ((reads.first k).flatten.length : Int) = toInt32 length := by
  constructor
  · rintro ⟨n, sent, hloop, hle⟩
    obtain ⟨k, rfl, hge⟩ := downloadLoop_reaches _ hloop
    rw [reads.take_first] at hle hge
    exact ⟨min k n, by omega⟩
  · rintro ⟨k, hk⟩
    have hmax := toInt32_le_intMax length
    have hfits : 0 + (reads.first k).flatten.length ≤ intMax := by omega
    obtain ⟨sent, hloop, hsent⟩ := downloadLoop_all (reads.first k) 0 hfits
    rw [Nat.zero_add, hk] at hloop
    refine ⟨k, sent, hloop, ?_⟩
    rw [hsent, hk]

/-- The results on a file that was emptied. -/
def emptied : Reads where
  result := fun _ => []
  size_le := fun _ => Nat.zero_le _
  at_end := fun _ _ => rfl

/-- A file that held one byte when its length was taken. -/
theorem emptied_hangs :
    ¬ ∀ (reads : Reads) (length : Int), 0 ≤ length → EndsWithin reads (toInt32 length) := by
  intro h
  obtain ⟨n, sent, hloop, -⟩ := h emptied 1 (by decide)
  obtain ⟨k, rfl, hle⟩ := downloadLoop_reaches _ hloop
  have hlen : toInt32 1 = 1 := by decide
  have hnil : ((emptied.first n).take k).flatten = [] := by
    rw [List.flatten_eq_nil_iff]
    intro data hdata
    obtain ⟨i, -, rfl⟩ := List.mem_map.mp (List.mem_of_mem_take hdata)
    rfl
  rw [hnil, hlen] at hle
  exact absurd hle (by decide)

end Np20
end NetLab
