import NetLab.Http.Links
import NetLab.Library.Message

/-!
# The response with a page

`send_response` formats the header and the page together into an array that is
no larger than the page's own.
-/

namespace NetLab
namespace Http

open CString Message

/-- The header of a page, from the value of `content_length`. -/
def responseHeader (contentLength : Int) : Bytes :=
  ascii "HTTP/1.1 200 OK\r\n" ++ ascii "Content-Type: text/html; charset=UTF-8\r\n" ++
    ascii "Content-Length: " ++ decimal contentLength ++ ascii "\r\n" ++
    ascii "Connection: close\r\n" ++ ascii "\r\n"

/-- The length of a page as an `int`. -/
def contentLength (htmlContent : Bytes) : Int := Int.bmod (cstr htmlContent).length (2 ^ 32)

/-- The bytes that `send_response` hands to `send`: the text in `response`, which
`snprintf` cuts to its `BUFFER_SIZE` bytes. -/
def sendResponse (htmlContent : Bytes) : Bytes :=
  let text := responseHeader (contentLength htmlContent) ++ cstr htmlContent
  cstr (text.take (bufferSize.toNat - 1) ++ [0])

/-- The answer to a request that is not for the icon; `htmlContent` is the array
before the page is written to it. -/
def sendPage (search : Option Found) (htmlContent : Bytes) : Option Bytes :=
  (scanDirectory search bufferSize htmlContent).map sendResponse

/-- The longest page that fits behind its header. -/
def maxPage : Nat := 8091

theorem responseHeader_eq (n : Int) : responseHeader n =
    ascii "HTTP/1.1 200 OK\r\nContent-Type: text/html; charset=UTF-8" ++
      (lengthName ++ (decimal n ++ (ascii "\r\n" ++ ascii "Connection: close\r\n\r\n"))) := by
  have hstart : ascii "HTTP/1.1 200 OK\r\nContent-Type: text/html; charset=UTF-8" ++ lengthName =
      ascii "HTTP/1.1 200 OK\r\n" ++ (ascii "Content-Type: text/html; charset=UTF-8\r\n" ++
        ascii "Content-Length: ") := by
    rw [lengthName]
    repeat rw [ascii_ofList]
    decide +kernel
  have hend : ascii "Connection: close\r\n\r\n" =
      ascii "Connection: close\r\n" ++ ascii "\r\n" := rfl
  rw [← List.append_assoc, hstart, hend]
  simp only [responseHeader, List.append_assoc]

theorem length_responseHeader (n : Int) :
    (responseHeader n).length = (decimal n).length + 96 := by
  have hstart :
      (ascii "HTTP/1.1 200 OK\r\nContent-Type: text/html; charset=UTF-8").length = 55 := by
    rw [ascii_ofList]
    rfl
  have hname : lengthName.length = 18 := rfl
  have hline : (ascii "\r\n").length = 2 := rfl
  have hend : (ascii "Connection: close\r\n\r\n").length = 21 := rfl
  simp only [responseHeader_eq, List.length_append]
  omega

theorem isHead_responseHeader (n : Nat) : IsHead (responseHeader n) := by
  have hcrlf : ∀ line s : Bytes, line ≠ [] → line.head? ≠ some 13 →
      ¬ ascii "\r\n" <+: line ++ ascii "\r\n" ++ s := by
    intro line s hne hhead
    rw [List.append_assoc]
    exact not_starts_crlf hne hhead
  have hdigits : 10 ∉ decimal n := fun h => absurd (isdigit_of_mem_decimal h) (by decide)
  have hlength : 10 ∉ ascii "Content-Length: " ++ decimal n := by
    rw [List.mem_append, not_or]
    exact ⟨by decide, hdigits⟩
  have hstatus : ascii "HTTP/1.1 200 OK\r\n" = ascii "HTTP/1.1 200 OK" ++ ascii "\r\n" := rfl
  have htype : ascii "Content-Type: text/html; charset=UTF-8\r\n" =
      ascii "Content-Type: text/html; charset=UTF-8" ++ ascii "\r\n" := by
    repeat rw [ascii_ofList]
    rfl
  have hclose : ascii "Connection: close" ++ emptyLine =
      ascii "Connection: close\r\n" ++ ascii "\r\n" := by decide +kernel
  have hheader : responseHeader n = ascii "HTTP/1.1 200 OK" ++ ascii "\r\n" ++
      (ascii "Content-Type: text/html; charset=UTF-8" ++ ascii "\r\n" ++
        (ascii "Content-Length: " ++ decimal n ++ ascii "\r\n" ++
          (ascii "Connection: close" ++ emptyLine ++ []))) := by
    rw [hclose]
    simp only [responseHeader, hstatus, htype, List.append_assoc, List.append_nil]
  rw [IsHead, hheader, find_emptyLine_line (by decide) (hcrlf _ _ (by decide) (by decide)),
    find_emptyLine_line (by decide) ?_, find_emptyLine_line hlength ?_,
    find_emptyLine_last (by decide), List.append_nil]
  · rw [List.append_assoc]
    exact not_starts_crlf (by decide) (by decide)
  · rw [List.append_assoc, List.append_assoc]
    exact not_starts_crlf (by decide) (by decide)

theorem announced_responseHeader (n : Nat) : announced (responseHeader n) = some (n : Int) := by
  rw [responseHeader_eq]
  exact announced_append (by decide) n _

theorem nul_notMem_responseHeader (n : Nat) : 0 ∉ responseHeader n := by
  have hdigits : 0 ∉ decimal n := fun h => absurd (isdigit_of_mem_decimal h) (by decide)
  simp only [responseHeader, List.mem_append, not_or]
  exact ⟨⟨⟨⟨⟨⟨by decide, by decide⟩, by decide⟩, hdigits⟩, by decide⟩, by decide⟩, by decide⟩

theorem bmod_of_lt {n : Nat} (h : n < 8192) : Int.bmod n (2 ^ 32) = n := by
  rw [Int.bmod_eq_of_le]
  · omega
  · omega

theorem contentLength_of_lt {htmlContent : Bytes} (h : (cstr htmlContent).length < 8192) :
    contentLength htmlContent = (cstr htmlContent).length := bmod_of_lt h

theorem length_sendResponse_le (htmlContent : Bytes) :
    (sendResponse htmlContent).length ≤ 8191 := by
  have hsize : bufferSize.toNat - 1 = 8191 := rfl
  rw [sendResponse, hsize]
  have hnul : (0 : UInt8) ∈ (responseHeader (contentLength htmlContent) ++ cstr htmlContent).take
      8191 ++ [0] := List.mem_append_right _ List.mem_cons_self
  have hlt := length_cstr_lt hnul
  rw [List.length_append, List.length_singleton, List.length_take] at hlt
  omega

/-- A page that fits its own array is cut at the end of `response`. -/
theorem sendResponse_eq {htmlContent : Bytes} (h : (cstr htmlContent).length < 8192) :
    let header := responseHeader (cstr htmlContent).length
    sendResponse htmlContent = header ++ (cstr htmlContent).take (8191 - header.length) := by
  intro header
  have hsize : bufferSize.toNat - 1 = 8191 := rfl
  have hdigits : (decimal (cstr htmlContent).length).length ≤ 4 :=
    length_decimal_le (by decide) (by omega)
  have hheader : header.length ≤ 8191 := by
    rw [length_responseHeader]
    omega
  have htext : (header ++ cstr htmlContent).take 8191 =
      header ++ (cstr htmlContent).take (8191 - header.length) := by
    rw [List.take_append, List.take_of_length_le hheader]
  have hnul : 0 ∉ header ++ (cstr htmlContent).take (8191 - header.length) := by
    rw [List.mem_append, not_or]
    exact ⟨nul_notMem_responseHeader _, fun hmem =>
      zero_notMem_cstr htmlContent (List.mem_of_mem_take hmem)⟩
  rw [sendResponse, contentLength_of_lt h, hsize, htext]
  exact cstr_concat_nul hnul

/-- A body that the page is a start of goes out whole exactly when it fits behind
its header. -/
theorem framed_cut_iff {htmlContent body : Bytes} (h : cstr htmlContent = body.take 8191) :
    Framed (sendResponse htmlContent) body ↔ body.length ≤ maxPage := by
  have hmax : maxPage = 8091 := rfl
  have hlen := congrArg List.length h
  rw [List.length_take] at hlen
  rw [hmax, sendResponse_eq (by omega), framed_iff (isHead_responseHeader _)]
  constructor
  · rintro ⟨hwhole, -⟩
    have hrest := congrArg List.length hwhole
    rw [List.length_take, length_responseHeader] at hrest
    -- From 1000 bytes on the printed length has four digits.
    have hdigits : ¬ (decimal (cstr htmlContent).length).length ≤ 3 ∨
        (cstr htmlContent).length < 1000 := by
      rw [length_decimal_le_iff (by decide)]
      omega
    omega
  · intro hle
    have hbody : cstr htmlContent = body := by
      rw [h]
      exact List.take_of_length_le (by omega)
    have hdigits : (decimal (cstr htmlContent).length).length ≤ 4 :=
      length_decimal_le (by decide) (by omega)
    have hfits : (cstr htmlContent).length ≤
        8191 - (responseHeader (cstr htmlContent).length).length := by
      rw [length_responseHeader]
      omega
    rw [List.take_of_length_le hfits, hbody]
    exact ⟨rfl, announced_responseHeader _⟩

/-- The page follows its header whole exactly when both fit the array. -/
theorem response_framed_iff (htmlContent : Bytes) :
    Framed (sendResponse htmlContent) (cstr htmlContent) ↔
      (cstr htmlContent).length ≤ maxPage := by
  by_cases hfits : (cstr htmlContent).length ≤ 8191
  · exact framed_cut_iff (List.take_of_length_le hfits).symm
  · have hmax : maxPage = 8091 := rfl
    refine iff_of_false ?_ (by omega)
    rintro ⟨header, hmessage, -, -⟩
    have hlen := length_sendResponse_le htmlContent
    rw [hmessage, List.length_append] at hlen
    omega

/-- A page of 8092 bytes. -/
def longPage : Bytes := List.replicate 8092 97

/-- The last byte of the page is not sent. -/
theorem longPage_cut : ¬ ∀ page : Bytes, 0 ∉ page → page.length < 8192 →
    Framed (sendResponse page) page := by
  intro h
  have hnul : 0 ∉ longPage := by
    rw [longPage, List.mem_replicate]
    exact fun h => absurd h.2 (by decide)
  have hlength : longPage.length = 8092 := List.length_replicate
  have hcut : cstr longPage = longPage.take 8191 := by
    rw [cstr_eq_self hnul, List.take_of_length_le (by omega)]
  have hle := (framed_cut_iff hcut).mp (h longPage hnul (by omega))
  rw [hlength] at hle
  exact absurd hle (by decide)

/-! ## The page of a directory -/

theorem nul_notMem_entryText {entry : FileEntry} (h : 0 ∉ entry.name) : 0 ∉ entryText entry := by
  have hcode := nul_notMem_encodedName entry.name
  rw [entryText]
  split
  · simp only [List.mem_append, not_or]
    exact ⟨⟨⟨⟨by decide +kernel, hcode⟩, by decide⟩, h⟩, by decide +kernel⟩
  · simp only [List.mem_append, not_or]
    exact ⟨⟨⟨⟨by decide +kernel, hcode⟩, by decide⟩, h⟩, by decide +kernel⟩

theorem nul_notMem_pageHead : 0 ∉ pageHead := by
  rw [pageHead, headLines]
  repeat rw [ascii_ofList]
  decide +kernel

theorem nul_notMem_pageText (search : Option Found) : 0 ∉ pageText search := by
  cases search with
  | none => decide +kernel
  | some found =>
    rw [pageText, List.mem_append, not_or, List.mem_flatten]
    refine ⟨?_, by decide +kernel⟩
    rintro ⟨text, htext, hnul⟩
    rcases mem_pageTexts htext with rfl | ⟨f, rfl⟩
    · exact nul_notMem_pageHead hnul
    · exact nul_notMem_entryText (fun hname => f.nul_notMem (List.mem_of_mem_take hname)) hnul

/-- A directory whose lines fit the page is answered, with its whole page exactly
when that fits behind the header. -/
theorem sendPage_framed_iff {search : Option Found} {htmlContent : Bytes}
    (hlen : htmlContent.length = bufferSize.toNat)
    (hfit : bytesBeforeEnd search ≤ bufferSize.toNat) :
    ∃ response, sendPage search htmlContent = some response ∧
      (Framed response (pageText search) ↔ (pageText search).length ≤ maxPage) := by
  obtain ⟨page, hrun, -, more, hpage⟩ := scanDirectory_page hlen (by decide) hfit
  refine ⟨sendResponse page, by rw [sendPage, hrun, Option.map_some], framed_cut_iff ?_⟩
  have hcut : 0 ∉ (pageText search).take (bufferSize.toNat - 1) := fun hmem =>
    nul_notMem_pageText search (List.mem_of_mem_take hmem)
  have hend : (0 : UInt8) ∈ (pageText search).take (bufferSize.toNat - 1) ++ [0] :=
    List.mem_append_right _ List.mem_cons_self
  rw [← hpage, cstr_append_of_mem hend, cstr_concat_nul hcut]
  rfl

end Http
end NetLab
