import NetLab.Np20.Storing

/-!
# The arrays of the answer to an upload

The path is written into `fullpath`, both go into `html_response` together with
the name, and that page goes into `response`, which is the smallest of the
three.
-/

namespace NetLab
namespace Np20

open CString

/-- What the last `sprintf` of the answer writes. -/
def uploadResponse (html : Bytes) : Bytes :=
  ascii "HTTP/1.1 200 OK\r\nContent-Type: text/html\r\nContent-Length: " ++
    decimal html.length ++ ascii "\r\n\r\n" ++ html

/-- Each text fits its array together with its NUL. -/
structure AnswerInBuffers (path name : Bytes) (size : Int) : Prop where
  fullpath : (fullpathOf path name).length + 1 ≤ 2048
  page : (uploadPage name size (fullpathOf path name) path).length + 1 ≤ 2048
  response : (uploadResponse (uploadPage name size (fullpathOf path name) path)).length + 1 ≤ 1024

theorem length_fullpathOf (path name : Bytes) :
    (fullpathOf path name).length = path.length + (separator path).length + name.length := by
  rw [fullpathOf, List.length_append, List.length_append]

/-- The page has the path and the name twice each. -/
theorem length_uploadPage (path name : Bytes) (size : Int) :
    (uploadPage name size (fullpathOf path name) path).length =
      155 + 2 * (path.length + name.length) + (separator path).length + (decimal size).length := by
  have htitle : (ascii "<html><body><h2>Upload Successful!</h2><p>File: <b>").length = 51 := rfl
  have hsize : (ascii "</b></p><p>Size: <b>").length = 20 := rfl
  have hlocation : (ascii "</b> bytes</p><p>Location: <b>").length = 30 := rfl
  have hlink : (ascii "</b></p><a href=\"").length = 17 := rfl
  have hend : (ascii "\">Back to directory</a></body></html>").length = 37 := rfl
  simp only [uploadPage, List.length_append, htitle, hsize, hlocation, hlink, hend,
    length_fullpathOf]
  omega

theorem length_uploadResponse (html : Bytes) :
    (uploadResponse html).length = 62 + (decimal html.length).length + html.length := by
  have hhead : (ascii "HTTP/1.1 200 OK\r\nContent-Type: text/html\r\nContent-Length: ").length =
      58 := rfl
  have hend : (ascii "\r\n\r\n").length = 4 := rfl
  simp only [uploadResponse, List.length_append, hhead, hend]
  omega

/-- A page of at most 958 bytes has a length of three digits or fewer, and a
longer one is too long with any number in front. -/
theorem response_fits_iff (n : Nat) : 62 + (decimal n).length + n + 1 ≤ 1024 ↔ n ≤ 958 := by
  constructor
  · intro h
    by_contra hlong
    have hcases : n = 959 ∨ n = 960 ∨ n = 961 ∨ 962 ≤ n := by omega
    rcases hcases with rfl | rfl | rfl | hmore
    · exact absurd h (by decide)
    · exact absurd h (by decide)
    · exact absurd h (by decide)
    · omega
  · intro h
    have hdigits : (decimal n).length ≤ 3 := length_decimal_le (by omega) (by omega)
    omega

/-- The arrays of the answer are those of the handler. -/
theorem verifyUpload_ok_iff_inBuffers {host : Host} {path name : Bytes} {size : Int}
    (hverify : host.verify (fullpathOf path name) = some size) :
    ((∃ fullpath, Buffer.fullpath.put (fullpathOf path name) = .ok fullpath) ∧
        ∃ response, verifyUpload host name (fullpathOf path name) path = .ok response) ↔
      AnswerInBuffers path name size := by
  rw [verifyUpload_ok_iff, AnswerFits]
  have hsize : Buffer.fullpath.size = 2048 := rfl
  constructor
  · rintro ⟨⟨fullpath, hput⟩, hanswer⟩
    have hfull := (Buffer.put_eq_ok.mp hput).1
    have hlt := hanswer size hverify
    dsimp only at hlt
    refine ⟨by omega, by omega, ?_⟩
    rw [length_uploadResponse]
    omega
  · intro h
    refine ⟨⟨_, Buffer.put_of_lt (by have hfull := h.fullpath; omega)⟩, ?_⟩
    intro size' hsize'
    obtain rfl := Option.some.inj (hverify.symm.trans hsize')
    have hresponse := h.response
    rw [length_uploadResponse] at hresponse
    dsimp only
    omega

/-- The answer fits exactly if path, name and number of digits are short enough
for the array `response`. -/
theorem answer_in_buffers_iff (path name : Bytes) (size : Int) :
    AnswerInBuffers path name size ↔
      2 * (path.length + name.length) + (separator path).length + (decimal size).length ≤ 803 := by
  have hpage := length_uploadPage path name size
  have hfull := length_fullpathOf path name
  constructor
  · intro h
    have hresponse := h.response
    rw [length_uploadResponse, response_fits_iff, hpage] at hresponse
    omega
  · intro h
    refine ⟨by omega, by omega, ?_⟩
    rw [length_uploadResponse, response_fits_iff, hpage]
    omega

/-- A directory of 151 bytes and a name of 255 bytes are too long together. -/
theorem answer_overflows :
    ¬ ∀ (path name : Bytes) (size : Int), 1 ≤ path.length ∧ path.length ≤ 1023 →
      name.length ≤ 1023 → AnswerInBuffers path name size := by
  intro h
  obtain ⟨path, hpath⟩ : ∃ path, path = 47 :: List.replicate 150 (100 : UInt8) := ⟨_, rfl⟩
  obtain ⟨name, hname⟩ : ∃ name, name = List.replicate 255 (97 : UInt8) := ⟨_, rfl⟩
  have hpathLength : path.length = 151 := by
    rw [hpath, List.length_cons, List.length_replicate]
  have hnameLength : name.length = 255 := by
    rw [hname, List.length_replicate]
  have hresponse := (h path name 0 (by omega) (by omega)).response
  rw [length_uploadResponse, response_fits_iff, length_uploadPage, hpathLength, hnameLength]
    at hresponse
  omega

end Np20
end NetLab
