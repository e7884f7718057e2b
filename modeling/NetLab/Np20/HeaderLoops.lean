import NetLab.Library.Message
import NetLab.Np20.Requests

/-!
# The loops that read headers

Both loops take one byte at a time until the buffer holds an empty line.  They
count the bytes in `int`s: the loop of the request in `bodyLen`, the loop of the
part header in `partLen` and in the `contentRead` of the content loop.
-/

namespace NetLab
namespace Np20

open CString Message

/-- The request is read up to its first empty line, or to the end, and so is the
part header behind a POST, with both of its counters at its length. -/
structure ReadsExactly (stream : Bytes) : Prop where
  request : requestLoop stream =
    .ok { body := (split stream).1,
          counters := { len := (split stream).1.length, contentRead := 0 },
          rest := (split stream).2 }
  part : firstWord (split stream).1 = ascii "POST" → partLoop (split stream).2 =
    .ok { body := (split (split stream).2).1,
          counters := { len := (split (split stream).2).1.length,
                        contentRead := (split (split stream).2).1.length },
          rest := (split (split stream).2).2 }

/-- There is no NUL in the request header, nor in the part header of a POST. -/
structure NulFree (stream : Bytes) : Prop where
  request : 0 ∉ (split stream).1
  part : firstWord (split stream).1 = ascii "POST" → 0 ∉ (split (split stream).2).1

/-- The headers are no longer than an `int` counts. -/
structure Countable (stream : Bytes) : Prop where
  request : (split stream).1.length ≤ intMax
  part : firstWord (split stream).1 = ascii "POST" → (split (split stream).2).1.length ≤ intMax

/-! ## Both headers -/

/-- Without NUL the loop cuts the stream where its first empty line ends. -/
theorem readHeader_eq_split {stream : Bytes} (h : 0 ∉ (split stream).1) :
    readHeader [] stream = split stream := by
  cases hfind : find emptyLine stream with
  | none =>
    rw [split_of_none hfind]
    rcases readHeader_cases stream [] rfl with ⟨header, rest, heq, hheader⟩ | ⟨hread, -⟩
    · have hsome := hheader.first
      have hgrown := find_append hsome rest
      rw [← heq, List.nil_append] at hgrown
      exact nomatch hfind.symm.trans hgrown
    · exact hread
  | some tail =>
    obtain ⟨header, body, hsplit, hstream, hhead⟩ := split_of_find hfind
    rw [hsplit] at h ⊢
    have hheader : IsHeader header := ⟨h, hhead⟩
    rw [hstream, hheader.readHeader_eq]

theorem readHeader_eq_split_of_notMem {stream : Bytes} (h : 0 ∉ stream) :
    readHeader [] stream = split stream := by
  refine readHeader_eq_split fun hmem => h ?_
  rw [← split_append stream]
  exact List.mem_append_left _ hmem

/-- The loops read the two headers exactly as long as an `int` counts them. -/
theorem headers_exact_iff {stream : Bytes} (h : NulFree stream) :
    ReadsExactly stream ↔ Countable stream := by
  have hrequest := requestLoop_eq stream
  have hpart := partLoop_eq (split stream).2
  rw [readHeader_eq_split h.request] at hrequest
  constructor
  · intro hreads
    refine ⟨?_, fun hpost => ?_⟩
    · by_contra hlong
      rw [if_neg hlong, hreads.request] at hrequest
      cases hrequest
    · rw [readHeader_eq_split (h.part hpost)] at hpart
      by_contra hlong
      rw [if_neg hlong, hreads.part hpost] at hpart
      cases hpart
  · intro hcount
    refine ⟨?_, fun hpost => ?_⟩
    · rw [hrequest, if_pos hcount.request]
    · rw [readHeader_eq_split (h.part hpost)] at hpart
      rw [hpart, if_pos (hcount.part hpost)]

/-- A part header whose end follows a part of another end. -/
def overlapping : Bytes := ascii "POST / HTTP/1.1\r\n\r\nname\r\n\r\r\n\r\nabc"

theorem overlapping_exact : NulFree overlapping ∧ ReadsExactly overlapping := by
  have hnul : NulFree overlapping := ⟨by decide +kernel, fun _ => by decide +kernel⟩
  exact ⟨hnul, (headers_exact_iff hnul).mpr ⟨by decide +kernel, fun _ => by decide +kernel⟩⟩

/-- `bodyLen` overflows in a stream without an empty line. -/
theorem endless_request_overflows : ¬ ∀ stream, NulFree stream → ReadsExactly stream := by
  intro h
  obtain ⟨stream, hstream⟩ : ∃ stream : Bytes, stream = List.replicate (2 ^ 31) 97 := ⟨_, rfl⟩
  have hlen : stream.length = 2 ^ 31 := by rw [hstream, List.length_replicate]
  have hbyte : ∀ b ∈ stream, b = 97 := fun b hb => (List.mem_replicate.mp (hstream ▸ hb)).2
  have hnone : find emptyLine stream = none := by
    rw [← Option.not_isSome_iff_eq_none, find_isSome_iff]
    intro hin
    exact absurd (hbyte 13 (hin.subset (by decide))) (by decide)
  have hsplit := split_of_none hnone
  have hnul : NulFree stream := by
    refine ⟨?_, fun _ => ?_⟩
    · rw [hsplit]
      exact fun hmem => absurd (hbyte 0 hmem) (by decide)
    · rw [hsplit]
      show (0 : UInt8) ∉ (split []).1
      decide
  have hrequest := requestLoop_eq stream
  rw [readHeader_eq_split hnul.request, (h stream hnul).request, hsplit, hlen] at hrequest
  rw [if_neg (by decide)] at hrequest
  cases hrequest

end Np20
end NetLab
