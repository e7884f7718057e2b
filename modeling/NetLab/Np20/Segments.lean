import NetLab.Np20.Storing

/-!
# Uploads and the segmentation of the stream

The same bytes can reach the server in any pieces.  Neither loop of an upload
looks at where the declared body ends, so what follows the body can be taken
too, and how much of it depends on the pieces.
-/

namespace NetLab
namespace Np20

open CString ByteStream

/-- The request and whatever follows it. -/
def PostRequest.followedBy (req : PostRequest) (extra : Bytes) : Bytes :=
  req.text ++ (req.body ++ extra)

/-- How many bytes the loop of a header has taken before each of its calls of
`recv`; the last call finds the end of a stream without a header. -/
def headerCalls (buf : Bytes) : Bytes → List Nat
  | [] => if (strstr buf headerEnd).isSome then [] else [buf.length]
  | chr :: stream =>
    if (strstr buf headerEnd).isSome then []
    else buf.length :: headerCalls (buf ++ [chr]) stream

/-- What `contentRead` is before each call of `recv` in the content loop. -/
def contentCalls (cuts : Nat → Nat) (contentLength : Int) (i contentRead : Nat)
    (stream : Bytes) : List Nat :=
  if contentRead < contentLength then
    let r := recv (cuts i) 1024 stream
    if r.1 = [] then [contentRead]
    else contentRead :: contentCalls cuts contentLength (i + 1) (contentRead + r.1.length) r.2
  else []
termination_by stream.length
decreasing_by
  have hpos : 0 < r.1.length := List.length_pos_iff.mpr ‹_›
  have hlen : r.1.length + r.2.length = stream.length := length_recv_add _ _ _
  change r.2.length < stream.length
  omega

/-- How many bytes behind the request header are taken before each call of `recv`,
in a run of `servePost` without a fault. -/
def postCalls (host : Host) (cuts : Nat → Nat) (requestBody path stream : Bytes) : List Nat :=
  let (partBody, rest) := readHeader [] stream
  headerCalls [] stream ++
    if (strstr partBody headerEnd).isSome then
      match partName partBody, contentLength requestBody with
      | some name, some length =>
        if host.creates (fullpathOf path name) then contentCalls cuts length 0 partBody.length rest
        else []
      | _, _ => []
    else []

/-- The handler takes no more than the declared length after the header. -/
def WithinBody (req : PostRequest) (extra : Bytes) (out : List Effect × Bytes) : Prop :=
  (req.body ++ extra).length - out.2.length ≤ req.length

/-- It asks for no byte once it has taken the declared length. -/
def NotWaiting (host : Host) (cuts : Nat → Nat) (req : PostRequest) (extra : Bytes) : Prop :=
  ∀ n ∈ postCalls host cuts req.text req.path (req.body ++ extra), n < req.length

/-- However the network cuts the stream, the handler ends with the same files,
takes no byte behind the body and waits for none. -/
def SegmentationFree (host : Host) (files : Bytes → Option Bytes) (req : PostRequest)
    (extra : Bytes) : Prop :=
  ∀ cuts₁ cuts₂ : Nat → Nat, ∃ out₁ out₂,
    clientThread host cuts₁ (req.followedBy extra) = .ok out₁ ∧
    clientThread host cuts₂ (req.followedBy extra) = .ok out₂ ∧
    filesAfter files out₁.1 = filesAfter files out₂.1 ∧
    WithinBody req extra out₁ ∧ WithinBody req extra out₂ ∧
    NotWaiting host cuts₁ req extra ∧ NotWaiting host cuts₂ req extra

/-- The texts of an upload fit, and where it is stored the content loop has
nothing to read, or everything up to the end of the stream, and this is the end
of the body. -/
structure UploadBounded (host : Host) (req : PostRequest) (extra part name : Bytes) : Prop where
  name_lt : name.length < 1024
  path_ne : req.path ≠ []
  stored : host.creates (fullpathOf req.path name) = true →
    (boundaryOf req.text).length < 256 ∧
    AnswerFits host name (fullpathOf req.path name) req.path ∧
    ∃ length, contentLength req.text = some length ∧
      (length ≤ part.length ∨ extra = [] ∧ length = req.length)

/-- A part header ends within the body, and both headers are counted. -/
structure BodyBounded (host : Host) (req : PostRequest) (extra : Bytes) : Prop where
  head_le : req.text.length ≤ intMax
  target_lt : req.target.length < 1024
  parted : ∃ part rest, req.body ++ extra = part ++ rest ∧ IsHeader part ∧
    part.length ≤ intMax ∧ part.length ≤ req.length ∧
    ∀ name, partName part = some name → UploadBounded host req extra part name

variable {host : Host} {files : Bytes → Option Bytes} {req : PostRequest} {extra : Bytes}

/-! ## The calls of `recv` -/

/-- A header is taken before the last byte of it is asked for a second time. -/
theorem headerCalls_lt (stream : Bytes) : ∀ buf,
    (strstr (readHeader buf stream).1 headerEnd).isSome →
      ∀ n ∈ headerCalls buf stream, n < (readHeader buf stream).1.length := by
  induction stream with
  | nil =>
    intro buf hfound n hn
    have hbuf : (strstr buf headerEnd).isSome := hfound
    rw [headerCalls, if_pos hbuf] at hn
    cases hn
  | cons chr stream ih =>
    intro buf hfound n hn
    rw [headerCalls] at hn
    rw [readHeader] at hfound ⊢
    by_cases hbuf : (strstr buf headerEnd).isSome
    · rw [if_pos hbuf] at hn
      cases hn
    · rw [if_neg hbuf] at hn hfound ⊢
      rcases List.mem_cons.mp hn with rfl | hn
      · have hle := length_le_readHeader (buf ++ [chr]) stream
        rw [List.length_append, List.length_singleton] at hle
        omega
      · exact ih _ hfound n hn

/-- A stream without a header is taken, and then one more byte is asked for. -/
theorem length_mem_headerCalls (stream : Bytes) : ∀ buf,
    strstr (readHeader buf stream).1 headerEnd = none →
      (readHeader buf stream).1.length ∈ headerCalls buf stream := by
  induction stream with
  | nil =>
    intro buf hnone
    have hnot : ¬ (strstr buf headerEnd).isSome := by
      rw [show strstr buf headerEnd = none from hnone]
      exact Bool.false_ne_true
    rw [headerCalls, if_neg hnot]
    exact List.mem_singleton_self _
  | cons chr stream ih =>
    intro buf hnone
    rw [headerCalls]
    rw [readHeader] at hnone ⊢
    by_cases hbuf : (strstr buf headerEnd).isSome
    · rw [if_pos hbuf] at hnone
      rw [show strstr buf headerEnd = none from hnone] at hbuf
      cases hbuf
    · rw [if_neg hbuf] at hnone ⊢
      rw [if_neg hbuf]
      exact List.mem_cons_of_mem _ (ih _ hnone)

theorem contentCalls_done (cuts : Nat → Nat) {length : Int} (i : Nat) {read : Nat}
    (h : length ≤ read) (stream : Bytes) : contentCalls cuts length i read stream = [] := by
  rw [contentCalls, if_neg (Int.not_lt.mpr h)]

/-- The content loop asks for bytes below the length only. -/
theorem contentCalls_lt (cuts : Nat → Nat) (length : Int) (i read : Nat) (stream : Bytes) :
    ∀ n ∈ contentCalls cuts length i read stream, (n : Int) < length := by
  fun_induction contentCalls cuts length i read stream with
  | case1 i read stream hlt r hnil =>
    intro n hn
    obtain rfl := List.mem_singleton.mp hn
    exact hlt
  | case2 i read stream hlt r hsome ih =>
    intro n hn
    rcases List.mem_cons.mp hn with rfl | hn
    · exact hlt
    · exact ih n hn
  | case3 i read stream hge => exact nofun

/-- It asks once more at the end of a stream that is shorter than the length. -/
theorem end_mem_contentCalls (cuts : Nat → Nat) (length : Int) (i read : Nat) (stream : Bytes)
    (h : (read + stream.length : Nat) < length) :
    read + stream.length ∈ contentCalls cuts length i read stream := by
  fun_induction contentCalls cuts length i read stream with
  | case1 i read stream hlt r hnil =>
    have hlen : r.1.length = part (cuts i) (min 1024 stream.length) := length_recv _ _ _
    rw [hnil, List.length_nil] at hlen
    have hzero : stream.length = 0 := by
      by_contra hne
      have hpos := part_pos (k := cuts i) (n := min 1024 stream.length) (by omega)
      omega
    rw [hzero]
    exact List.mem_singleton_self _
  | case2 i read stream hlt r hsome ih =>
    have hsum : r.1.length + r.2.length = stream.length := length_recv_add _ _ _
    have hmem := ih (by omega)
    rw [Nat.add_assoc, hsum] at hmem
    exact List.mem_cons_of_mem _ hmem
  | case3 i read stream hge => omega

/-- Behind a part header the calls are those of the content loop. -/
theorem postCalls_part (host : Host) (cuts : Nat → Nat) (requestBody path : Bytes) {part : Bytes}
    (hpart : IsHeader part) (rest : Bytes) :
    postCalls host cuts requestBody path (part ++ rest) = headerCalls [] (part ++ rest) ++
      match partName part, contentLength requestBody with
      | some name, some length =>
        if host.creates (fullpathOf path name) then contentCalls cuts length 0 part.length rest
        else []
      | _, _ => [] := by
  rw [postCalls, hpart.readHeader_eq]
  dsimp only
  rw [hpart.strstr_eq, if_pos Option.isSome_some]

theorem headerCalls_part {part : Bytes} (hpart : IsHeader part) (rest : Bytes) :
    ∀ n ∈ headerCalls [] (part ++ rest), n < part.length := by
  have hcalls := headerCalls_lt (part ++ rest) []
  rw [hpart.readHeader_eq, hpart.strstr_eq] at hcalls
  exact hcalls rfl

/-! ## Runs that stay within the body -/

/-- Every cut gives the same files, within the body. -/
def Steady (host : Host) (files : Bytes → Option Bytes) (req : PostRequest) (extra : Bytes)
    (left : Bytes → Option Bytes) : Prop :=
  ∀ cuts, ∃ out, clientThread host cuts (req.followedBy extra) = .ok out ∧
    filesAfter files out.1 = left ∧ WithinBody req extra out ∧ NotWaiting host cuts req extra

theorem Steady.segmentationFree {left : Bytes → Option Bytes}
    (h : Steady host files req extra left) : SegmentationFree host files req extra := by
  intro cuts₁ cuts₂
  obtain ⟨out₁, hok₁, hfiles₁, hwithin₁, hcalls₁⟩ := h cuts₁
  obtain ⟨out₂, hok₂, hfiles₂, hwithin₂, hcalls₂⟩ := h cuts₂
  exact ⟨out₁, out₂, hok₁, hok₂, hfiles₁.trans hfiles₂.symm, hwithin₁, hwithin₂, hcalls₁, hcalls₂⟩

theorem withinBody_part {part rest : Bytes} (hsplit : req.body ++ extra = part ++ rest)
    (hle : part.length ≤ req.length) (effects : List Effect) :
    WithinBody req extra (effects, rest) := by
  rw [WithinBody, hsplit, List.length_append]
  show part.length + rest.length - rest.length ≤ _
  omega

theorem withinBody_all (hnil : extra = []) (effects : List Effect) :
    WithinBody req extra (effects, []) := by
  rw [WithinBody, hnil, List.append_nil, req.body_length]
  exact Nat.sub_le _ _

/-- Behind a part header within the body only the content loop can wait. -/
theorem notWaiting_of_part {cuts : Nat → Nat} {part rest : Bytes} (hpart : IsHeader part)
    (hsplit : req.body ++ extra = part ++ rest) (hle : part.length ≤ req.length)
    (hcontent : ∀ name length, partName part = some name →
      contentLength req.text = some length → host.creates (fullpathOf req.path name) = true →
      ∀ n ∈ contentCalls cuts length 0 part.length rest, n < req.length) :
    NotWaiting host cuts req extra := by
  intro n hn
  rw [hsplit, postCalls_part host cuts _ _ hpart] at hn
  rcases List.mem_append.mp hn with hn | hn
  · have hlt := headerCalls_part hpart rest n hn
    omega
  · split at hn
    · rename_i name length hname hlength
      split at hn
      · rename_i hcreates
        exact hcontent name length hname hlength hcreates n hn
      · cases hn
    · cases hn

/-- The loop stops at once, or it takes the stream to the end of the body. -/
theorem steady_stored {part rest name : Bytes} (h : UploadBounded host req extra part name)
    (hstored : Stored host req.toPostHead part name) (hle : part.length ≤ req.length)
    (hsplit : req.body ++ extra = part ++ rest) :
    ∃ left, Steady host files req extra left := by
  obtain ⟨hboundary, hanswer, length, hlength, hloop⟩ := h.stored hstored.creates
  obtain ⟨response, hresponse⟩ := (verifyUpload_ok_iff _ _ _ _).mpr hanswer
  have hsum := congrArg List.length hsplit
  rw [List.length_append, List.length_append, req.body_length] at hsum
  have hrun : ∀ {cuts : Nat → Nat} {chunks : List Bytes} {rest' : Bytes},
      contentLoop cuts length 0 part.length rest = .ok (chunks, rest') →
      clientThread host cuts (req.followedBy extra) =
        .ok (.create (fullpathOf req.path name) ::
          chunks.map (.append (fullpathOf req.path name)) ++ [.send response], rest') := by
    intro cuts chunks rest' hloop
    rw [PostRequest.followedBy, hsplit]
    exact (hstored.clientThread_ok_iff cuts).mpr
      ⟨hboundary, length, hlength, chunks, rest', hloop, response, hresponse, rfl⟩
  have hwait : ∀ {cuts : Nat → Nat},
      (∀ n ∈ contentCalls cuts length 0 part.length rest, n < req.length) →
        NotWaiting host cuts req extra := by
    intro cuts hcalls
    refine notWaiting_of_part hstored.isHeader hsplit hle fun name' length' _ hlength' _ => ?_
    obtain rfl := Option.some.inj (hlength.symm.trans hlength')
    exact hcalls
  rcases hloop with hdone | ⟨hnil, hall⟩
  · refine ⟨Function.update files (fullpathOf req.path name) (some []), fun cuts => ⟨_,
      hrun (contentLoop_done cuts 0 hdone rest), ?_, withinBody_part hsplit hle _, hwait ?_⟩⟩
    · exact filesAfter_store files _ response []
    · rw [contentCalls_done cuts 0 hdone]
      exact nofun
  · rw [hnil, List.length_nil] at hsum
    refine ⟨Function.update files (fullpathOf req.path name) (some rest), fun cuts => ?_⟩
    obtain ⟨chunks, hloop, hflat⟩ := contentLoop_all cuts 0 part.length rest length (by omega)
      (contentLength_le hlength)
    refine ⟨_, hrun hloop, ?_, withinBody_all hnil _, hwait fun n hn => ?_⟩
    · rw [filesAfter_store, hflat]
    · have hlt := contentCalls_lt cuts length 0 part.length rest n hn
      omega

theorem steady_of_bodyBounded (h : BodyBounded host req extra) :
    ∃ left, Steady host files req extra left := by
  obtain ⟨part, rest, hsplit, hpart, hcount, hle, hupload⟩ := h.parted
  cases hname : partName part with
  | none =>
    refine ⟨files, fun cuts => ?_⟩
    obtain ⟨error, herror⟩ :=
      servePost_unnamed host cuts req.text req.path hpart hcount hname rest
    refine ⟨_, ?_, rfl, withinBody_part hsplit hle [.send (badRequest error)],
      notWaiting_of_part hpart hsplit hle fun name length hname' => ?_⟩
    · rw [PostRequest.followedBy, hsplit, req.clientThread_eq host cuts h.head_le h.target_lt]
      exact herror
    · rw [hname] at hname'
      cases hname'
  | some name =>
    have hbounded := hupload name hname
    have hlt := hbounded.name_lt
    have hne := hbounded.path_ne
    cases hcreates : host.creates (fullpathOf req.path name) with
    | true =>
      exact steady_stored hbounded
        ⟨h.head_le, h.target_lt, hpart, hcount, hname, hlt, hne, hcreates⟩ hle hsplit
    | false =>
      refine ⟨files, fun cuts => ⟨_, ?_, rfl, withinBody_part hsplit hle
        [.send (serverError (ascii "Could not create file"))],
        notWaiting_of_part hpart hsplit hle fun name' length hname' _ hcreates' => ?_⟩⟩
      · rw [PostRequest.followedBy, hsplit,
          req.clientThread_store host cuts h.head_le h.target_lt hne hpart hcount hname hlt]
        exact storeUpload_refused cuts _ _ _ hcreates _ _
      · obtain rfl := Option.some.inj (hname.symm.trans hname')
        rw [hcreates] at hcreates'
        cases hcreates'

/-! ## Runs that do not -/

theorem SegmentationFree.run (h : SegmentationFree host files req extra) (cuts : Nat → Nat) :
    ∃ out, clientThread host cuts (req.followedBy extra) = .ok out ∧
      WithinBody req extra out ∧ NotWaiting host cuts req extra := by
  obtain ⟨out, -, hok, -, -, hwithin, -, hcalls, -⟩ := h cuts cuts
  exact ⟨out, hok, hwithin, hcalls⟩

theorem SegmentationFree.head_le (h : SegmentationFree host files req extra) :
    req.text.length ≤ intMax := by
  obtain ⟨out, hok, -⟩ := h.run fun _ => 1
  exact length_header_le req.isHeader hok

theorem SegmentationFree.target_lt (h : SegmentationFree host files req extra) :
    req.target.length < 1024 := by
  by_contra hlong
  obtain ⟨out, hok, -⟩ := h.run fun _ => 1
  rw [PostRequest.followedBy, req.clientThread_target host _ h.head_le hlong] at hok
  cases hok

theorem SegmentationFree.servePost (h : SegmentationFree host files req extra)
    (cuts : Nat → Nat) :
    ∃ out, servePost host cuts req.text req.path (req.body ++ extra) = .ok out ∧
      WithinBody req extra out := by
  obtain ⟨out, hok, hwithin, -⟩ := h.run cuts
  rw [PostRequest.followedBy, req.clientThread_eq host _ h.head_le h.target_lt] at hok
  exact ⟨out, hok, hwithin⟩

/-- The loop of the part header would wait for the end of a header that does not
come. -/
theorem SegmentationFree.parted (h : SegmentationFree host files req extra) :
    ∃ part rest, req.body ++ extra = part ++ rest ∧ IsHeader part := by
  rcases headless_or (req.body ++ extra) with hpart | hnone
  · exact hpart
  · obtain ⟨hread, hend⟩ := hnone.readHeader_eq
    obtain ⟨-, -, -, hcalls⟩ := h.run fun _ => 1
    have hmem := length_mem_headerCalls (req.body ++ extra) []
    rw [hread] at hmem
    have hlt := hcalls _ (List.mem_append_left _ (hmem hend))
    rw [List.length_append, req.body_length] at hlt
    omega

theorem SegmentationFree.part_counted (h : SegmentationFree host files req extra)
    {part rest : Bytes} (hsplit : req.body ++ extra = part ++ rest) (hpart : IsHeader part) :
    part.length ≤ intMax := by
  obtain ⟨out, hok, -⟩ := h.servePost fun _ => 1
  have hlen := length_part_le hok
  rw [hsplit, hpart.readHeader_eq] at hlen
  exact hlen

/-- Of a stored upload each run gives the content loop's result. -/
theorem SegmentationFree.stored (h : SegmentationFree host files req extra)
    {part rest name : Bytes} (hstored : Stored host req.toPostHead part name)
    (hsplit : req.body ++ extra = part ++ rest) (cuts₁ cuts₂ : Nat → Nat) :
    (boundaryOf req.text).length < 256 ∧
    AnswerFits host name (fullpathOf req.path name) req.path ∧
    ∃ length, contentLength req.text = some length ∧
    ∃ chunks₁ rest₁ chunks₂ rest₂,
      contentLoop cuts₁ length 0 part.length rest = .ok (chunks₁, rest₁) ∧
      contentLoop cuts₂ length 0 part.length rest = .ok (chunks₂, rest₂) ∧
      chunks₁.flatten = chunks₂.flatten ∧
      part.length + rest.length - rest₁.length ≤ req.length ∧
      ∀ n ∈ contentCalls cuts₁ length 0 part.length rest, n < req.length := by
  obtain ⟨out₁, out₂, hok₁, hok₂, hfiles, hwithin, -, hcalls, -⟩ := h cuts₁ cuts₂
  rw [PostRequest.followedBy, hsplit] at hok₁ hok₂
  obtain ⟨hboundary, length, hlength, chunks₁, rest₁, hloop₁, response₁, hresponse₁, hout₁⟩ :=
    (hstored.clientThread_ok_iff cuts₁).mp hok₁
  obtain ⟨-, length', hlength', chunks₂, rest₂, hloop₂, response₂, -, hout₂⟩ :=
    (hstored.clientThread_ok_iff cuts₂).mp hok₂
  obtain rfl := Option.some.inj (hlength.symm.trans hlength')
  subst hout₁ hout₂
  refine ⟨hboundary, (verifyUpload_ok_iff _ _ _ _).mp ⟨_, hresponse₁⟩, length, hlength, chunks₁,
    rest₁, chunks₂, rest₂, hloop₁, hloop₂, ?_, ?_, fun n hn => hcalls n ?_⟩
  · have hfile := congrFun hfiles (fullpathOf req.path name)
    rw [filesAfter_store, filesAfter_store, Function.update_self, Function.update_self,
      Option.some.injEq] at hfile
    exact hfile
  · rw [WithinBody, hsplit, List.length_append] at hwithin
    exact hwithin
  · rw [hsplit, postCalls_part host cuts₁ _ _ hstored.isHeader, hstored.named, hlength]
    refine List.mem_append_right _ ?_
    show n ∈ if host.creates (fullpathOf req.path name) then _ else _
    rw [if_pos hstored.creates]
    exact hn

/-- The loop has nothing to read, or it reads to the end of the body. -/
theorem SegmentationFree.loop_bounded (h : SegmentationFree host files req extra)
    {part rest name : Bytes} (hstored : Stored host req.toPostHead part name)
    (hsplit : req.body ++ extra = part ++ rest) {length : Int}
    (hlength : contentLength req.text = some length) :
    length ≤ part.length ∨ extra = [] ∧ length = req.length := by
  have hruns := h.stored hstored hsplit
  have hmax := contentLength_le hlength
  have hsum := congrArg List.length hsplit
  rw [List.length_append, List.length_append, req.body_length] at hsum
  rcases Int.lt_or_le part.length length with hread | hdone
  · right
    rcases Int.lt_or_le length (part.length + rest.length : Nat) with hshort | hlong
    · obtain ⟨-, -, length', hlength', chunks, rest', -, -, hfirst, -⟩ :=
        hruns (fun _ => 1) fun _ => 1
      obtain rfl := Option.some.inj (hlength.symm.trans hlength')
      refine absurd (fun cuts => ?_) (contentLoop_depends hmax hread hshort chunks.flatten)
      obtain ⟨-, -, length', hlength', chunks₁, rest₁, chunks₂, rest₂, hloop₁, hloop₂, heq, -⟩ :=
        hruns (fun _ => 1) cuts
      obtain rfl := Option.some.inj (hlength.symm.trans hlength')
      rw [hfirst, Except.ok.injEq, Prod.mk.injEq] at hloop₁
      refine ⟨chunks₂, rest₂, hloop₂, ?_⟩
      rw [← heq, hloop₁.1]
    · obtain ⟨chunks, hall, -⟩ := contentLoop_all (fun _ => 1) 0 part.length rest length
        (by omega) hmax
      obtain ⟨-, -, length', hlength', chunks₁, rest₁, -, -, hloop, -, -, hwithin, hcalls⟩ :=
        hruns (fun _ => 1) fun _ => 1
      obtain rfl := Option.some.inj (hlength.symm.trans hlength')
      rw [hall, Except.ok.injEq, Prod.mk.injEq] at hloop
      rw [← hloop.2, List.length_nil] at hwithin
      refine ⟨List.eq_nil_of_length_eq_zero (by omega), ?_⟩
      -- A length beyond the end of the stream would make the loop wait there.
      by_contra hne
      have hlt := hcalls _ (end_mem_contentCalls (fun _ => 1) length 0 part.length rest (by omega))
      omega
  · exact .inl hdone

/-- A loop that stops before the end of the stream takes what the cuts make it
take. -/
theorem SegmentationFree.uploadBounded (h : SegmentationFree host files req extra)
    {part rest name : Bytes} (hsplit : req.body ++ extra = part ++ rest) (hpart : IsHeader part)
    (hname : partName part = some name) : UploadBounded host req extra part name := by
  have hcount := h.part_counted hsplit hpart
  obtain ⟨out, hok, -⟩ := h.servePost fun _ => 1
  rw [hsplit] at hok
  have hlt : name.length < 1024 := by
    by_contra hlong
    rw [servePost_longName host _ _ _ hpart hcount hname hlong] at hok
    cases hok
  have hne : req.path ≠ [] := by
    intro hnil
    rw [hnil, servePost_emptyPath host _ _ hpart hcount hname hlt] at hok
    cases hok
  refine ⟨hlt, hne, fun hcreates => ?_⟩
  have hstored : Stored host req.toPostHead part name :=
    ⟨h.head_le, h.target_lt, hpart, hcount, hname, hlt, hne, hcreates⟩
  obtain ⟨hboundary, hanswer, length, hlength, -⟩ := h.stored hstored hsplit (fun _ => 1) fun _ => 1
  exact ⟨hboundary, hanswer, length, hlength, h.loop_bounded hstored hsplit hlength⟩

/-- The part header is taken, and so it ends within the body. -/
theorem SegmentationFree.part_le (h : SegmentationFree host files req extra)
    {part rest : Bytes} (hsplit : req.body ++ extra = part ++ rest) (hpart : IsHeader part) :
    part.length ≤ req.length := by
  have hcount := h.part_counted hsplit hpart
  obtain ⟨out, hok, hwithin⟩ := h.servePost fun _ => 1
  have hrest : out.2.length ≤ rest.length → part.length ≤ req.length := by
    intro hle
    rw [WithinBody, hsplit, List.length_append] at hwithin
    omega
  rw [hsplit] at hok
  cases hname : partName part with
  | none =>
    obtain ⟨error, herror⟩ := servePost_unnamed host (fun _ => 1) req.text req.path hpart hcount
      hname rest
    rw [herror] at hok
    obtain rfl := Except.ok.inj hok
    exact hrest (Nat.le_refl _)
  | some name =>
    obtain ⟨hlt, hne, -⟩ := h.uploadBounded hsplit hpart hname
    rw [← req.clientThread_eq host _ h.head_le h.target_lt] at hok
    cases hcreates : host.creates (fullpathOf req.path name) with
    | false =>
      rw [req.clientThread_store host _ h.head_le h.target_lt hne hpart hcount hname hlt,
        storeUpload_refused _ _ _ _ hcreates] at hok
      obtain rfl := Except.ok.inj hok
      exact hrest (Nat.le_refl _)
    | true =>
      have hstored : Stored host req.toPostHead part name :=
        ⟨h.head_le, h.target_lt, hpart, hcount, hname, hlt, hne, hcreates⟩
      obtain ⟨-, length, -, chunks, rest', hloop, response, -, rfl⟩ :=
        (hstored.clientThread_ok_iff _).mp hok
      exact hrest (length_rest_le hloop)

theorem bodyBounded_of_segmentationFree (h : SegmentationFree host files req extra) :
    BodyBounded host req extra := by
  obtain ⟨part, rest, hsplit, hpart⟩ := h.parted
  exact ⟨h.head_le, h.target_lt, part, rest, hsplit, hpart, h.part_counted hsplit hpart,
    h.part_le hsplit hpart, fun name hname => h.uploadBounded hsplit hpart hname⟩

/-- The pieces do not matter, and the handler stays within the body, exactly for
the requests that bound what the two loops can take. -/
theorem segmentation_free_iff (host : Host) (files : Bytes → Option Bytes) (req : PostRequest)
    (extra : Bytes) : SegmentationFree host files req extra ↔ BodyBounded host req extra := by
  constructor
  · exact bodyBounded_of_segmentationFree
  · intro h
    obtain ⟨left, hsteady⟩ : ∃ left, Steady host files req extra left := steady_of_bodyBounded h
    exact hsteady.segmentationFree

/-- One more byte behind the body is taken by one call and not by two. -/
theorem extra_byte_not_segmentation_free :
    ¬ ∀ (host : Host) (files : Bytes → Option Bytes) (req : PostRequest) (extra : Bytes),
      SegmentationFree host files req extra := by
  intro h
  have hbounded := bodyBounded_of_segmentationFree
    (h (writable 1) (fun _ => none) smallUpload (ascii "y"))
  have hpart : IsHeader smallPart := by decide +kernel
  have hname : partName smallPart = some (ascii "f") := by decide +kernel
  have hsplit : smallUpload.body ++ ascii "y" = smallPart ++ ascii "xy" := by decide
  obtain ⟨part, rest, hsplit', hpart', -, -, hupload⟩ := hbounded.parted
  obtain ⟨rfl, -⟩ := hpart.unique hpart' (hsplit.symm.trans hsplit')
  obtain ⟨-, -, hstored⟩ := hupload _ hname
  obtain ⟨-, -, length, hlength, hloop⟩ := hstored rfl
  have hread : contentLength smallUpload.text = some 30 := by decide +kernel
  obtain rfl := Option.some.inj (hread.symm.trans hlength)
  rcases hloop with hdone | ⟨hnil, -⟩
  · exact absurd hdone (by decide)
  · exact absurd hnil (by decide)

end Np20
end NetLab
