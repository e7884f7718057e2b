import NetLab.Np20.Storing

/-!
# Uploads through the form of the listing

The form of a listing sends one file as a multipart body.  The content loop
counts the bytes of the whole body and never looks for the boundary.
-/

namespace NetLab
namespace Np20

open CString ByteStream

/-- One file sent with the form: what a browser puts into the request.  No field
before the length mentions the length, and neither boundary nor name has a
double quote. -/
structure Form where
  target : Bytes
  fieldsBefore : List Bytes
  fieldsAfter : List Bytes
  boundary : Bytes
  name : Bytes
  contentType : Bytes
  content : Bytes
  target_ne : target ≠ []
  target_word : IsWord target
  target_nul : 0 ∉ target
  fields_lines : ∀ line ∈ fieldsBefore ++ fieldsAfter, IsLine line
  length_once : ∀ line ∈ fieldsBefore, ¬ lengthField ++ ascii " " <:+: line
  boundary_field : ascii "Content-Type: multipart/form-data; boundary=" ++ boundary ∈
    fieldsBefore ++ fieldsAfter
  boundary_quote : 34 ∉ boundary
  name_bytes : 0 ∉ name ∧ 10 ∉ name ∧ 34 ∉ name
  contentType_bytes : 0 ∉ contentType ∧ 10 ∉ contentType
  boundary_fresh : ¬ ascii "\r\n--" ++ boundary <:+: content

namespace Form

variable (form : Form)

def partLines : List Bytes :=
  [ascii "--" ++ form.boundary,
    ascii "Content-Disposition: form-data; name=\"file1\"; filename=\"" ++ form.name ++ ascii "\"",
    ascii "Content-Type: " ++ form.contentType]

def partHeader : Bytes := unlines form.partLines ++ ascii "\r\n"

/-- The delimiter that ends the body. -/
def closing : Bytes := ascii "\r\n--" ++ form.boundary ++ ascii "--\r\n"

def body : Bytes := form.partHeader ++ (form.content ++ form.closing)

def headLines : List Bytes :=
  (ascii "POST " ++ form.target ++ ascii " HTTP/1.1") :: form.fieldsBefore ++
    (lengthField ++ ascii " " ++ decimal form.body.length) :: form.fieldsAfter

def head : Bytes := unlines form.headLines ++ ascii "\r\n"

/-- The whole request. -/
def request : Bytes := form.head ++ form.body

/-- The directory that the target names. -/
def path : Bytes := cstr (urlDecode form.target)

def fullpath : Bytes := form.path ++ separator form.path ++ form.name

end Form

/-- The client thread ends without a fault, and `data` is what the file holds. -/
def Leaves (host : Host) (cuts : Nat → Nat) (files : Bytes → Option Bytes) (form : Form)
    (data : Bytes) : Prop :=
  ∃ effects rest, clientThread host cuts form.request = .ok (effects, rest) ∧
    filesAfter files effects form.fullpath = some data

/-- The headers of the request fit the counters of the loops, its texts fit the
arrays they are copied to, and so does the answer. -/
structure Form.Fits (host : Host) (form : Form) : Prop where
  head_le : form.head.length ≤ intMax
  part_le : form.partHeader.length ≤ intMax
  path_ne : form.path ≠ []
  target_lt : form.target.length < 1024
  name_lt : form.name.length < 1024
  fullpath_lt : form.fullpath.length < 2048
  boundary_lt : (boundaryOf form.head).length < 256
  answer_lt : ∀ size, host.verify form.fullpath = some size →
    let page := uploadPage form.name size form.fullpath form.path
    (decimal page.length).length + page.length + 62 < 1024

/-! ## What the two header loops read -/

namespace Form

variable (form : Form)

/-- The header of the request. -/
def postHead : PostHead where
  target := form.target
  fieldsBefore := form.fieldsBefore
  fieldsAfter := form.fieldsAfter
  length := form.body.length
  target_ne := form.target_ne
  target_word := form.target_word
  target_nul := form.target_nul
  fields_lines := form.fields_lines

theorem isHeader_head : IsHeader form.head := form.postHead.isHeader

theorem partLines_isLine : ∀ line ∈ form.partLines, IsLine line := by
  have hdashes : IsLine (ascii "--") := ⟨by decide, by decide, by decide⟩
  have hdisposition :
      IsLine (ascii "Content-Disposition: form-data; name=\"file1\"; filename=\"") := by
    rw [ascii_ofList]
    exact ⟨by decide, by decide, by decide⟩
  have htype : IsLine (ascii "Content-Type: ") := ⟨by decide, by decide, by decide⟩
  have hfield := form.fields_lines _ form.boundary_field
  intro line hline
  rw [partLines, List.mem_cons, List.mem_cons, List.mem_singleton] at hline
  rcases hline with rfl | rfl | rfl
  · refine hdashes.append (fun h => hfield.nul_notMem ?_) fun h => hfield.lf_notMem ?_
    · exact List.mem_append_right _ h
    · exact List.mem_append_right _ h
  · exact (hdisposition.append form.name_bytes.1 form.name_bytes.2.1).append (by decide) (by decide)
  · exact htype.append form.contentType_bytes.1 form.contentType_bytes.2

theorem isHeader_partHeader : IsHeader form.partHeader where
  nul_notMem := by
    rw [partHeader, List.mem_append, not_or]
    exact ⟨nul_notMem_unlines form.partLines_isLine, by decide⟩
  first := find_headerEnd_unlines form.partLines_isLine (List.cons_ne_nil _ _)

/-! ## The texts that are searched for -/

/-- The fields, the empty line included. -/
def fields : Bytes :=
  unlines (form.fieldsBefore ++ (lengthField ++ ascii " " ++ decimal form.body.length) ::
    form.fieldsAfter) ++ ascii "\r\n"

theorem head_eq : form.head =
    ascii "POST" ++ 32 :: (form.target ++ 32 :: (ascii "HTTP/1.1\r\n" ++ form.fields)) :=
  form.postHead.text_eq

theorem requestLine_head : requestLine form.head =
    if form.target.length < 1024 then .ok (ascii "POST", form.path)
    else .error (.overflow .path) := by
  have hnul := form.isHeader_head.nul_notMem
  rw [head_eq] at hnul ⊢
  obtain ⟨b, w, hbw⟩ := List.exists_cons_of_ne_nil form.target_ne
  have hword : IsWord (b :: w) := hbw ▸ form.target_word
  have htoken : (scanToken (form.target ++ 32 :: (ascii "HTTP/1.1\r\n" ++ form.fields))).1 =
      form.target := by
    rw [hbw, scanToken_word hword (by decide)]
  rw [requestLine_eq (ascii "POST") _ (by decide) (by decide) (by decide) hnul, htoken]
  rfl

/-- The announced length, or nothing when it is no `int`; a target that ends in
the name of the field hides it. -/
theorem contentLength_head : contentLength form.head =
    if lengthField <:+ form.target then some 0
    else if form.body.length ≤ intMax then some (form.body.length : Int) else none :=
  form.postHead.contentLength_text form.length_once

/-- The file name is found in the part header. -/
theorem strstr_filename : ∃ rest, strstr form.partHeader (ascii "filename=\"") =
    some (ascii "filename=\"" ++ (form.name ++ 34 :: rest)) := by
  obtain ⟨rest, hrest⟩ : ∃ rest, rest = ascii "\r\nContent-Type: " ++ form.contentType ++
    ascii "\r\n\r\n" := ⟨_, rfl⟩
  have hsplit : form.partHeader = (ascii "--" ++ form.boundary) ++
      ((ascii "\r\nContent-Disposition: form-data; name=\"") ++ (ascii "file1\"; " ++
        (ascii "filename=\"" ++ (form.name ++ 34 :: rest)))) := by
    have hline : ascii "Content-Disposition: form-data; name=\"file1\"; filename=\"" =
        ascii "Content-Disposition: form-data; name=\"" ++
          (ascii "file1\"; " ++ ascii "filename=\"") := by
      repeat rw [ascii_ofList]
      rfl
    have hstart : ascii "\r\nContent-Disposition: form-data; name=\"" =
        ascii "\r\n" ++ ascii "Content-Disposition: form-data; name=\"" := by
      repeat rw [ascii_ofList]
      rfl
    rw [hrest, hstart, partHeader, partLines, unlines_cons, unlines_cons, unlines_cons, hline]
    simp only [List.append_assoc]
    rfl
  have hquote : ascii "filename=\"" = ascii "filename=" ++ 34 :: [] := rfl
  have hletter : ascii "filename=\"" = ascii "fi" ++ 108 :: ascii "ename=\"" := rfl
  have hlater : ascii "filename=\"" = ascii "filena" ++ 109 :: ascii "e=\"" := rfl
  refine ⟨rest, ?_⟩
  rw [strstr, cstr_eq_self form.isHeader_partHeader.nul_notMem, hsplit]
  calc find (ascii "filename=\"") _
      = find (ascii "filename=\"") (ascii "\r\nContent-Disposition: form-data; name=\"" ++
          (ascii "file1\"; " ++ (ascii "filename=\"" ++ (form.name ++ 34 :: rest)))) := by
        rw [hquote]
        refine find_skip ?_
        rw [List.mem_append, List.mem_append, not_or, not_or]
        refine ⟨⟨by decide, form.boundary_quote⟩, ?_⟩
        show (34 : UInt8) ∉ ascii "\r\nContent"
        decide
    _ = find (ascii "filename=\"") (ascii "file1\"; " ++
          (ascii "filename=\"" ++ (form.name ++ 34 :: rest))) := by
        rw [hletter]
        refine find_skip ?_
        show (108 : UInt8) ∉ ascii "\r\nContent-Disposition: form-data; name=\"" ++ ascii "fi"
        rw [ascii_ofList, ascii_ofList]
        decide
    _ = find (ascii "filename=\"") (ascii "filename=\"" ++ (form.name ++ 34 :: rest)) := by
        rw [hlater]
        refine find_skip ?_
        show (109 : UInt8) ∉ ascii "file1\"; " ++ ascii "filena"
        decide
    _ = some (ascii "filename=\"" ++ (form.name ++ 34 :: rest)) := find_append_self _

/-- The file name is the one of the form. -/
theorem partName_partHeader : partName form.partHeader = some form.name := by
  obtain ⟨rest, hfound⟩ := form.strstr_filename
  have hdrop : (ascii "filename=\"" ++ (form.name ++ 34 :: rest)).drop
      (ascii "filename=\"").length = form.name ++ 34 :: rest := rfl
  have hquote : 34 ∈ form.name ++ 34 :: rest := List.mem_append_right _ List.mem_cons_self
  have hname : (form.name ++ 34 :: rest).takeWhile (· ≠ 34) = form.name := by
    have hall : ∀ b ∈ form.name, decide (b ≠ 34) = true := fun b hb =>
      decide_eq_true fun heq => form.name_bytes.2.2 (heq ▸ hb)
    rw [List.takeWhile_append_of_pos hall, List.takeWhile_cons_of_neg (by simp), List.append_nil]
  rw [partName, hfound]
  dsimp only
  rw [hdrop, if_pos hquote, hname]

/-! ## What the thread leaves -/

/-- The content loop writes the rest of the body, or nothing when the target
hides the announced length. -/
theorem contentLoop_body (cuts : Nat → Nat) :
    (contentLength form.head = none ∧ ¬ lengthField <:+ form.target ∧
        intMax < form.body.length) ∨
      ∃ length chunks rest, contentLength form.head = some length ∧
        contentLoop cuts length 0 form.partHeader.length (form.content ++ form.closing) =
          .ok (chunks, rest) ∧
        (lengthField <:+ form.target ∧ chunks.flatten = [] ∨
          ¬ lengthField <:+ form.target ∧ form.body.length ≤ intMax ∧
            chunks.flatten = form.content ++ form.closing) := by
  rw [contentLength_head]
  by_cases hsuffix : lengthField <:+ form.target
  · rw [if_pos hsuffix]
    exact Or.inr ⟨0, [], _, rfl, contentLoop_done cuts 0 (Int.natCast_nonneg _) _,
      Or.inl ⟨hsuffix, rfl⟩⟩
  · rw [if_neg hsuffix]
    rcases Nat.lt_or_ge intMax form.body.length with hlt | hge
    · rw [if_neg (Nat.not_le.mpr hlt)]
      exact Or.inl ⟨rfl, hsuffix, hlt⟩
    · have hlen : form.partHeader.length + (form.content ++ form.closing).length =
          form.body.length := List.length_append.symm
      obtain ⟨chunks, hloop, hflat⟩ := contentLoop_all cuts 0 form.partHeader.length
        (form.content ++ form.closing) form.body.length (by omega) (by omega)
      rw [if_pos hge]
      exact Or.inr ⟨_, chunks, [], rfl, hloop, Or.inr ⟨hsuffix, hge, hflat⟩⟩

/-- What the branch that stores the file leaves. -/
theorem storeUpload_iff {host : Host} (cuts : Nat → Nat) (files : Bytes → Option Bytes)
    (hcreates : host.creates form.fullpath = true) (data : Bytes) :
    (∃ effects rest, storeUpload host cuts form.head form.path form.name form.fullpath
          form.partHeader.length (form.content ++ form.closing) = .ok (effects, rest) ∧
        filesAfter files effects form.fullpath = some data) ↔
      (boundaryOf form.head).length < 256 ∧
      (∃ response, verifyUpload host form.name form.fullpath form.path = .ok response) ∧
      (lengthField <:+ form.target ∧ data = [] ∨
        ¬ lengthField <:+ form.target ∧ form.body.length ≤ intMax ∧
          data = form.content ++ form.closing) := by
  constructor
  · rintro ⟨effects, rest, h, hfile⟩
    obtain ⟨hboundary, length, hlength, chunks, rest', hloop, response, hresponse, hout⟩ :=
      (storeUpload_ok_iff cuts hcreates).mp h
    rw [Prod.mk.injEq] at hout
    rw [hout.1, filesAfter_store, Function.update_self, Option.some.injEq] at hfile
    rcases form.contentLoop_body cuts with ⟨hnone, -⟩ | ⟨_, _, _, hlength', hloop', hchunks⟩
    · rw [hnone] at hlength
      cases hlength
    · obtain rfl := Option.some.inj (hlength.symm.trans hlength')
      obtain ⟨rfl, -⟩ := Prod.mk.inj (Except.ok.inj (hloop.symm.trans hloop'))
      rw [hfile] at hchunks
      exact ⟨hboundary, ⟨response, hresponse⟩, hchunks⟩
  · rintro ⟨hboundary, ⟨response, hresponse⟩, hdata⟩
    rcases form.contentLoop_body cuts with ⟨hnone, hsuffix, hlong⟩ |
      ⟨length, chunks, rest, hlength, hloop, hchunks⟩
    · rcases hdata with ⟨hyes, -⟩ | ⟨-, hle, -⟩
      · exact absurd hyes hsuffix
      · omega
    · have hflat : chunks.flatten = data := by
        rcases hchunks with ⟨hsuffix, hflat⟩ | ⟨hsuffix, -, hflat⟩
        · rcases hdata with ⟨-, hdata⟩ | ⟨hnot, -⟩
          · rw [hflat, hdata]
          · exact absurd hsuffix hnot
        · rcases hdata with ⟨hyes, -⟩ | ⟨-, -, hdata⟩
          · exact absurd hyes hsuffix
          · rw [hflat, hdata]
      refine ⟨_, rest, (storeUpload_ok_iff cuts hcreates).mpr ⟨hboundary, length, hlength, chunks,
        rest, hloop, response, hresponse, rfl⟩, ?_⟩
      rw [filesAfter_store, Function.update_self, hflat]

/-- The POST branch comes to storing the file exactly if the part header, the name
and the path fit. -/
theorem servePost_eq_ok_iff (host : Host) (cuts : Nat → Nat) (out : List Effect × Bytes) :
    servePost host cuts form.head form.path form.body = .ok out ↔
      form.partHeader.length ≤ intMax ∧ form.name.length < 1024 ∧ form.path ≠ [] ∧
        form.fullpath.length < 2048 ∧
        storeUpload host cuts form.head form.path form.name form.fullpath
          form.partHeader.length (form.content ++ form.closing) = .ok out := by
  by_cases hcount : form.partHeader.length ≤ intMax
  · have heq : servePost host cuts form.head form.path form.body = (do
        let name ← Buffer.name.put form.name
        if form.path = [] then throw .emptyPath
        let fullpath ← Buffer.fullpath.put (form.path ++ separator form.path ++ name)
        storeUpload host cuts form.head form.path name fullpath form.partHeader.length
          (form.content ++ form.closing)) :=
      servePost_named host cuts form.head form.path form.isHeader_partHeader hcount
        form.partName_partHeader (form.content ++ form.closing)
    rw [heq]
    constructor
    · intro h
      obtain ⟨name, hput, h⟩ := bind_eq_ok.mp h
      obtain ⟨hlt, rfl⟩ := Buffer.put_eq_ok.mp hput
      by_cases hpath : form.path = []
      · rw [if_pos hpath] at h
        contradiction
      · rw [if_neg hpath] at h
        obtain ⟨fullpath, hput, h⟩ := bind_eq_ok.mp h
        obtain ⟨hfull, rfl⟩ := Buffer.put_eq_ok.mp hput
        exact ⟨hcount, hlt, hpath, hfull, h⟩
    · rintro ⟨-, hlt, hpath, hfull, h⟩
      rw [Buffer.put_of_lt hlt]
      show (if form.path = [] then _ else _) = _
      rw [if_neg hpath]
      show (Buffer.fullpath.put form.fullpath >>= _) = _
      rw [Buffer.put_of_lt hfull]
      exact h
  · have hlong : ¬ (readHeader [] form.body).1.length ≤ intMax := by
      rw [Form.body, form.isHeader_partHeader.readHeader_eq]
      exact hcount
    rw [servePost_long host cuts form.head form.path hlong]
    exact iff_of_false nofun fun h => hcount h.1

theorem clientThread_eq_ok_iff (host : Host) (cuts : Nat → Nat) (out : List Effect × Bytes) :
    clientThread host cuts form.request = .ok out ↔
      form.head.length ≤ intMax ∧ form.target.length < 1024 ∧
        servePost host cuts form.head form.path form.body = .ok out := by
  rw [Form.request]
  by_cases hcount : form.head.length ≤ intMax
  · rw [clientThread_header host cuts form.isHeader_head hcount, requestLine_head]
    by_cases hlt : form.target.length < 1024
    · rw [if_pos hlt]
      exact ⟨fun h => ⟨hcount, hlt, h⟩, fun h => h.2.2⟩
    · rw [if_neg hlt]
      exact iff_of_false nofun fun h => hlt h.2.1
  · rw [clientThread_longHeader host cuts form.isHeader_head hcount]
    exact iff_of_false nofun fun h => hcount h.1

end Form

/-- What an upload leaves: the rest of the body, the closing delimiter included,
or an empty file when the target hides the announced length. -/
theorem leaves_iff {host : Host} (cuts : Nat → Nat) (files : Bytes → Option Bytes) (form : Form)
    (hcreates : host.creates form.fullpath = true) (data : Bytes) :
    Leaves host cuts files form data ↔ form.Fits host ∧
      (lengthField <:+ form.target ∧ data = [] ∨
        ¬ lengthField <:+ form.target ∧ form.body.length ≤ intMax ∧
          data = form.content ++ form.closing) := by
  have hstore := form.storeUpload_iff cuts files hcreates data
  constructor
  · rintro ⟨effects, rest, h, hfile⟩
    obtain ⟨hhead, htarget, h⟩ := (form.clientThread_eq_ok_iff host cuts _).mp h
    obtain ⟨hpart, hname, hpath, hfull, h⟩ := (form.servePost_eq_ok_iff host cuts _).mp h
    obtain ⟨hboundary, hanswer, hdata⟩ := hstore.mp ⟨effects, rest, h, hfile⟩
    exact ⟨⟨hhead, hpart, hpath, htarget, hname, hfull, hboundary,
      (verifyUpload_ok_iff _ _ _ _).mp hanswer⟩, hdata⟩
  · rintro ⟨hfits, hdata⟩
    obtain ⟨effects, rest, h, hfile⟩ := hstore.mpr ⟨hfits.boundary_lt,
      (verifyUpload_ok_iff _ _ _ _).mpr hfits.answer_lt, hdata⟩
    exact ⟨effects, rest, (form.clientThread_eq_ok_iff host cuts _).mpr ⟨hfits.head_le,
      hfits.target_lt, (form.servePost_eq_ok_iff host cuts _).mpr
        ⟨hfits.part_le, hfits.name_lt, hfits.path_ne, hfits.fullpath_lt, h⟩⟩, hfile⟩

/-- The file holds what was sent only where nothing was sent and nothing was
counted. -/
theorem upload_faithful_iff {host : Host} (cuts : Nat → Nat) (files : Bytes → Option Bytes)
    (form : Form) (hcreates : host.creates form.fullpath = true) :
    Leaves host cuts files form form.content ↔
      form.Fits host ∧ lengthField <:+ form.target ∧ form.content = [] := by
  rw [leaves_iff cuts files form hcreates]
  refine and_congr_right fun _ => or_iff_left ?_
  rintro ⟨-, -, hdata⟩
  have hlen := congrArg List.length hdata
  have hclosing : 0 < form.closing.length := by
    rw [Form.closing, List.append_assoc]
    exact Nat.zero_lt_succ _
  rw [List.length_append] at hlen
  omega

/-- The byte `x` sent as the file `f` to the directory `/in`. -/
def oneByte : Form where
  target := ascii "/in"
  fieldsBefore := [ascii "Content-Type: multipart/form-data; boundary=B"]
  fieldsAfter := []
  boundary := ascii "B"
  name := ascii "f"
  contentType := ascii "text/plain"
  content := ascii "x"
  target_ne := by decide
  target_word := by decide
  target_nul := by decide
  fields_lines := by
    intro line hline
    obtain rfl := List.mem_singleton.mp hline
    exact ⟨by decide, by decide, by decide⟩
  length_once := by decide
  boundary_field := by decide
  boundary_quote := by decide
  name_bytes := by decide
  contentType_bytes := by decide
  boundary_fresh := by decide

theorem upload_faithful_iff_one_byte :
    ¬ Leaves (writable 10) (fun _ => 1024) (fun _ => none) oneByte oneByte.content :=
  fun h => absurd ((upload_faithful_iff (fun _ => 1024) (fun _ => none) oneByte rfl).mp h).2.2
    (by decide)

/-- The file `f` holds the delimiter behind the byte that was sent. -/
theorem upload_stores_delimiter :
    Leaves (writable 10) (fun _ => 1024) (fun _ => none) oneByte (ascii "x\r\n--B--\r\n") ∧
      ¬ Leaves (writable 10) (fun _ => 1024) (fun _ => none) oneByte oneByte.content := by
  have hsuffix : ¬ lengthField <:+ oneByte.target := by decide
  constructor
  · refine (leaves_iff (fun _ => 1024) (fun _ => none) oneByte rfl _).mpr
      ⟨⟨by decide +kernel, by decide +kernel, by decide, by decide, by decide, by decide,
          by decide +kernel, ?_⟩,
        Or.inr ⟨hsuffix, by decide +kernel, rfl⟩⟩
    intro size hsize
    obtain rfl := Option.some.inj hsize
    decide +kernel
  · intro h
    rcases ((leaves_iff (fun _ => 1024) (fun _ => none) oneByte rfl _).mp h).2 with
      ⟨hyes, -⟩ | ⟨-, -, hdata⟩
    · exact hsuffix hyes
    · exact absurd hdata (by decide)

end Np20
end NetLab
