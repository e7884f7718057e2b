import NetLab.Np20.Storing

/-!
# Uploads that are cut off

The connection can end, or `recv` fail, behind any byte of a request.  The file
is emptied before any of its content arrives, and the answer asks only whether
the file can be opened again.
-/

namespace NetLab
namespace Np20

open CString ByteStream

/-- What arrives when the connection ends behind byte `k`. -/
def PostRequest.received (req : PostRequest) (k : Nat) : Bytes :=
  (req.text ++ req.body).take k

/-- The first line of the page that announces a success. -/
def successLine : Bytes := ascii "HTTP/1.1 200 OK"

def SuccessSent (effects : List Effect) : Prop :=
  ∃ data, Effect.send data ∈ effects ∧ successLine <+: data

/-- What is stored somewhere stays as it is. -/
def Keeps (files : Bytes → Option Bytes) (effects : List Effect) : Prop :=
  ∀ path old, files path = some old → filesAfter files effects path = some old

/-- Every byte of the request is received and the success announced, or none is
announced and what was stored stays. -/
def AllOrNothing (host : Host) (files : Bytes → Option Bytes) (req : PostRequest)
    (stream : Bytes) : Prop :=
  ∀ cuts, ∃ out, clientThread host cuts stream = .ok out ∧
    (stream = req.text ++ req.body ∧ out.2 = [] ∧ SuccessSent out.1 ∨
      ¬ SuccessSent out.1 ∧ Keeps files out.1)

/-- Where a success is announced, the whole body arrived and the loop takes it
all. -/
def Completes (req : PostRequest) (length : Int) (part rest : Bytes) : Prop :=
  part ++ rest = req.body ∧ (part.length + rest.length ≤ length ∨ rest = [])

/-- Where none is announced, the loop ends and leaves what was stored. -/
def Restores (old : Option Bytes) (length : Int) (part rest : Bytes) : Prop :=
  (length ≤ part.length ∨ length + 1023 ≤ intMax ∨ part.length + rest.length ≤ intMax) ∧
    ∀ content, old = some content →
      length ≤ part.length ∧ content = [] ∨
      part.length + rest.length ≤ length ∧ content = rest

/-- The texts of an upload fit, and where it is stored the host's answer decides
what the bytes behind the part header have to be. -/
structure UploadAtomic (host : Host) (files : Bytes → Option Bytes) (req : PostRequest)
    (part rest name : Bytes) : Prop where
  name_lt : name.length < 1024
  path_ne : req.path ≠ []
  stored : host.creates (fullpathOf req.path name) = true →
    (boundaryOf req.text).length < 256 ∧
    AnswerFits host name (fullpathOf req.path name) req.path ∧
    ∃ length, contentLength req.text = some length ∧
      ((host.verify (fullpathOf req.path name)).isSome = true → Completes req length part rest) ∧
      (host.verify (fullpathOf req.path name) = none →
        Restores (files (fullpathOf req.path name)) length part rest)

/-- The header arrives, and `body` behind it. -/
structure BodyAtomic (host : Host) (files : Bytes → Option Bytes) (req : PostRequest)
    (body : Bytes) : Prop where
  head_le : req.text.length ≤ intMax
  target_lt : req.target.length < 1024
  nonempty : body ≠ []
  headless_le : Headless body → body.length ≤ intMax
  part_le : ∀ part rest, body = part ++ rest → IsHeader part → part.length ≤ intMax
  upload : ∀ part rest name, body = part ++ rest → IsHeader part → partName part = some name →
    UploadAtomic host files req part rest name

variable {host : Host} {files : Bytes → Option Bytes} {req : PostRequest}

/-! ## The answers -/

/-- An answer with another status announces no success. -/
theorem not_successLine_of_start {start answer : Bytes} (hstart : start <+: answer)
    (hlen : start.length ≤ successLine.length) (hne : ¬ start <+: successLine) :
    ¬ successLine <+: answer := by
  intro h
  exact hne (List.prefix_of_prefix_length_le hstart h hlen)

theorem not_successLine_badRequest (error : Bytes) : ¬ successLine <+: badRequest error := by
  have hline : ascii "HTTP/1.1 400" <+: ascii
      "HTTP/1.1 400 BAD REQUEST\r\nContent-Type: text/html\r\n\r\n<html><body><h2>Error: " := by
    rw [ascii_ofList, ascii_ofList]
    decide
  have hstart : ascii "HTTP/1.1 400" <+: badRequest error :=
    List.prefix_append_of_prefix (List.prefix_append_of_prefix hline)
  exact not_successLine_of_start hstart (by decide) (by decide)

theorem not_successLine_serverError (error : Bytes) : ¬ successLine <+: serverError error := by
  have hline : ascii "HTTP/1.1 500" <+:
      ascii "HTTP/1.1 500 INTERNAL SERVER ERROR\r\nContent-Type: text/html\r\n\r\n" := by
    rw [ascii_ofList, ascii_ofList]
    decide
  have hstart : ascii "HTTP/1.1 500" <+: serverError error :=
    List.prefix_append_of_prefix (List.prefix_append_of_prefix
      (List.prefix_append_of_prefix hline))
  exact not_successLine_of_start hstart (by decide) (by decide)

theorem allOrNothing_of_send {stream : Bytes}
    (h : ∀ cuts, ∃ data rest, clientThread host cuts stream = .ok ([.send data], rest) ∧
      ¬ successLine <+: data) : AllOrNothing host files req stream := by
  intro cuts
  obtain ⟨data, rest, hok, hstart⟩ := h cuts
  refine ⟨_, hok, Or.inr ⟨fun hsent => ?_, fun path old hold => hold⟩⟩
  obtain ⟨data', hmem, hstart'⟩ := hsent
  obtain rfl := Effect.send.inj (List.mem_singleton.mp hmem)
  exact hstart hstart'

theorem not_allOrNothing_of_fault {stream : Bytes} {e : Fault}
    (h : clientThread host (fun _ => 1) stream = .error e) :
    ¬ AllOrNothing host files req stream := by
  intro hall
  obtain ⟨out, hok, -⟩ := hall fun _ => 1
  rw [h] at hok
  cases hok

/-- The answer rests on the file being there. -/
theorem successLine_verifyUpload {name fullpath path response : Bytes}
    (h : verifyUpload host name fullpath path = .ok response) :
    successLine <+: response ↔ (host.verify fullpath).isSome = true := by
  rw [verifyUpload] at h
  cases hverify : host.verify fullpath with
  | none =>
    rw [hverify] at h
    obtain rfl := Except.ok.inj h
    exact iff_of_false (not_successLine_serverError _) Bool.false_ne_true
  | some size =>
    rw [hverify] at h
    obtain ⟨html, -, hresponse⟩ := bind_eq_ok.mp h
    obtain ⟨-, rfl⟩ := Buffer.put_eq_ok.mp hresponse
    have hline : successLine <+:
        ascii "HTTP/1.1 200 OK\r\nContent-Type: text/html\r\nContent-Length: " := by
      rw [successLine, ascii_ofList, ascii_ofList]
      decide
    refine iff_of_true ?_ rfl
    exact List.prefix_append_of_prefix (List.prefix_append_of_prefix
      (List.prefix_append_of_prefix hline))

theorem successSent_store (path : Bytes) (chunks : List Bytes) (response : Bytes) :
    SuccessSent (.create path :: chunks.map (.append path) ++ [.send response]) ↔
      successLine <+: response := by
  constructor
  · intro h
    obtain ⟨data, hmem, hstart⟩ := h
    rcases List.mem_append.mp hmem with hmem | hmem
    · rcases List.mem_cons.mp hmem with hmem | hmem
      · cases hmem
      · obtain ⟨chunk, -, heq⟩ := List.mem_map.mp hmem
        cases heq
    · obtain rfl := Effect.send.inj (List.mem_singleton.mp hmem)
      exact hstart
  · intro h
    exact ⟨response, List.mem_append_right _ (List.mem_singleton.mpr rfl), h⟩

theorem keeps_store (path : Bytes) (chunks : List Bytes) (response : Bytes) :
    Keeps files (.create path :: chunks.map (.append path) ++ [.send response]) ↔
      ∀ old, files path = some old → old = chunks.flatten := by
  constructor
  · intro h old hold
    have hkeep := h path old hold
    rw [filesAfter_store, Function.update_self, Option.some.injEq] at hkeep
    exact hkeep.symm
  · intro h path' old hold
    rw [filesAfter_store]
    by_cases hpath : path' = path
    · subst hpath
      rw [Function.update_self, ← h old hold]
    · rw [Function.update_of_ne hpath]
      exact hold

/-! ## The content loop over all cuts -/

/-- Everything is taken only when the announced length does not end before the
stream. -/
theorem contentLoop_takes_all_iff {length : Int} (hmax : length ≤ intMax) (read : Nat)
    (stream : Bytes) :
    (∀ cuts, ∃ chunks, contentLoop cuts length 0 read stream = .ok (chunks, [])) ↔
      read + stream.length ≤ length ∨ stream = [] := by
  constructor
  · intro h
    by_contra hnot
    rw [not_or] at hnot
    have hpos : 0 < stream.length := List.length_pos_of_ne_nil hnot.2
    obtain ⟨chunks, hloop⟩ := h fun _ => 1
    rcases Int.lt_or_le read length with hlt | hle
    · obtain ⟨n, rfl⟩ : ∃ n : Nat, length = n := ⟨length.toNat, by omega⟩
      obtain ⟨chunks', hexact, -⟩ := contentLoop_exact n read stream (by omega) (by omega)
        (by omega)
      rw [hexact, Except.ok.injEq, Prod.mk.injEq] at hloop
      have hrest := congrArg List.length hloop.2
      rw [List.length_drop, List.length_nil] at hrest
      omega
    · rw [contentLoop_done _ 0 hle, Except.ok.injEq, Prod.mk.injEq] at hloop
      exact hnot.2 hloop.2
  · intro h cuts
    rcases h with hall | rfl
    · obtain ⟨chunks, hloop, -⟩ := contentLoop_all cuts 0 read stream length hall hmax
      exact ⟨chunks, hloop⟩
    · exact ⟨[], contentLoop_nil cuts length 0 read⟩

/-- What was stored comes out again for every cut only when the cuts do not
matter. -/
theorem restores_of_contentLoop {length : Int} (hmax : length ≤ intMax) {old : Option Bytes}
    {part rest : Bytes}
    (h : ∀ cuts, ∃ chunks rest',
      contentLoop cuts length 0 part.length rest = .ok (chunks, rest') ∧
        ∀ content, old = some content → content = chunks.flatten) :
    Restores old length part rest := by
  refine ⟨(contentLoop_total_iff hmax part.length rest).mp fun cuts => ?_,
    fun content hold => ?_⟩
  · obtain ⟨chunks, rest', hloop, -⟩ := h cuts
    exact ⟨_, hloop⟩
  · obtain ⟨chunks, rest', hloop, hcontent⟩ := h fun _ => 1
    rcases Int.lt_or_le part.length length with hread | hdone
    · rcases Int.lt_or_le length (part.length + rest.length : Nat) with hshort | hlong
      · refine absurd (fun cuts => ?_) (contentLoop_depends hmax hread hshort content)
        obtain ⟨chunks', rest', hloop', hcontent'⟩ := h cuts
        exact ⟨chunks', rest', hloop', (hcontent' content hold).symm⟩
      · obtain ⟨chunks', hall, hflat⟩ := contentLoop_all (fun _ => 1) 0 part.length rest length
          (by omega) hmax
        rw [hall, Except.ok.injEq, Prod.mk.injEq] at hloop
        right
        rw [hcontent content hold, ← hloop.1, hflat]
        exact ⟨by omega, rfl⟩
    · rw [contentLoop_done _ 0 hdone, Except.ok.injEq, Prod.mk.injEq] at hloop
      left
      rw [hcontent content hold, ← hloop.1]
      exact ⟨hdone, rfl⟩

theorem contentLoop_restores {length : Int} (hmax : length ≤ intMax) {old : Option Bytes}
    {part rest : Bytes} (h : Restores old length part rest) (cuts : Nat → Nat) :
    ∃ chunks rest', contentLoop cuts length 0 part.length rest = .ok (chunks, rest') ∧
      ∀ content, old = some content → content = chunks.flatten := by
  obtain ⟨htotal, hrestores⟩ := h
  obtain ⟨⟨chunks, rest'⟩, hloop⟩ := (contentLoop_total_iff hmax part.length rest).mpr htotal cuts
  refine ⟨chunks, rest', hloop, fun content hold => ?_⟩
  rcases hrestores content hold with ⟨hdone, rfl⟩ | ⟨hall, rfl⟩
  · rw [contentLoop_done cuts 0 hdone, Except.ok.injEq, Prod.mk.injEq] at hloop
    rw [← hloop.1]
    rfl
  · obtain ⟨chunks', hloop', hflat⟩ := contentLoop_all cuts 0 part.length content length hall hmax
    rw [hloop', Except.ok.injEq, Prod.mk.injEq] at hloop
    rw [← hloop.1, hflat]

/-! ## Every position of the end -/

/-- What one run of the loop has to give, by the host's answer. -/
theorem outcome_store_iff {name fullpath path response part rest rest' : Bytes}
    {chunks : List Bytes}
    (hresponse : verifyUpload host name fullpath path = .ok response) :
    (req.text ++ (part ++ rest) = req.text ++ req.body ∧ rest' = [] ∧
        SuccessSent (.create fullpath :: chunks.map (.append fullpath) ++ [.send response]) ∨
      ¬ SuccessSent (.create fullpath :: chunks.map (.append fullpath) ++ [.send response]) ∧
        Keeps files (.create fullpath :: chunks.map (.append fullpath) ++ [.send response])) ↔
      ((host.verify fullpath).isSome = true → part ++ rest = req.body ∧ rest' = []) ∧
      (host.verify fullpath = none →
        ∀ content, files fullpath = some content → content = chunks.flatten) := by
  rw [successSent_store, successLine_verifyUpload hresponse, keeps_store,
    List.append_cancel_left_eq]
  cases host.verify fullpath with
  | none =>
    constructor
    · intro h
      rcases h with ⟨-, -, hsome⟩ | ⟨-, hkeeps⟩
      · cases hsome
      · exact ⟨fun hsome => absurd hsome Bool.false_ne_true, fun _ => hkeeps⟩
    · intro h
      exact .inr ⟨Bool.false_ne_true, h.2 rfl⟩
  | some size =>
    constructor
    · intro h
      rcases h with ⟨hall, hrest, -⟩ | ⟨hnot, -⟩
      · exact ⟨fun _ => ⟨hall, hrest⟩, fun hnone => by cases hnone⟩
      · exact absurd rfl hnot
    · intro h
      obtain ⟨hall, hrest⟩ := h.1 rfl
      exact .inl ⟨hall, hrest, rfl⟩

theorem UploadAtomic.of_allOrNothing {part rest name : Bytes}
    (hstored : Stored host req.toPostHead part name)
    (h : AllOrNothing host files req (req.text ++ (part ++ rest))) :
    UploadAtomic host files req part rest name := by
  refine ⟨hstored.name_lt, hstored.path_ne, fun _ => ?_⟩
  obtain ⟨out, hok, -⟩ := h fun _ => 1
  obtain ⟨hboundary, length, hlength, -, -, -, response, hresponse, -⟩ :=
    (hstored.clientThread_ok_iff _).mp hok
  have hmax := contentLength_le hlength
  have hrun : ∀ cuts, ∃ chunks rest',
      contentLoop cuts length 0 part.length rest = .ok (chunks, rest') ∧
      ((host.verify (fullpathOf req.path name)).isSome = true →
        part ++ rest = req.body ∧ rest' = []) ∧
      (host.verify (fullpathOf req.path name) = none →
        ∀ content, files (fullpathOf req.path name) = some content →
          content = chunks.flatten) := by
    intro cuts
    obtain ⟨out, hok, hout⟩ := h cuts
    obtain ⟨-, length', hlength', chunks, rest', hloop, response, hresponse, rfl⟩ :=
      (hstored.clientThread_ok_iff _).mp hok
    obtain rfl := Option.some.inj (hlength.symm.trans hlength')
    exact ⟨chunks, rest', hloop, (outcome_store_iff hresponse).mp hout⟩
  refine ⟨hboundary, (verifyUpload_ok_iff _ _ _ _).mp ⟨_, hresponse⟩, length, hlength,
    fun hsome => ⟨?_, (contentLoop_takes_all_iff hmax part.length rest).mp fun cuts => ?_⟩,
    fun hnone => restores_of_contentLoop hmax fun cuts => ?_⟩
  · obtain ⟨chunks, rest', -, hcomplete, -⟩ := hrun fun _ => 1
    exact (hcomplete hsome).1
  · obtain ⟨chunks, rest', hloop, hcomplete, -⟩ := hrun cuts
    rw [(hcomplete hsome).2] at hloop
    exact ⟨chunks, hloop⟩
  · obtain ⟨chunks, rest', hloop, -, hkeeps⟩ := hrun cuts
    exact ⟨chunks, rest', hloop, hkeeps hnone⟩

theorem UploadAtomic.allOrNothing {part rest name : Bytes}
    (hstored : Stored host req.toPostHead part name)
    (h : UploadAtomic host files req part rest name) :
    AllOrNothing host files req (req.text ++ (part ++ rest)) := by
  intro cuts
  obtain ⟨hboundary, hanswer, length, hlength, hcomplete, hrestores⟩ := h.stored hstored.creates
  have hmax := contentLength_le hlength
  obtain ⟨response, hresponse⟩ := (verifyUpload_ok_iff _ _ _ _).mpr hanswer
  obtain ⟨chunks, rest', hloop, hsome, hnone⟩ : ∃ chunks rest',
      contentLoop cuts length 0 part.length rest = .ok (chunks, rest') ∧
      ((host.verify (fullpathOf req.path name)).isSome = true →
        part ++ rest = req.body ∧ rest' = []) ∧
      (host.verify (fullpathOf req.path name) = none →
        ∀ content, files (fullpathOf req.path name) = some content →
          content = chunks.flatten) := by
    cases hverify : host.verify (fullpathOf req.path name) with
    | some size =>
      obtain ⟨hall, htakes⟩ := hcomplete (by rw [hverify]; rfl)
      obtain ⟨chunks, hloop⟩ := (contentLoop_takes_all_iff hmax part.length rest).mpr htakes cuts
      exact ⟨chunks, [], hloop, fun _ => ⟨hall, rfl⟩, fun hnone => by cases hnone⟩
    | none =>
      obtain ⟨chunks, rest', hloop, hkeeps⟩ := contentLoop_restores hmax (hrestores hverify) cuts
      exact ⟨chunks, rest', hloop, fun hsome => absurd hsome Bool.false_ne_true, fun _ => hkeeps⟩
  exact ⟨_, (hstored.clientThread_ok_iff cuts).mpr
    ⟨hboundary, length, hlength, chunks, rest', hloop, response, hresponse, rfl⟩,
    (outcome_store_iff hresponse).mpr ⟨hsome, hnone⟩⟩

theorem allOrNothing_named_iff {part rest name : Bytes} (hlen : req.text.length ≤ intMax)
    (htarget : req.target.length < 1024) (hpart : IsHeader part) (hcount : part.length ≤ intMax)
    (hname : partName part = some name) :
    AllOrNothing host files req (req.text ++ (part ++ rest)) ↔
      UploadAtomic host files req part rest name := by
  have hpost : ∀ cuts, clientThread host cuts (req.text ++ (part ++ rest)) =
      servePost host cuts req.text req.path (part ++ rest) :=
    fun cuts => req.clientThread_eq host cuts hlen htarget _
  by_cases hlt : name.length < 1024
  · by_cases hne : req.path = []
    · have hfault := hpost fun _ => 1
      rw [hne, servePost_emptyPath host _ _ hpart hcount hname hlt] at hfault
      exact iff_of_false (not_allOrNothing_of_fault hfault) fun h => h.path_ne hne
    · cases hcreates : host.creates (fullpathOf req.path name) with
      | true =>
        have hstored : Stored host req.toPostHead part name :=
          ⟨hlen, htarget, hpart, hcount, hname, hlt, hne, hcreates⟩
        exact ⟨fun h => .of_allOrNothing hstored h, fun h => h.allOrNothing hstored⟩
      | false =>
        refine iff_of_true (allOrNothing_of_send fun cuts => ⟨_, rest, ?_,
          not_successLine_serverError (ascii "Could not create file")⟩)
          ⟨hlt, hne, fun htrue => ?_⟩
        · rw [req.clientThread_store host cuts hlen htarget hne hpart hcount hname hlt]
          exact storeUpload_refused cuts _ _ _ hcreates _ _
        · rw [hcreates] at htrue
          contradiction
  · have hfault := hpost fun _ => 1
    rw [servePost_longName host _ _ _ hpart hcount hname hlt] at hfault
    exact iff_of_false (not_allOrNothing_of_fault hfault) fun h => hlt h.name_lt

/-- Of a part header that is counted only the name is in question. -/
theorem allOrNothing_part_iff {part rest : Bytes} (hlen : req.text.length ≤ intMax)
    (htarget : req.target.length < 1024) (hpart : IsHeader part) (hcount : part.length ≤ intMax) :
    AllOrNothing host files req (req.text ++ (part ++ rest)) ↔
      ∀ name, partName part = some name → UploadAtomic host files req part rest name := by
  cases hname : partName part with
  | none =>
    refine iff_of_true (allOrNothing_of_send fun cuts => ?_) nofun
    obtain ⟨error, hunnamed⟩ :=
      servePost_unnamed host cuts req.text req.path hpart hcount hname rest
    rw [req.clientThread_eq host cuts hlen htarget]
    exact ⟨_, rest, hunnamed, not_successLine_badRequest error⟩
  | some name =>
    rw [allOrNothing_named_iff hlen htarget hpart hcount hname]
    constructor
    · intro h name' heq
      exact Option.some.inj heq ▸ h
    · intro h
      exact h name rfl

/-- A header that no `int` counts is a fault. -/
theorem not_allOrNothing_of_long {body : Bytes} (hlen : req.text.length ≤ intMax)
    (htarget : req.target.length < 1024) (hlong : ¬ (readHeader [] body).1.length ≤ intMax) :
    ¬ AllOrNothing host files req (req.text ++ body) := by
  have hfault := req.clientThread_eq host (fun _ => 1) hlen htarget body
  rw [servePost_long host _ _ _ hlong] at hfault
  exact not_allOrNothing_of_fault hfault

/-- A part header arrives whole. -/
theorem allOrNothing_headed_iff {part rest : Bytes} (hlen : req.text.length ≤ intMax)
    (htarget : req.target.length < 1024) (hpart : IsHeader part) :
    AllOrNothing host files req (req.text ++ (part ++ rest)) ↔
      BodyAtomic host files req (part ++ rest) := by
  have hne : part ++ rest ≠ [] := List.append_ne_nil_of_left_ne_nil hpart.ne_nil rest
  by_cases hcount : part.length ≤ intMax
  · rw [allOrNothing_part_iff hlen htarget hpart hcount]
    constructor
    · intro h
      refine ⟨hlen, htarget, hne, fun hnone => absurd hpart (hnone part rest rfl),
        fun part' rest' heq hpart' => ?_, fun part' rest' name heq hpart' hname => ?_⟩
      · obtain ⟨rfl, -⟩ := hpart.unique hpart' heq
        exact hcount
      · obtain ⟨rfl, rfl⟩ := hpart.unique hpart' heq
        exact h name hname
    · intro h name hname
      exact h.upload part rest name rfl hpart hname
  · refine iff_of_false (not_allOrNothing_of_long hlen htarget ?_)
      fun h => hcount (h.part_le part rest rfl hpart)
    rw [hpart.readHeader_eq]
    exact hcount

/-- The connection ends within a part header. -/
theorem allOrNothing_headless_iff {body : Bytes} (hlen : req.text.length ≤ intMax)
    (htarget : req.target.length < 1024) (hne : body ≠ []) (hnone : Headless body) :
    AllOrNothing host files req (req.text ++ body) ↔ BodyAtomic host files req body := by
  by_cases hcount : body.length ≤ intMax
  · refine iff_of_true (allOrNothing_of_send fun cuts => ⟨_, [], ?_,
      not_successLine_badRequest (ascii "Invalid request format")⟩)
      ⟨hlen, htarget, hne, fun _ => hcount, fun part rest heq hpart => ?_,
        fun part rest name heq hpart => ?_⟩
    · rw [req.clientThread_eq host cuts hlen htarget]
      exact servePost_headless host cuts _ _ hne hnone hcount
    · exact absurd hpart (hnone part rest heq)
    · exact absurd hpart (hnone part rest heq)
  · refine iff_of_false (not_allOrNothing_of_long hlen htarget ?_)
      fun h => hcount (h.headless_le hnone)
    rw [hnone.readHeader_eq.1]
    exact hcount

theorem allOrNothing_body_iff (host : Host) (files : Bytes → Option Bytes) (req : PostRequest)
    (body : Bytes) :
    AllOrNothing host files req (req.text ++ body) ↔ BodyAtomic host files req body := by
  by_cases hlen : req.text.length ≤ intMax
  · by_cases htarget : req.target.length < 1024
    · by_cases hne : body = []
      · have hfault := req.clientThread_eq host (fun _ => 1) hlen htarget body
        rw [hne, servePost_nil] at hfault
        rw [hne]
        exact iff_of_false (not_allOrNothing_of_fault hfault) fun h => h.nonempty rfl
      · rcases headless_or body with ⟨part, rest, rfl, hpart⟩ | hnone
        · exact allOrNothing_headed_iff hlen htarget hpart
        · exact allOrNothing_headless_iff hlen htarget hne hnone
    · exact iff_of_false
        (not_allOrNothing_of_fault (req.clientThread_target host _ hlen htarget body))
        fun h => htarget h.target_lt
  · exact iff_of_false
      (not_allOrNothing_of_fault (clientThread_longHeader host _ req.isHeader hlen body))
      fun h => hlen h.head_le

/-- An upload that is cut off within its header is all or nothing as long as what
arrives is counted, and else exactly when what follows the header is. -/
theorem all_or_nothing_iff (host : Host) (files : Bytes → Option Bytes) (req : PostRequest)
    (k : Nat) :
    AllOrNothing host files req (req.received k) ↔
      (k < req.text.length → k ≤ intMax) ∧
      ∀ body, req.received k = req.text ++ body → BodyAtomic host files req body := by
  rcases Nat.lt_or_ge k req.text.length with hshort | hlong
  · have hreceived : req.received k = req.text.take k :=
      List.take_append_of_le_length (Nat.le_of_lt hshort)
    have hlen : (req.text.take k).length = k := List.length_take_of_le (Nat.le_of_lt hshort)
    have hnone : Headless (req.text.take k) := by
      refine req.isHeader.headless_of_prefix (List.take_prefix k _) ?_
      rw [hlen]
      exact hshort
    rw [hreceived]
    by_cases hcount : k ≤ intMax
    · refine iff_of_true (fun cuts => ⟨([], []), ?_, Or.inr ⟨?_, fun _ _ hold => hold⟩⟩)
        ⟨fun _ => hcount, fun body heq => ?_⟩
      · exact clientThread_headless host cuts hnone (hlen.symm ▸ hcount)
      · intro hsent
        obtain ⟨data, hmem, -⟩ := hsent
        cases hmem
      · have hsum := congrArg List.length heq
        rw [hlen, List.length_append] at hsum
        omega
    · refine iff_of_false (not_allOrNothing_of_fault (clientThread_long host _ ?_))
        fun h => hcount (h.1 hshort)
      rw [hnone.readHeader_eq.1, hlen]
      exact hcount
  · have hreceived : req.received k = req.text ++ req.body.take (k - req.text.length) := by
      rw [PostRequest.received, List.take_append, List.take_of_length_le hlong]
    rw [hreceived, allOrNothing_body_iff, and_iff_right fun h => absurd h (Nat.not_lt.mpr hlong)]
    constructor
    · intro h body heq
      rw [← List.append_cancel_left heq]
      exact h
    · intro h
      exact h _ rfl

/-- When the connection ends before the last byte, the success is announced
all the same and the old content is gone. -/
theorem lost_byte_not_all_or_nothing :
    ¬ ∀ (host : Host) (files : Bytes → Option Bytes) (req : PostRequest) (k : Nat),
      AllOrNothing host files req (req.received k) := by
  intro h
  have hreceived : smallUpload.received (smallUpload.text.length + 29) =
      smallUpload.text ++ smallPart := by decide +kernel
  have hatomic := ((all_or_nothing_iff (writable 0) (fun _ => some (ascii "old")) smallUpload _).mp
    (h _ _ _ _)).2 smallPart hreceived
  have hpart : IsHeader smallPart := by decide +kernel
  have hname : partName smallPart = some (ascii "f") := by decide +kernel
  obtain ⟨-, -, hstored⟩ := hatomic.upload smallPart [] _ (List.append_nil _).symm hpart hname
  obtain ⟨-, -, length, -, hcomplete, -⟩ := hstored rfl
  exact absurd (hcomplete rfl).1 (by decide)

end Np20
end NetLab
