import NetLab.Library.Merge
import NetLab.Np20.Download
import NetLab.Np20.Storing

/-!
# The files as a store

A client thread writes nothing, or one file from its first byte to its last.  So
the requests that are served act on the files like the operations of a store, and
threads that store different files do not disturb each other.
-/

namespace NetLab
namespace Np20

open CString Merge Message

/-- The file that an effect writes. -/
def Effect.written : Effect → Option Bytes
  | create path | append path _ => some path
  | scandir _ | openRead _ | send _ => none

def Effect.data : Effect → Bytes
  | append _ data => data
  | _ => []

/-- The file that a thread stores, and its content. -/
def stored : List Effect → Option (Bytes × Bytes)
  | .create path :: effects => some (path, effects.flatMap Effect.data)
  | _ => none

/-- The operation of the store. -/
def put (files : Bytes → Option Bytes) : Option (Bytes × Bytes) → Bytes → Option Bytes
  | some file => Function.update files file.1 (some file.2)
  | none => files

/-- The same on a disk. -/
def putAt {κ : Type*} [DecidableEq κ] (leads : Bytes → κ) (disk : κ → Option Bytes) :
    Option (Bytes × Bytes) → κ → Option Bytes
  | some file => Function.update disk (leads file.1) (some file.2)
  | none => disk

theorem putAt_self {κ : Type*} [DecidableEq κ] (leads : Bytes → κ) (disk : κ → Option Bytes)
    (path content : Bytes) : putAt leads disk (some (path, content)) (leads path) = some content :=
  Function.update_self ..

/-- What a thread does to the files. -/
inductive Outcome : List Effect → Prop
  | quiet {effects : List Effect} (h : ∀ e ∈ effects, e.written = none) : Outcome effects
  | whole (path : Bytes) (chunks : List Bytes) (response : Bytes) :
      Outcome (.create path :: chunks.map (.append path) ++ [.send response])

/-! ## One thread -/

section

variable {host : Host} {effects : List Effect}

theorem sendFavicon_quiet (h : sendFavicon host = .ok effects) :
    ∀ e ∈ effects, e.written = none := by
  unfold sendFavicon at h
  split at h
  · rw [← Except.ok.inj h]
    simp [Effect.written]
  · dsimp only at h
    split at h
    · cases h
    · obtain ⟨ok, -, h⟩ := bind_eq_ok.mp h
      rw [← Except.ok.inj h]
      simp [Effect.written]

theorem sendListing_quiet {path : Bytes} (h : sendListing host path = .ok effects) :
    ∀ e ∈ effects, e.written = none := by
  obtain ⟨html, -, h⟩ := bind_eq_ok.mp h
  obtain ⟨ok, -, h⟩ := bind_eq_ok.mp h
  rw [← Except.ok.inj h]
  simp [Effect.written]

theorem sendFile_quiet {path : Bytes} (h : sendFile host path = .ok effects) :
    ∀ e ∈ effects, e.written = none := by
  unfold sendFile at h
  split at h
  · rw [← Except.ok.inj h]
    simp [Effect.written]
  · obtain ⟨response, -, h⟩ := bind_eq_ok.mp h
    obtain ⟨sent, -, h⟩ := bind_eq_ok.mp h
    rw [← Except.ok.inj h]
    simp [Effect.written]

/-- A GET writes nothing. -/
theorem serveGet_quiet {path : Bytes} (h : serveGet host path = .ok effects) :
    ∀ e ∈ effects, e.written = none := by
  rw [serveGet] at h
  split at h
  · exact sendFavicon_quiet h
  · split at h
    · cases h
    · split at h
      · exact sendListing_quiet h
      · exact sendFile_quiet h

theorem storeUpload_outcome {cuts : Nat → Nat} {requestBody path name fullpath stream rest : Bytes}
    {read : Nat}
    (h : storeUpload host cuts requestBody path name fullpath read stream = .ok (effects, rest)) :
    Outcome effects := by
  cases hcreates : host.creates fullpath with
  | false =>
    rw [storeUpload_refused cuts _ _ _ hcreates] at h
    obtain ⟨rfl, -⟩ := Prod.mk.inj (Except.ok.inj h)
    exact .quiet (by simp [Effect.written])
  | true =>
    obtain ⟨-, length, -, chunks, rest', -, response, -, h⟩ :=
      (storeUpload_ok_iff cuts hcreates).mp h
    obtain ⟨rfl, -⟩ := Prod.mk.inj h
    exact .whole fullpath chunks response

theorem servePost_outcome {cuts : Nat → Nat} {requestBody path stream rest : Bytes}
    (h : servePost host cuts requestBody path stream = .ok (effects, rest)) :
    Outcome effects := by
  have hlen := length_part_le h
  rcases headless_or stream with ⟨part, more, rfl, hpart⟩ | hstream
  · rw [hpart.readHeader_eq] at hlen
    cases hname : partName part with
    | none =>
      obtain ⟨error, hpost⟩ := servePost_unnamed host cuts requestBody path hpart hlen hname more
      rw [hpost] at h
      obtain ⟨rfl, -⟩ := Prod.mk.inj (Except.ok.inj h)
      exact .quiet (by simp [Effect.written])
    | some name =>
      rw [servePost_named host cuts requestBody path hpart hlen hname] at h
      obtain ⟨_, -, h⟩ := bind_eq_ok.mp h
      dsimp only at h
      split at h
      · cases h
      · obtain ⟨fullpath, -, h⟩ := bind_eq_ok.mp h
        exact storeUpload_outcome h
  · by_cases hne : stream = []
    · subst hne
      cases h
    · rw [hstream.readHeader_eq.1] at hlen
      rw [servePost_headless host cuts requestBody path hne hstream hlen] at h
      obtain ⟨rfl, -⟩ := Prod.mk.inj (Except.ok.inj h)
      exact .quiet (by simp [Effect.written])

/-- A request that is served writes nothing, or one file. -/
theorem clientThread_outcome {cuts : Nat → Nat} {stream rest : Bytes}
    (h : clientThread host cuts stream = .ok (effects, rest)) : Outcome effects := by
  have hlen := length_request_le h
  rcases headless_or stream with ⟨header, body, rfl, hheader⟩ | hstream
  · rw [hheader.readHeader_eq] at hlen
    rw [clientThread_header host cuts hheader hlen] at h
    obtain ⟨line, -, h⟩ := bind_eq_ok.mp h
    split at h
    · obtain ⟨served, hserved, h⟩ := bind_eq_ok.mp h
      obtain ⟨rfl, -⟩ := Prod.mk.inj (Except.ok.inj h)
      exact .quiet (serveGet_quiet hserved)
    · split at h
      · exact servePost_outcome h
      · obtain ⟨rfl, -⟩ := Prod.mk.inj (Except.ok.inj h)
        exact .quiet (by simp)
  · rw [hstream.readHeader_eq.1] at hlen
    rw [clientThread_headless host cuts hstream hlen] at h
    obtain ⟨rfl, -⟩ := Prod.mk.inj (Except.ok.inj h)
    exact .quiet (by simp)

end

/-! ## One file at a time -/

theorem filesAfter_cons (files : Bytes → Option Bytes) (e : Effect) (l : List Effect) :
    filesAfter files (e :: l) = filesAfter (e.apply files) l := rfl

/-- An effect changes the file it writes, and what it makes of it depends on this
file only. -/
theorem apply_congr {files files' : Bytes → Option Bytes} {path : Bytes}
    (h : files path = files' path) (e : Effect) : e.apply files path = e.apply files' path := by
  cases e with
  | create p =>
    show Function.update files p (some []) path = Function.update files' p (some []) path
    rw [Function.update_apply, Function.update_apply, h]
  | append p data =>
    show Function.update files p ((files p).map (· ++ data)) path =
      Function.update files' p ((files' p).map (· ++ data)) path
    by_cases hp : path = p
    · subst hp
      rw [Function.update_self, Function.update_self, h]
    · rw [Function.update_of_ne hp, Function.update_of_ne hp, h]
  | scandir _ | openRead _ | send _ => exact h

theorem apply_of_ne (files : Bytes → Option Bytes) {e : Effect} {path : Bytes}
    (h : e.written ≠ some path) : e.apply files path = files path := by
  cases e with
  | create p | append p _ =>
    refine Function.update_of_ne ?_ ..
    rintro rfl
    exact h rfl
  | scandir _ | openRead _ | send _ => rfl

/-- Of a file, only the effects that write it matter. -/
theorem filesAfter_filter (effects : List Effect) (path : Bytes) :
    ∀ {files files' : Bytes → Option Bytes}, files path = files' path →
      filesAfter files effects path =
        filesAfter files' (effects.filter fun e => e.written = some path) path := by
  induction effects with
  | nil => exact fun h => h
  | cons e effects ih =>
    intro files files' h
    rw [filesAfter_cons]
    by_cases he : e.written = some path
    · rw [List.filter_cons_of_pos (by simpa using he), filesAfter_cons]
      exact ih (apply_congr h e)
    · rw [List.filter_cons_of_neg (by simpa using he)]
      exact ih ((apply_of_ne files he).trans h)

theorem stored_store (path : Bytes) (chunks : List Bytes) (response : Bytes) :
    stored (.create path :: chunks.map (.append path) ++ [.send response]) =
      some (path, chunks.flatten) := by
  have hdata : (chunks.map (Effect.append path)).flatMap Effect.data = chunks.flatten := by
    rw [List.flatMap_map]
    exact List.flatMap_id
  rw [List.cons_append, stored, List.flatMap_append, hdata]
  exact congrArg (fun data => some (path, data)) (List.append_nil _)

theorem stored_quiet {effects : List Effect} (h : ∀ e ∈ effects, e.written = none) :
    stored effects = none := by
  cases effects with
  | nil => rfl
  | cons e effects =>
    have he := h e List.mem_cons_self
    cases e <;> first | rfl | cases he

section

variable {κ : Type*} [DecidableEq κ] {leads : Bytes → κ}

theorem diskAfter_quiet (disk : κ → Option Bytes) {effects : List Effect}
    (h : ∀ e ∈ effects, e.written = none) : diskAfter leads disk effects = disk := by
  induction effects with
  | nil => rfl
  | cons e effects ih =>
    have hstep : e.applyAt leads disk = disk := by
      have he := h e List.mem_cons_self
      cases e <;> first | rfl | cases he
    rw [diskAfter, List.foldl_cons, hstep]
    exact ih fun e' he' => h e' (List.mem_cons_of_mem e he')

/-- A thread that ends has done one operation of the store. -/
theorem Outcome.diskAfter_eq {effects : List Effect} (h : Outcome effects)
    (disk : κ → Option Bytes) :
    diskAfter leads disk effects = putAt leads disk (stored effects) := by
  cases h with
  | quiet h =>
    rw [stored_quiet h, diskAfter_quiet disk h]
    rfl
  | whole path chunks response =>
    rw [diskAfter_store, stored_store]
    rfl

theorem Outcome.filesAfter_eq {effects : List Effect} (h : Outcome effects)
    (files : Bytes → Option Bytes) : filesAfter files effects = put files (stored effects) := by
  rw [← diskAfter_id, h.diskAfter_eq]
  cases stored effects <;> rfl

/-! ## Requests one after the other -/

/-- Some thread ended with these effects, whatever the file system answered it. -/
def Served (effects : List Effect) : Prop :=
  ∃ host cuts stream rest, clientThread host cuts stream = .ok (effects, rest)

/-- What was stored last under a path that leads to the file, or was in it before. -/
def lastStored (leads : Bytes → κ) (disk : κ → Option Bytes) (history : List (List Effect))
    (file : κ) : Option Bytes :=
  match (history.filterMap stored).reverse.find? fun upload => leads upload.1 = file with
  | some upload => some upload.2
  | none => disk file

theorem lastStored_cons (disk : κ → Option Bytes) (effects : List Effect)
    (later : List (List Effect)) (file : κ) :
    lastStored leads disk (effects :: later) file =
      lastStored leads (putAt leads disk (stored effects)) later file := by
  cases hstored : stored effects with
  | none =>
    rw [lastStored, List.filterMap_cons_none hstored]
    rfl
  | some upload =>
    rw [lastStored, lastStored, List.filterMap_cons_some hstored, List.reverse_cons,
      List.find?_append]
    cases hfind : (later.filterMap stored).reverse.find? fun upload => leads upload.1 = file with
    | some found => rfl
    | none =>
      show _ = Function.update disk (leads upload.1) (some upload.2) file
      rw [Function.update_apply, Option.none_or]
      by_cases hfile : leads upload.1 = file
      · rw [List.find?_cons_of_pos (by simpa using hfile), if_pos hfile.symm]
      · rw [List.find?_cons_of_neg (by simpa using hfile), if_neg (Ne.symm hfile)]
        rfl

/-- The disk holds what was stored last. -/
theorem diskAfter_eq_lastStored {disk : κ → Option Bytes} {history : List (List Effect)}
    (h : ∀ effects ∈ history, Served effects) (file : κ) :
    diskAfter leads disk history.flatten file = lastStored leads disk history file := by
  induction history generalizing disk with
  | nil => rfl
  | cons effects later ih =>
    obtain ⟨host, cuts, stream, rest, hok⟩ := h effects List.mem_cons_self
    have hsplit : diskAfter leads disk (effects ++ later.flatten) =
        diskAfter leads (diskAfter leads disk effects) later.flatten := List.foldl_append
    rw [List.flatten_cons, hsplit, ih fun e he => h e (List.mem_cons_of_mem effects he),
      lastStored_cons, (clientThread_outcome hok).diskAfter_eq]

/-- After any requests, whatever they were, a download that fits and does not ask for
the icon gets what was stored last under a path that leads to its file, or is told
that there is nothing. -/
theorem download_last_stored {disk : κ → Option Bytes} {history : List (List Effect)}
    (h : ∀ effects ∈ history, Served effects) {request : DownloadRequest} (hfits : request.Fits)
    (hicon : ¬ faviconName <:+: request.path) {host : Host}
    (hreads : host.fopen request.path =
      (diskAfter leads disk history.flatten (leads request.path)).map Opened.ofFile)
    (cuts : Nat → Nat) (body : Bytes) :
    (∀ content, lastStored leads disk history (leads request.path) = some content →
      (Delivers host cuts (request.header ++ body) content ↔ content.length ≤ intMax ∧
        (downloadHeader content.length request.filename).length < 1024 ∧
        ¬ emptyLine <:+: request.filename)) ∧
      (lastStored leads disk history (leads request.path) = none →
        clientThread host cuts (request.header ++ body) =
          .ok ([.openRead request.path, .send notFound], body)) := by
  rw [diskAfter_eq_lastStored h] at hreads
  constructor
  · intro content hcontent
    rw [hcontent] at hreads
    rw [request.delivers_iff, and_iff_right hfits, if_neg hicon]
    exact sendFile_framed_iff host hreads
  · intro hnone
    rw [hnone] at hreads
    rw [request.clientThread_eq host hfits, if_neg hicon, sendFile, hreads]
    rfl

end

/-- A host that can store every upload of one byte and reads the files. -/
def readingHost (files : Bytes → Option Bytes) : Host where
  scandir := fun _ => []
  fopen := fun path => (files path).map Opened.ofFile
  creates := fun _ => true
  verify := fun _ => some 1

/-- What the thread of `smallUpload` does. -/
theorem smallUpload_effects (files : Bytes → Option Bytes) : ∃ effects,
    clientThread (readingHost files) (fun _ => 1) (smallUpload.text ++ (smallPart ++ ascii "x")) =
        .ok (.create (ascii "/up/f") :: effects, []) ∧
      stored (.create (ascii "/up/f") :: effects) = some (ascii "/up/f", ascii "x") := by
  have hstored : Stored (readingHost files) smallUpload.toPostHead smallPart (ascii "f") :=
    { head_le := by decide +kernel
      target_lt := by decide +kernel
      isHeader := by decide +kernel
      part_le := by decide +kernel
      named := by decide +kernel
      name_lt := by decide +kernel
      path_ne := by decide +kernel
      creates := rfl }
  have hpath : fullpathOf smallUpload.path (ascii "f") = ascii "/up/f" := by decide +kernel
  obtain ⟨chunks, hloop, hflat⟩ := contentLoop_all (fun _ => 1) 0 smallPart.length (ascii "x") 30
    (by decide) (by decide)
  obtain ⟨response, hresponse⟩ := (verifyUpload_ok_iff (readingHost files) (ascii "f")
    (ascii "/up/f") smallUpload.path).mpr fun size hsize => by
      obtain rfl := Option.some.inj hsize
      decide +kernel
  refine ⟨chunks.map (.append (ascii "/up/f")) ++ [.send response], ?_, ?_⟩
  · refine (hstored.clientThread_ok_iff (fun _ => 1)).mpr ⟨by decide +kernel, 30, by decide +kernel,
      chunks, [], hloop, response, ?_, ?_⟩
    · rw [hpath]
      exact hresponse
    · rw [hpath]
      rfl
  · rw [← hflat]
    exact stored_store (ascii "/up/f") chunks response

/-- The link of the file `/up/f`. -/
def requestOfF : DownloadRequest where
  header := ascii "GET /up/f? HTTP/1.1\r\n\r\n"
  path := ascii "/up/f"
  isHeader := by decide +kernel
  method_eq := by decide +kernel
  decodedPath_eq := by decide +kernel

/-- An upload and a download of the same file. -/
theorem download_last_stored_f : ∃ effects, Served effects ∧
    Delivers (readingHost (diskAfter id (fun _ => some [1, 2]) [effects].flatten)) (fun _ => 1)
      (requestOfF.header ++ []) (ascii "x") := by
  obtain ⟨effects, hok, hstored⟩ := smallUpload_effects fun _ => some [1, 2]
  have hserved : Served (.create (ascii "/up/f") :: effects) := ⟨_, _, _, _, hok⟩
  have hlast : lastStored (κ := Bytes) id (fun _ => some [1, 2])
      [.create (ascii "/up/f") :: effects] (id requestOfF.path) = some (ascii "x") := by
    rw [lastStored_cons, hstored]
    exact putAt_self id (fun _ => some [1, 2]) (ascii "/up/f") (ascii "x")
  have hall : ∀ e ∈ [Effect.create (ascii "/up/f") :: effects], Served e := by
    rw [List.forall_mem_singleton]
    exact hserved
  have hfits : requestOfF.Fits := ⟨by decide +kernel, by decide +kernel⟩
  have hreads : ∀ files : Bytes → Option Bytes, (readingHost files).fopen requestOfF.path =
      (files (id requestOfF.path)).map Opened.ofFile := fun _ => rfl
  have hicon : ¬ faviconName <:+: requestOfF.path := by decide +kernel
  obtain ⟨hget, -⟩ :=
    @download_last_stored Bytes _ id (fun _ => some [1, 2]) _ hall requestOfF hfits
    hicon _ (hreads _) (fun _ => 1) []
  exact ⟨_, hserved, (hget _ hlast).mpr ⟨by decide, by decide +kernel, by decide +kernel⟩⟩

/-! ## Threads side by side -/

section

variable {κ : Type*} [DecidableEq κ]

/-- What one thread does, and what the others write elsewhere. -/
theorem filter_written_eq {l : List (κ × Effect)} {k : κ} {path : Bytes}
    (hothers : ∀ m ∈ l, m.1 ≠ k → m.2.written ≠ some path) :
    (l.map Prod.snd).filter (fun e => e.written = some path) =
      (restrict k l).filter fun e => e.written = some path := by
  rw [restrict, List.filter_map, List.filter_map, List.filter_filter]
  refine congrArg (List.map Prod.snd) (List.filter_congr fun m hm => ?_)
  by_cases hk : m.1 = k
  · simp [hk]
  · simp [hk, hothers m hm hk]

/-- However the file operations of the threads interleave, a thread that has ended
and was the only one to write its file leaves there exactly what it stored, and a
file that none of them writes stays as it was. -/
theorem stored_beside_others (files : Bytes → Option Bytes) {l : List (κ × Effect)} {k : κ}
    {host : Host} {cuts : Nat → Nat} {stream rest : Bytes}
    (hok : clientThread host cuts stream = .ok (restrict k l, rest)) {path : Bytes}
    (hothers : ∀ m ∈ l, m.1 ≠ k → m.2.written ≠ some path) :
    filesAfter files (l.map Prod.snd) path = put files (stored (restrict k l)) path := by
  rw [filesAfter_filter _ path rfl, filter_written_eq hothers, ← filesAfter_filter _ path rfl,
    (clientThread_outcome hok).filesAfter_eq]

end

/-- Another thread writes its file meanwhile. -/
theorem stored_beside_others_two : ∃ l : List (Nat × Effect),
    (1, .create (ascii "/up/g")) ∈ l ∧
      filesAfter (fun _ => none) (l.map Prod.snd) (ascii "/up/f") =
        put (fun _ => none) (some (ascii "/up/f", ascii "x")) (ascii "/up/f") := by
  obtain ⟨effects, hok, hstored⟩ := smallUpload_effects fun _ => none
  let l : List (Nat × Effect) := (1, .create (ascii "/up/g")) :: (0, .create (ascii "/up/f")) ::
    (1, .append (ascii "/up/g") [7]) :: effects.map fun e => (0, e)
  have hrestrict : restrict 0 l = .create (ascii "/up/f") :: effects := by
    simp [l, restrict, List.filter_map, Function.comp_def]
  have hothers : ∀ m ∈ l, m.1 ≠ 0 → m.2.written ≠ some (ascii "/up/f") := by
    intro m hm hk
    rcases List.mem_cons.mp hm with rfl | hm
    · decide +kernel
    rcases List.mem_cons.mp hm with rfl | hm
    · exact absurd rfl hk
    rcases List.mem_cons.mp hm with rfl | hm
    · decide +kernel
    · obtain ⟨e, -, rfl⟩ := List.mem_map.mp hm
      exact absurd rfl hk
  refine ⟨l, List.mem_cons_self, ?_⟩
  rw [← hrestrict] at hok hstored
  rw [← hstored]
  exact stored_beside_others _ hok hothers

end Np20
end NetLab
