import NetLab.Np20.Requests
import NetLab.Scandir.Navigation

/-!
# Where an upload goes

The file name is cut out of the part header and pasted behind the path of the
request.
-/

namespace NetLab
namespace Np20

open CString
open Scandir (Component)

/-- The argument of the `fopen` for writing, `none` where that is not reached. -/
def uploadTarget (path partBody : Bytes) : Except Fault (Option Bytes) :=
  if (strstr partBody headerEnd).isNone then .ok none
  else
    match partName partBody with
    | none => .ok none
    | some name => do
      let name ← Buffer.name.put name
      if path = [] then throw .emptyPath
      let fullpath ← Buffer.fullpath.put (fullpathOf path name)
      return some fullpath

/-- `fullpath` is `path`, one separating slash and a single component. -/
def EntryOf (path fullpath : Bytes) : Prop :=
  ∃ name, Component name ∧
    (path.getLast? = some 47 ∧ fullpath = path ++ name ∨
      path.getLast? ≠ some 47 ∧ fullpath = path ++ 47 :: name)

/-- No file is opened, or an entry of the directory. -/
def Confined (path partBody : Bytes) : Prop :=
  ∃ target, uploadTarget path partBody = .ok target ∧
    ∀ fullpath, target = some fullpath → EntryOf path fullpath

theorem entryOf_iff (path name : Bytes) : EntryOf path (fullpathOf path name) ↔ Component name := by
  have hslash : path.getLast? ≠ some 47 → fullpathOf path name = path ++ 47 :: name := by
    intro h
    rw [fullpathOf, separator, if_pos h, List.append_assoc]
    rfl
  have hnone : path.getLast? = some 47 → fullpathOf path name = path ++ name := by
    intro h
    rw [fullpathOf, separator, if_neg (not_not.mpr h), List.append_nil]
  constructor
  · rintro ⟨name', hname, ⟨hlast, heq⟩ | ⟨hlast, heq⟩⟩
    · rw [hnone hlast] at heq
      rwa [List.append_cancel_left heq]
    · rw [hslash hlast, List.append_cancel_left_eq, List.cons.injEq] at heq
      rwa [heq.2]
  · intro hname
    refine ⟨name, hname, ?_⟩
    by_cases hlast : path.getLast? = some 47
    · exact .inl ⟨hlast, hnone hlast⟩
    · exact .inr ⟨hlast, hslash hlast⟩

/-! ## The branch in the client thread -/

theorem uploadTarget_headless (path : Bytes) {part : Bytes} (h : strstr part headerEnd = none) :
    uploadTarget path part = .ok none := by
  rw [uploadTarget, h]
  rfl

theorem uploadTarget_unnamed (path : Bytes) {part : Bytes} (hname : partName part = none) :
    uploadTarget path part = .ok none := by
  rw [uploadTarget, hname]
  split
  · rfl
  · rfl

theorem uploadTarget_named (path : Bytes) {part name : Bytes} (h : strstr part headerEnd ≠ none)
    (hname : partName part = some name) :
    uploadTarget path part =
      if name.length < 1024 then
        if path = [] then .error .emptyPath
        else if (fullpathOf path name).length < 2048 then .ok (some (fullpathOf path name))
        else .error (.overflow .fullpath)
      else .error (.overflow .name) := by
  have hsome : ¬ (strstr part headerEnd).isNone = true := by
    rw [Option.isNone_iff_eq_none]
    exact h
  rw [uploadTarget, if_neg hsome, hname]
  by_cases hlt : name.length < 1024
  · rw [if_pos hlt]
    show (Buffer.name.put name >>= _) = _
    rw [Buffer.put_of_lt hlt]
    show (if path = [] then _ else _) = _
    by_cases hnil : path = []
    · rw [if_pos hnil, if_pos hnil]
      rfl
    · rw [if_neg hnil, if_neg hnil]
      show (Buffer.fullpath.put (fullpathOf path name) >>= _) = _
      by_cases hfits : (fullpathOf path name).length < 2048
      · rw [if_pos hfits, Buffer.put_of_lt hfits]
        rfl
      · rw [if_neg hfits, Buffer.put_of_not_lt hfits]
        rfl
  · rw [if_neg hlt]
    show (Buffer.name.put name >>= _) = _
    rw [Buffer.put_of_not_lt hlt]
    rfl

/-- The file that a POST opens is the target of its part header, where this is
counted. -/
theorem servePost_target (host : Host) (cuts : Nat → Nat) (requestBody : Bytes) {path part : Bytes}
    (h : IsHeader part) (hlen : part.length ≤ intMax) (rest : Bytes) :
    match uploadTarget path part with
    | .error fault => servePost host cuts requestBody path (part ++ rest) = .error fault
    | .ok none => ∃ error, servePost host cuts requestBody path (part ++ rest) =
        .ok ([.send (badRequest error)], rest)
    | .ok (some fullpath) => ∃ name, servePost host cuts requestBody path (part ++ rest) =
        storeUpload host cuts requestBody path name fullpath part.length rest := by
  have hsome : strstr part headerEnd ≠ none := by
    rw [h.strstr_eq]
    exact Option.some_ne_none _
  cases hname : partName part with
  | none =>
    rw [uploadTarget_unnamed path hname]
    exact servePost_unnamed host cuts requestBody path h hlen hname rest
  | some name =>
    rw [uploadTarget_named path hsome hname]
    by_cases hlt : name.length < 1024
    · by_cases hnil : path = []
      · rw [if_pos hlt, if_pos hnil, hnil]
        exact servePost_emptyPath host cuts requestBody h hlen hname hlt rest
      · have hserve := servePost_named host cuts requestBody path h hlen hname rest
        rw [Buffer.put_of_lt hlt] at hserve
        change _ = (if path = [] then _ else _) at hserve
        rw [if_neg hnil] at hserve
        change _ = (Buffer.fullpath.put (fullpathOf path name) >>= _) at hserve
        by_cases hfits : (fullpathOf path name).length < 2048
        · rw [if_pos hlt, if_neg hnil, if_pos hfits]
          rw [Buffer.put_of_lt hfits] at hserve
          exact ⟨name, hserve⟩
        · rw [if_pos hlt, if_neg hnil, if_neg hfits]
          rw [Buffer.put_of_not_lt hfits] at hserve
          exact hserve
    · rw [if_neg hlt]
      exact servePost_longName host cuts requestBody path h hlen hname hlt rest

/-! ## Inside the directory -/

/-- An upload stays in the directory of the request exactly when its part header
has no end or names no file, or names it by a single component that fits `name`, and
the path is not empty. -/
theorem upload_confined_iff {path : Bytes} (hpath : path.length < 1024) (part : Bytes) :
    Confined path part ↔ strstr part headerEnd = none ∨ partName part = none ∨
      ∃ name, partName part = some name ∧ name.length < 1024 ∧ path ≠ [] ∧ Component name := by
  by_cases hend : strstr part headerEnd = none
  · exact iff_of_true ⟨none, uploadTarget_headless path hend, nofun⟩ (.inl hend)
  · rw [or_iff_right hend]
    cases hname : partName part with
    | none => exact iff_of_true ⟨none, uploadTarget_unnamed path hname, nofun⟩ (.inl rfl)
    | some name =>
      have htarget := uploadTarget_named path hend hname
      constructor
      · rintro ⟨target, hok, hentry⟩
        rw [htarget] at hok
        split at hok
        · rename_i hlt
          split at hok
          · cases hok
          · rename_i hnil
            split at hok
            · have hfull := hentry _ (Except.ok.inj hok).symm
              exact .inr ⟨name, rfl, hlt, hnil, (entryOf_iff path name).mp hfull⟩
            · cases hok
        · cases hok
      · rintro (hnone | ⟨name', heq, hlt, hnil, hcomponent⟩)
        · cases hnone
        · obtain rfl := Option.some.inj heq
          rw [if_pos hlt, if_neg hnil, if_pos (length_fullpathOf_lt hpath hlt)] at htarget
          refine ⟨_, htarget, fun fullpath hfull => ?_⟩
          rw [← Option.some.inj hfull]
          exact (entryOf_iff path name).mpr hcomponent

/-- A part header that names a file. -/
def partOf (name : Bytes) : Bytes :=
  ascii "Content-Disposition: form-data; filename=\"" ++ name ++ ascii "\"\r\n\r\n"

theorem plain_name_confined : (ascii "/up").length < 1024 ∧
    Confined (ascii "/up") (partOf (ascii "a.txt")) := by
  have hpath : (ascii "/up").length < 1024 := by decide
  have hname : partName (partOf (ascii "a.txt")) = some (ascii "a.txt") := by decide +kernel
  have hcomponent : Component (ascii "a.txt") := ⟨by decide, by decide, by decide, by decide⟩
  exact ⟨hpath, (upload_confined_iff hpath _).mpr
    (.inr (.inr ⟨ascii "a.txt", hname, by decide, by decide, hcomponent⟩))⟩

/-- The name `../x` leaves the directory. -/
theorem parent_name_escapes : ¬ ∀ path part : Bytes, path ≠ [] → path.length < 1024 →
    IsHeader part → Confined path part := by
  intro h
  have hpart : IsHeader (partOf (ascii "../x")) := by decide +kernel
  have hname : partName (partOf (ascii "../x")) = some (ascii "../x") := by decide +kernel
  have hsome : strstr (partOf (ascii "../x")) headerEnd ≠ none := by
    rw [hpart.strstr_eq]
    exact Option.some_ne_none _
  obtain ⟨target, hok, hentry⟩ := h (ascii "/up") _ (by decide) (by decide) hpart
  have htarget := uploadTarget_named (ascii "/up") hsome hname
  rw [if_pos (by decide), if_neg (by decide), if_pos (by decide +kernel)] at htarget
  have hfull := hentry _ (Except.ok.inj (hok.symm.trans htarget))
  exact absurd ((entryOf_iff _ _).mp hfull).slash (by decide)

end Np20
end NetLab
