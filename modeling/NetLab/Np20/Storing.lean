import NetLab.Np20.PostHead

/-!
# Storing the content of an upload

The content loop asks for 1024 bytes whatever remains of the declared length.
It takes the whole stream where this is not longer than the length, and where it
is longer the network decides how much more is taken.
-/

namespace NetLab
namespace Np20

open CString ByteStream

/-! ## The content loop -/

theorem contentLoop_done (cuts : Nat → Nat) {length : Int} (i : Nat) {read : Nat}
    (h : length ≤ read) (stream : Bytes) :
    contentLoop cuts length i read stream = .ok ([], stream) := by
  rw [contentLoop, if_neg (Int.not_lt.mpr h)]

theorem contentLoop_nil (cuts : Nat → Nat) (length : Int) (i read : Nat) :
    contentLoop cuts length i read [] = .ok ([], []) := by
  have hrecv : (recv (cuts i) 1024 []).1 = [] := List.take_nil
  by_cases h : (read : Int) < length
  · rw [contentLoop, if_pos h]
    exact if_pos hrecv
  · rw [contentLoop, if_neg h]

theorem contentLoop_step (cuts : Nat → Nat) {length : Int} {i read : Nat} {stream : Bytes}
    (h : (read : Int) < length) (hne : stream ≠ []) :
    contentLoop cuts length i read stream =
      if read + part (cuts i) (min 1024 stream.length) ≤ intMax then (do
        let more ← contentLoop cuts length (i + 1) (read + part (cuts i) (min 1024 stream.length))
          (stream.drop (part (cuts i) (min 1024 stream.length)))
        return (stream.take (part (cuts i) (min 1024 stream.length)) :: more.1, more.2))
      else .error .intOverflow := by
  have hlen := length_recv (cuts i) 1024 stream
  have hpos : 0 < stream.length := List.length_pos_of_ne_nil hne
  have hpart := part_pos (k := cuts i) (n := min 1024 stream.length) (by omega)
  have hsome : (recv (cuts i) 1024 stream).1 ≠ [] := fun hnil => by
    rw [hnil, List.length_nil] at hlen
    omega
  rw [contentLoop, if_pos h]
  dsimp only
  rw [if_neg hsome, hlen]
  rfl

/-- However the stream is cut, one that is not longer than announced is taken
completely. -/
theorem contentLoop_all (cuts : Nat → Nat) (i read : Nat) (stream : Bytes) :
    ∀ length : Int, read + stream.length ≤ length → length ≤ intMax →
      ∃ chunks, contentLoop cuts length i read stream = .ok (chunks, []) ∧
        chunks.flatten = stream := by
  induction hn : stream.length using Nat.strongRecOn generalizing i read stream with
  | ind n ih =>
    intro length hlength hmax
    by_cases hnil : stream = []
    · subst hnil
      exact ⟨[], contentLoop_nil cuts length i read, rfl⟩
    · have hpos : 0 < stream.length := List.length_pos_of_ne_nil hnil
      have hpart := part_pos (k := cuts i) (n := min 1024 stream.length) (by omega)
      have hle := part_le (cuts i) (min 1024 stream.length)
      obtain ⟨m, hm⟩ : ∃ m, m = part (cuts i) (min 1024 stream.length) := ⟨_, rfl⟩
      rw [← hm] at hpart hle
      have hdrop : (stream.drop m).length = stream.length - m := List.length_drop
      obtain ⟨chunks, hloop, hflat⟩ := ih (stream.drop m).length (by omega) (i + 1) (read + m)
        (stream.drop m) rfl length (by omega) hmax
      refine ⟨stream.take m :: chunks, ?_, ?_⟩
      · rw [contentLoop_step cuts (by omega) hnil, ← hm, if_pos (by omega), hloop]
        rfl
      · rw [List.flatten_cons, hflat, List.take_append_drop]

/-- While a call moves one byte, the loop goes on behind it. -/
theorem contentLoop_singles (cuts : Nat → Nat) (length : Int) (hmax : length ≤ intMax) (d : Nat) :
    ∀ (i read : Nat) (stream : Bytes), (∀ j < d, cuts (i + j) = 1) → read + d ≤ length →
      d ≤ stream.length →
      ∃ singles : List Bytes, singles.flatten = stream.take d ∧
        (∀ more, contentLoop cuts length (i + d) (read + d) (stream.drop d) = .ok more →
          contentLoop cuts length i read stream = .ok (singles ++ more.1, more.2)) ∧
        ∀ e, contentLoop cuts length (i + d) (read + d) (stream.drop d) = .error e →
          contentLoop cuts length i read stream = .error e := by
  induction d with
  | zero =>
    intro i read stream _ _ _
    exact ⟨[], rfl, fun more h => h, fun e h => h⟩
  | succ d ih =>
    intro i read stream hcuts hlength hstream
    have hne : stream ≠ [] := by
      rintro rfl
      rw [List.length_nil] at hstream
      omega
    have hone : part (cuts i) (min 1024 stream.length) = 1 := by
      have hcut := hcuts 0 (Nat.succ_pos d)
      rw [Nat.add_zero] at hcut
      rw [hcut, part_self Nat.one_pos (by omega)]
    have hdrop : (stream.drop 1).length = stream.length - 1 := List.length_drop
    obtain ⟨singles, hflat, hok, herror⟩ := ih (i + 1) (read + 1) (stream.drop 1)
      (fun j hj => by
        rw [Nat.add_assoc, Nat.add_comm 1 j]
        exact hcuts (j + 1) (by omega)) (by omega) (by omega)
    have hi : i + 1 + d = i + (d + 1) := by omega
    have hread : read + 1 + d = read + (d + 1) := by omega
    rw [List.drop_drop, hi, hread, Nat.add_comm 1 d] at hok herror
    refine ⟨stream.take 1 :: singles, ?_, fun more h => ?_, fun e h => ?_⟩
    · rw [List.flatten_cons, hflat, ← List.take_add, Nat.add_comm 1 d]
    · rw [contentLoop_step cuts (by omega) hne, hone, if_pos (by omega), hok more h]
      rfl
    · rw [contentLoop_step cuts (by omega) hne, hone, if_pos (by omega), herror e h]
      rfl

/-- Byte by byte the loop takes exactly the announced length. -/
theorem contentLoop_exact (length read : Nat) (stream : Bytes) (hmax : length ≤ intMax)
    (hread : read ≤ length) (hstream : length ≤ read + stream.length) :
    ∃ chunks, contentLoop (fun _ => 1) length 0 read stream =
        .ok (chunks, stream.drop (length - read)) ∧
      chunks.flatten = stream.take (length - read) := by
  obtain ⟨singles, hflat, hok, -⟩ := contentLoop_singles (fun _ => 1) length (by omega)
    (length - read) 0 read stream (fun _ _ => rfl) (by omega) (by omega)
  refine ⟨singles, ?_, hflat⟩
  have hloop := hok _ (contentLoop_done (fun _ => 1) _ (by omega) _)
  rw [List.append_nil] at hloop
  exact hloop

/-- One byte at a time up to the last announced byte, and `m` bytes in the call
that takes it. -/
theorem contentLoop_last (length read m : Nat) (stream : Bytes) (hmax : length ≤ intMax)
    (hread : read < length) (hpos : 0 < m) (hle : m ≤ 1024)
    (hstream : length + m ≤ read + stream.length + 1) :
    ∃ cuts,
      (length + m ≤ intMax + 1 ∧ ∃ chunks rest,
        contentLoop cuts length 0 read stream = .ok (chunks, rest) ∧
        chunks.flatten.length + read + 1 = length + m) ∨
      (intMax + 1 < length + m ∧ contentLoop cuts length 0 read stream = .error .intOverflow) := by
  obtain ⟨d, hd⟩ : ∃ d, length = read + d + 1 := ⟨length - read - 1, by omega⟩
  obtain ⟨cuts, hcuts⟩ : ∃ cuts : Nat → Nat, ∀ i, cuts i = if i = d then m else 1 :=
    ⟨_, fun _ => rfl⟩
  refine ⟨cuts, ?_⟩
  obtain ⟨singles, hflat, hok, herror⟩ := contentLoop_singles cuts length (by omega) d 0 read stream
    (fun j hj => (hcuts (0 + j)).trans (if_neg (by omega))) (by omega) (by omega)
  have hdrop : (stream.drop d).length = stream.length - d := List.length_drop
  have hne : stream.drop d ≠ [] := by
    intro hnil
    rw [hnil, List.length_nil] at hdrop
    omega
  have hpart : part (cuts (0 + d)) (min 1024 (stream.drop d).length) = m := by
    rw [hcuts, if_pos (Nat.zero_add d), part_self hpos (by omega)]
  have hlt : ((read + d : Nat) : Int) < (length : Int) := by omega
  have hstep := contentLoop_step cuts (i := 0 + d) hlt hne
  rw [hpart] at hstep
  by_cases hfits : read + d + m ≤ intMax
  · left
    have hdone : contentLoop cuts (length : Int) (0 + d + 1) (read + d + m)
        ((stream.drop d).drop m) = .ok ([], (stream.drop d).drop m) :=
      contentLoop_done cuts _ (by omega) _
    rw [if_pos hfits, hdone] at hstep
    refine ⟨by omega, _, _, hok _ hstep, ?_⟩
    rw [List.flatten_append, hflat, List.flatten_singleton, List.length_append,
      List.length_take, List.length_take]
    omega
  · right
    rw [if_neg hfits] at hstep
    exact ⟨by omega, herror _ hstep⟩

/-- Where the announced length ends within the stream, no content is left for
every cut: the last call can take one byte more. -/
theorem contentLoop_depends {length : Int} (hmax : length ≤ intMax) {read : Nat} {stream : Bytes}
    (hread : read < length) (hshort : length < (read + stream.length : Nat)) (content : Bytes) :
    ¬ ∀ cuts, ∃ chunks rest, contentLoop cuts length 0 read stream = .ok (chunks, rest) ∧
      chunks.flatten = content := by
  intro h
  obtain ⟨n, rfl⟩ : ∃ n : Nat, length = n := ⟨length.toNat, by omega⟩
  have hlength : content.length = n - read := by
    obtain ⟨chunks, hexact, hflat⟩ := contentLoop_exact n read stream (by omega) (by omega)
      (by omega)
    obtain ⟨chunks', rest, hloop, hcontent⟩ := h fun _ => 1
    rw [hexact, Except.ok.injEq, Prod.mk.injEq] at hloop
    rw [← hcontent, ← hloop.1, hflat, List.length_take]
    omega
  obtain ⟨cuts, hlast⟩ := contentLoop_last n read 2 stream (by omega) (by omega) (by omega)
    (by omega) (by omega)
  obtain ⟨chunks', rest, hloop, hcontent⟩ := h cuts
  rcases hlast with ⟨-, chunks, rest', hloop', hmore⟩ | ⟨-, hfault⟩
  · rw [hloop', Except.ok.injEq, Prod.mk.injEq] at hloop
    rw [hloop.1, hcontent] at hmore
    omega
  · rw [hfault] at hloop
    cases hloop

/-- Where the last call cannot take the counter too far, the loop ends. -/
theorem contentLoop_total (cuts : Nat → Nat) {length : Int} :
    ∀ (n i read : Nat) (stream : Bytes), stream.length ≤ n →
      length + 1023 ≤ intMax ∨ read + stream.length ≤ intMax →
      ∃ out, contentLoop cuts length i read stream = .ok out := by
  intro n
  induction n with
  | zero =>
    intro i read stream hn _
    obtain rfl := List.eq_nil_of_length_eq_zero (Nat.le_zero.mp hn)
    exact ⟨_, contentLoop_nil cuts length i read⟩
  | succ n ih =>
    intro i read stream hn hfits
    by_cases hlt : (read : Int) < length
    · by_cases hnil : stream = []
      · subst hnil
        exact ⟨_, contentLoop_nil cuts length i read⟩
      · have hpos : 0 < stream.length := List.length_pos_of_ne_nil hnil
        have hpart := part_pos (k := cuts i) (n := min 1024 stream.length) (by omega)
        have hle := part_le (cuts i) (min 1024 stream.length)
        have hdrop : (stream.drop (part (cuts i) (min 1024 stream.length))).length =
            stream.length - part (cuts i) (min 1024 stream.length) := List.length_drop
        obtain ⟨out, hout⟩ := ih (i + 1) (read + part (cuts i) (min 1024 stream.length))
          (stream.drop (part (cuts i) (min 1024 stream.length))) (by omega) (by omega)
        rw [contentLoop_step cuts hlt hnil, if_pos (by omega), hout]
        exact ⟨_, rfl⟩
    · exact ⟨_, contentLoop_done cuts i (by omega) stream⟩

theorem contentLoop_total_iff {length : Int} (hmax : length ≤ intMax) (read : Nat)
    (stream : Bytes) :
    (∀ cuts, ∃ out, contentLoop cuts length 0 read stream = .ok out) ↔
      length ≤ read ∨ length + 1023 ≤ intMax ∨ read + stream.length ≤ intMax := by
  constructor
  · intro h
    by_contra hnot
    rw [not_or, not_or] at hnot
    obtain ⟨n, rfl⟩ : ∃ n : Nat, length = n := ⟨length.toNat, by omega⟩
    obtain ⟨m, hm⟩ : ∃ m, m = min 1024 (read + stream.length + 1 - n) := ⟨_, rfl⟩
    obtain ⟨cuts, ⟨hle, -⟩ | ⟨-, herror⟩⟩ := contentLoop_last n read m stream (by omega) (by omega)
      (by omega) (by omega) (by omega)
    · omega
    · obtain ⟨out, hok⟩ := h cuts
      rw [hok] at herror
      cases herror
  · intro h cuts
    rcases h with hdone | hfits
    · exact ⟨_, contentLoop_done cuts 0 hdone stream⟩
    · exact contentLoop_total cuts _ 0 read stream (Nat.le_refl _) hfits

/-- What is taken and what stays are the stream. -/
theorem contentLoop_split (cuts : Nat → Nat) {length : Int} {chunks : List Bytes} {rest : Bytes} :
    ∀ (n i read : Nat) (stream : Bytes), stream.length ≤ n →
      contentLoop cuts length i read stream = .ok (chunks, rest) →
      chunks.flatten ++ rest = stream := by
  intro n
  induction n generalizing chunks with
  | zero =>
    intro i read stream hn h
    obtain rfl := List.eq_nil_of_length_eq_zero (Nat.le_zero.mp hn)
    rw [contentLoop_nil, Except.ok.injEq, Prod.mk.injEq] at h
    rw [← h.1, ← h.2]
    rfl
  | succ n ih =>
    intro i read stream hn h
    by_cases hlt : (read : Int) < length
    · by_cases hnil : stream = []
      · subst hnil
        rw [contentLoop_nil, Except.ok.injEq, Prod.mk.injEq] at h
        rw [← h.1, ← h.2]
        rfl
      · have hpos : 0 < stream.length := List.length_pos_of_ne_nil hnil
        have hpart := part_pos (k := cuts i) (n := min 1024 stream.length) (by omega)
        have hdrop : (stream.drop (part (cuts i) (min 1024 stream.length))).length =
            stream.length - part (cuts i) (min 1024 stream.length) := List.length_drop
        rw [contentLoop_step cuts hlt hnil] at h
        split at h
        · obtain ⟨more, hmore, h⟩ := bind_eq_ok.mp h
          obtain ⟨rfl, rfl⟩ := Prod.mk.inj (Except.ok.inj h)
          have hrest := ih (i + 1) _ _ (by omega) hmore
          rw [List.flatten_cons, List.append_assoc, hrest, List.take_append_drop]
        · cases h
    · rw [contentLoop_done cuts i (by omega), Except.ok.injEq, Prod.mk.injEq] at h
      rw [← h.1, ← h.2]
      rfl

theorem length_rest_le {cuts : Nat → Nat} {length : Int} {i read : Nat} {stream rest : Bytes}
    {chunks : List Bytes} (h : contentLoop cuts length i read stream = .ok (chunks, rest)) :
    rest.length ≤ stream.length := by
  have hsplit := congrArg List.length (contentLoop_split cuts _ i read stream (Nat.le_refl _) h)
  rw [List.length_append] at hsplit
  omega

theorem contentLength_le {requestBody : Bytes} {length : Int}
    (h : contentLength requestBody = some length) : length ≤ intMax := by
  have hzero : (0 : Int) ≤ intMax := Int.natCast_nonneg _
  rw [contentLength] at h
  split at h
  · exact Option.some.inj h ▸ hzero
  · split at h
    · exact Option.some.inj h ▸ hzero
    · rw [Option.ite_none_right_eq_some, Option.some.injEq] at h
      exact h.2 ▸ h.1.2

/-! ## What is left in the files -/

/-- An upload changes the file that its path leads to. -/
theorem diskAfter_store {κ : Type*} [DecidableEq κ] (leads : Bytes → κ) (disk : κ → Option Bytes)
    (path response : Bytes) (chunks : List Bytes) :
    diskAfter leads disk (.create path :: chunks.map (.append path) ++ [.send response]) =
      Function.update disk (leads path) (some chunks.flatten) := by
  have hsend : ∀ effects, diskAfter leads disk (effects ++ [.send response]) =
      diskAfter leads disk effects := by
    intro effects
    rw [diskAfter, diskAfter, List.foldl_concat]
    rfl
  have happends : ∀ (chunks : List Bytes) (old : Bytes),
      diskAfter leads (Function.update disk (leads path) (some old)) (chunks.map (.append path)) =
        Function.update disk (leads path) (some (old ++ chunks.flatten)) := by
    intro chunks
    induction chunks with
    | nil =>
      intro old
      rw [List.flatten_nil, List.append_nil]
      rfl
    | cons data chunks ih =>
      intro old
      have hstep : Effect.applyAt leads (Function.update disk (leads path) (some old))
          (.append path data) = Function.update disk (leads path) (some (old ++ data)) := by
        rw [Effect.applyAt, Function.update_self, Function.update_idem]
        rfl
      rw [List.map_cons, diskAfter, List.foldl_cons, hstep, List.flatten_cons, ← List.append_assoc]
      exact ih (old ++ data)
  rw [hsend]
  exact happends chunks []

/-- An upload changes its own file only. -/
theorem filesAfter_store (files : Bytes → Option Bytes) (path response : Bytes)
    (chunks : List Bytes) :
    filesAfter files (.create path :: chunks.map (.append path) ++ [.send response]) =
      Function.update files path (some chunks.flatten) := by
  rw [← diskAfter_id, diskAfter_store]
  rfl

/-- The answer that announces the success fits its arrays. -/
def AnswerFits (host : Host) (name fullpath path : Bytes) : Prop :=
  ∀ size, host.verify fullpath = some size →
    let page := uploadPage name size fullpath path
    (decimal page.length).length + page.length + 62 < 1024

theorem verifyUpload_ok_iff (host : Host) (name fullpath path : Bytes) :
    (∃ response, verifyUpload host name fullpath path = .ok response) ↔
      AnswerFits host name fullpath path := by
  have hhead : (ascii "HTTP/1.1 200 OK\r\nContent-Type: text/html\r\nContent-Length: ").length =
      58 := rfl
  have hend : (ascii "\r\n\r\n").length = 4 := rfl
  rw [verifyUpload, AnswerFits]
  cases host.verify fullpath with
  | none => exact iff_of_true ⟨_, rfl⟩ nofun
  | some size =>
    obtain ⟨page, hpage⟩ : ∃ page, page = uploadPage name size fullpath path := ⟨_, rfl⟩
    dsimp only
    rw [← hpage]
    constructor
    · rintro ⟨response, h⟩ size' hsize
      obtain rfl := Option.some.inj hsize
      obtain ⟨html, hhtml, h⟩ := bind_eq_ok.mp h
      obtain ⟨-, rfl⟩ := Buffer.put_eq_ok.mp hhtml
      have hlt : _ < 1024 := (Buffer.put_eq_ok.mp h).1
      simp only [List.length_append, hhead, hend] at hlt
      rw [← hpage]
      omega
    · intro h
      have hlt := h size rfl
      rw [← hpage] at hlt
      have hhtml : page.length < Buffer.htmlResponse.size := by
        show page.length < 2048
        omega
      rw [Buffer.put_of_lt hhtml]
      refine ⟨_, Buffer.put_of_lt ?_⟩
      simp only [List.length_append, hhead, hend]
      show _ < 1024
      omega

theorem storeUpload_ok_iff {host : Host} (cuts : Nat → Nat) {requestBody : Bytes}
    {path name fullpath : Bytes} (h : host.creates fullpath = true) {read : Nat} {stream : Bytes}
    {out : List Effect × Bytes} :
    storeUpload host cuts requestBody path name fullpath read stream = .ok out ↔
      (boundaryOf requestBody).length < 256 ∧
      ∃ length, contentLength requestBody = some length ∧
      ∃ chunks rest, contentLoop cuts length 0 read stream = .ok (chunks, rest) ∧
      ∃ response, verifyUpload host name fullpath path = .ok response ∧
        out = (.create fullpath :: chunks.map (.append fullpath) ++ [.send response], rest) := by
  by_cases hboundary : (boundaryOf requestBody).length < 256
  · cases hlength : contentLength requestBody with
    | none =>
      rw [storeUpload_noLength cuts path name h hboundary hlength]
      refine iff_of_false nofun ?_
      rintro ⟨-, length, hsome, -⟩
      cases hsome
    | some length =>
      rw [storeUpload_created cuts path name h hboundary hlength]
      constructor
      · intro hout
        obtain ⟨⟨chunks, rest⟩, hloop, hout⟩ := bind_eq_ok.mp hout
        obtain ⟨response, hresponse, hout⟩ := bind_eq_ok.mp hout
        exact ⟨hboundary, length, rfl, chunks, rest, hloop, response, hresponse,
          (Except.ok.inj hout).symm⟩
      · rintro ⟨-, _, hsome, chunks, rest, hloop, response, hresponse, rfl⟩
        obtain rfl := Option.some.inj hsome
        rw [hloop, hresponse]
        rfl
  · rw [storeUpload_boundary cuts path name h hboundary]
    exact iff_of_false nofun fun hstore => hboundary hstore.1

/-- An upload that comes as far as creating its file. -/
structure Stored (host : Host) (head : PostHead) (part name : Bytes) : Prop where
  head_le : head.text.length ≤ intMax
  target_lt : head.target.length < 1024
  isHeader : IsHeader part
  part_le : part.length ≤ intMax
  named : partName part = some name
  name_lt : name.length < 1024
  path_ne : head.path ≠ []
  creates : host.creates (fullpathOf head.path name) = true

/-- It ends with what the content loop takes. -/
theorem Stored.clientThread_ok_iff {host : Host} {head : PostHead} {part name : Bytes}
    (h : Stored host head part name) (cuts : Nat → Nat) {rest : Bytes}
    {out : List Effect × Bytes} :
    clientThread host cuts (head.text ++ (part ++ rest)) = .ok out ↔
      (boundaryOf head.text).length < 256 ∧
      ∃ length, contentLength head.text = some length ∧
      ∃ chunks rest', contentLoop cuts length 0 part.length rest = .ok (chunks, rest') ∧
      ∃ response,
        verifyUpload host name (fullpathOf head.path name) head.path = .ok response ∧
        out = (.create (fullpathOf head.path name) ::
          chunks.map (.append (fullpathOf head.path name)) ++ [.send response], rest') := by
  rw [head.clientThread_store host cuts h.head_le h.target_lt h.path_ne h.isHeader h.part_le h.named
    h.name_lt]
  exact storeUpload_ok_iff cuts h.creates

/-- A host on which every upload can be stored and read back. -/
def writable (size : Int) : Host where
  scandir := fun _ => []
  fopen := fun _ => none
  creates := fun _ => true
  verify := fun _ => some size

/-- A part header for the file `f`. -/
def smallPart : Bytes := ascii "name=\"file\"; filename=\"f\"\r\n\r\n"

/-- The byte `x` sent to the directory `/up`. -/
def smallUpload : PostRequest where
  target := ascii "/up"
  fieldsBefore := []
  fieldsAfter := []
  length := 30
  target_ne := by decide
  target_word := by decide
  target_nul := by decide
  fields_lines := nofun
  body := smallPart ++ ascii "x"
  body_length := by decide

end Np20
end NetLab
