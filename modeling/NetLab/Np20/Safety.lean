import NetLab.Np20.Links

/-!
# Which requests the handler survives

The tokens of a request go into arrays of fixed size, and some of them are
indexed from their end.  `InRange` says of a request that all of this stays in
range until the answer is formatted.
-/

namespace NetLab
namespace Np20

open CString

/-- An access out of range before the answer is formatted.  Where a length or the
argument of an allocation is no `int` any more, what is written next goes behind
a null pointer. -/
def Fault.isAccess : Fault → Bool
  | overflow .ok | overflow .response | overflow .htmlResponse => false
  | overflow _ => true
  | emptyPath | nullPartBody | headerLength | pageLength | allocation => true
  | contentLength | intOverflow | hang => false

/-- Every access on the way to the answer is in range. -/
def Survives (host : Host) (cuts : Nat → Nat) (stream : Bytes) : Prop :=
  ∀ fault, clientThread host cuts stream = .error fault → fault.isAccess = false

/-- The target does not decode to the empty path. -/
def NamesPath (target : Bytes) : Prop := target ≠ [] ∧ ¬ ascii "%00" <+: target

/-- The icon has a length, and so has the page of the directory that is listed. -/
structure GetInRange (host : Host) (path : Bytes) : Prop where
  icon : faviconName <:+: path → ∀ f, host.fopen faviconName = some f → 0 ≤ toInt32 f.length
  page : ¬ faviconName <:+: path → path.getLast? ≠ some 63 →
    pageSize path (host.scandir path) < intMax

/-- The texts of an upload fit, and so does the boundary where a file is
created. -/
structure UploadInRange (host : Host) (header name : Bytes) : Prop where
  name_lt : name.length < 1024
  namesPath : NamesPath (secondWord header)
  boundary_lt : host.creates (fullpathOf (decodedPath header) name) = true →
    (boundaryOf header).length < 256

/-- Something follows the header of a POST, and as far as the part header it is
counted. -/
structure PostInRange (host : Host) (header body : Bytes) : Prop where
  body_ne : body ≠ []
  headless_le : Headless body → body.length ≤ intMax
  part_le : ∀ part rest, body = part ++ rest → IsHeader part → part.length ≤ intMax
  upload : ∀ part rest name, body = part ++ rest → IsHeader part → partName part = some name →
    UploadInRange host header name

/-- The request with this header, and what follows it. -/
structure InRange (host : Host) (header body : Bytes) : Prop where
  header_le : header.length ≤ intMax
  method_lt : (firstWord header).length < 8
  target_lt : (secondWord header).length < 1024
  get : firstWord header = ascii "GET" →
    NamesPath (secondWord header) ∧ GetInRange host (decodedPath header)
  post : firstWord header = ascii "POST" → PostInRange host header body

/-! ## Paths that decode to nothing -/

theorem cstr_cons_eq_nil {b : UInt8} {s : Bytes} : cstr (b :: s) = [] ↔ b = 0 := by
  rw [cstr]
  by_cases h : b = 0
  · rw [List.takeWhile_cons_of_neg (by simp [h])]
    exact iff_of_true rfl h
  · rw [List.takeWhile_cons_of_pos (by simp [h])]
    exact iff_of_false (List.cons_ne_nil _ _) h

/-- A hexadecimal digit is below 16, and only the digit zero has no value. -/
theorem hexValue_digit {a : UInt8} (h : isxdigit a = true) :
    (hexValue a).toNat < 16 ∧ ((hexValue a).toNat = 0 ↔ a = 48) := by
  have hall : ∀ n < 256, isxdigit (UInt8.ofNat n) = true →
      (hexValue (UInt8.ofNat n)).toNat < 16 ∧
        ((hexValue (UInt8.ofNat n)).toNat = 0 ↔ UInt8.ofNat n = 48) := by
    decide +kernel
  have hof : UInt8.ofNat a.toNat = a := UInt8.ofNat_toNat
  rw [← hof] at h ⊢
  exact hall a.toNat a.toNat_lt h

theorem escape_eq_zero {a b : UInt8} (ha : isxdigit a = true) (hb : isxdigit b = true) :
    16 * hexValue a + hexValue b = 0 ↔ a = 48 ∧ b = 48 := by
  obtain ⟨hlta, hza⟩ := hexValue_digit ha
  obtain ⟨hltb, hzb⟩ := hexValue_digit hb
  have h16 : (16 : UInt8).toNat = 16 := rfl
  have h0 : (0 : UInt8).toNat = 0 := rfl
  rw [← UInt8.toNat_inj, UInt8.toNat_add, UInt8.toNat_mul, h16, h0, ← hza, ← hzb]
  omega

/-- A text decodes to the empty string where it is empty or starts with an
encoded NUL. -/
theorem cstr_urlDecode_eq_nil {target : Bytes} (hnul : 0 ∉ target) :
    cstr (urlDecode target) = [] ↔ target = [] ∨ ascii "%00" <+: target := by
  have hplain : ∀ c : UInt8, c ≠ 0 → (if c = 43 then (32 : UInt8) else c) ≠ 0 := by
    intro c hc
    by_cases h : c = 43
    · rw [if_pos h]
      decide
    · rw [if_neg h]
      exact hc
  fun_cases urlDecode target with
  | case1 c a b src hesc =>
    obtain ⟨rfl, ha, hb⟩ := hesc
    rw [cstr_cons_eq_nil, escape_eq_zero ha hb]
    constructor
    · rintro ⟨rfl, rfl⟩
      exact .inr ⟨src, rfl⟩
    · rintro (hnil | ⟨t, ht⟩)
      · cases hnil
      · cases ht
        exact ⟨rfl, rfl⟩
  | case2 c a b src hesc =>
    have hc : c ≠ 0 := fun h => hnul (h ▸ List.mem_cons_self)
    rw [cstr_cons_eq_nil]
    refine iff_of_false (hplain c hc) ?_
    rintro (hnil | ⟨t, ht⟩)
    · cases hnil
    · cases ht
      exact hesc ⟨rfl, rfl, rfl⟩
  | case3 c src hshort =>
    have hc : c ≠ 0 := fun h => hnul (h ▸ List.mem_cons_self)
    rw [cstr_cons_eq_nil]
    refine iff_of_false (hplain c hc) ?_
    rintro (hnil | ⟨t, ht⟩)
    · cases hnil
    · cases ht
      exact hshort 48 48 t rfl
  | case4 => exact iff_of_true rfl (.inl rfl)

theorem nul_notMem_secondWord (header : Bytes) : 0 ∉ secondWord header := by
  intro h
  refine zero_notMem_cstr header ?_
  have hsub : (secondWord header).Sublist (cstr header) :=
    ((List.takeWhile_prefix _).sublist.trans (List.dropWhile_sublist _)).trans
      ((List.dropWhile_sublist _).trans (List.dropWhile_sublist _))
  exact hsub.subset h

theorem decodedPath_ne_nil {header : Bytes} :
    decodedPath header ≠ [] ↔ NamesPath (secondWord header) := by
  rw [decodedPath, Ne, cstr_urlDecode_eq_nil (nul_notMem_secondWord header), not_or]
  rfl

theorem length_decodedPath_lt {header : Bytes} (h : (secondWord header).length < 1024) :
    (decodedPath header).length < 1024 :=
  Nat.lt_of_le_of_lt ((length_cstr_le _).trans (length_urlDecode_le _)) h

/-! ## Faults behind the accesses -/

theorem bind_eq_error {α β : Type} {x : Except Fault α} {f : α → Except Fault β} {e : Fault} :
    (x >>= f) = .error e ↔ x = .error e ∨ ∃ a, x = .ok a ∧ f a = .error e := by
  cases x with
  | ok a =>
    refine ⟨fun h => .inr ⟨a, rfl, h⟩, ?_⟩
    rintro (h | ⟨b, hb, h⟩)
    · cases h
    · exact Except.ok.inj hb ▸ h
  | error e' =>
    constructor
    · intro h
      have h : (.error e' : Except Fault β) = .error e := h
      exact .inl (congrArg Except.error (Except.error.inj h))
    · rintro (h | ⟨b, hb, -⟩)
      · obtain rfl := Except.error.inj h
        rfl
      · cases hb

theorem Buffer.put_eq_error {buffer : Buffer} {text : Bytes} {e : Fault}
    (h : buffer.put text = .error e) : e = .overflow buffer := by
  rw [put] at h
  split at h
  · cases h
  · exact (Except.error.inj h).symm

theorem contentLoop_error (cuts : Nat → Nat) (length : Int) {e : Fault} :
    ∀ (n i read : Nat) (stream : Bytes), stream.length ≤ n →
      contentLoop cuts length i read stream = .error e → e.isAccess = false := by
  intro n
  induction n with
  | zero =>
    intro i read stream hn h
    have hnil : stream = [] := List.eq_nil_of_length_eq_zero (by omega)
    subst hnil
    unfold contentLoop at h
    split at h
    · have hrecv : (ByteStream.recv (cuts i) 1024 []).1 = [] := List.take_nil
      dsimp only at h
      rw [if_pos hrecv] at h
      cases h
    · cases h
  | succ n ih =>
    intro i read stream hn h
    have hadd := ByteStream.length_recv_add (cuts i) 1024 stream
    unfold contentLoop at h
    split at h
    · dsimp only at h
      split at h
      · cases h
      · rename_i hsome
        have hpos := List.length_pos_of_ne_nil hsome
        split at h
        · rcases bind_eq_error.mp h with h | ⟨_, _, h⟩
          · exact ih (i + 1) _ _ (by omega) h
          · cases h
        · cases h
          rfl
    · cases h

theorem verifyUpload_error {host : Host} {name fullpath path : Bytes} {e : Fault}
    (h : verifyUpload host name fullpath path = .error e) : e.isAccess = false := by
  unfold verifyUpload at h
  split at h
  · cases h
  · rcases bind_eq_error.mp h with h | ⟨_, _, h⟩
    · rw [Buffer.put_eq_error h]
      rfl
    · rw [Buffer.put_eq_error h]
      rfl

/-- Storing faults before the answer only where the boundary does not fit. -/
theorem storeUpload_error {host : Host} {cuts : Nat → Nat} {requestBody path name fullpath : Bytes}
    (hboundary : host.creates fullpath = true → (boundaryOf requestBody).length < 256)
    {read : Nat} {stream : Bytes} {e : Fault}
    (h : storeUpload host cuts requestBody path name fullpath read stream = .error e) :
    e.isAccess = false := by
  cases hcreates : host.creates fullpath with
  | false =>
    rw [storeUpload_refused cuts _ _ _ hcreates] at h
    cases h
  | true =>
    have hlt := hboundary hcreates
    cases hlength : contentLength requestBody with
    | none =>
      rw [storeUpload_noLength cuts _ _ hcreates hlt hlength] at h
      cases h
      rfl
    | some length =>
      rw [storeUpload_created cuts _ _ hcreates hlt hlength] at h
      rcases bind_eq_error.mp h with h | ⟨_, _, h⟩
      · exact contentLoop_error cuts length stream.length 0 read stream (Nat.le_refl _) h
      · rcases bind_eq_error.mp h with h | ⟨_, _, h⟩
        · exact verifyUpload_error h
        · cases h

/-- The icon is read into an array that has its length, when it has one. -/
theorem sendFavicon_survives_iff (host : Host) :
    (∀ e, sendFavicon host = .error e → e.isAccess = false) ↔
      ∀ f, host.fopen faviconName = some f → 0 ≤ toInt32 f.length := by
  rw [sendFavicon]
  cases host.fopen faviconName with
  | none =>
    refine iff_of_true (fun e h => ?_) fun f h => ?_
    · cases h
    · cases h
  | some f =>
    dsimp only
    by_cases hlt : toInt32 f.length < 0
    · rw [if_pos hlt]
      refine iff_of_false (fun h => absurd (h .allocation rfl) (by decide)) fun h => ?_
      have hle := h f rfl
      omega
    · rw [if_neg hlt]
      refine iff_of_true (fun e h => ?_) fun f' hf => ?_
      · rcases bind_eq_error.mp h with h | ⟨_, _, h⟩
        · rw [Buffer.put_eq_error h]
          rfl
        · cases h
      · obtain rfl := Option.some.inj hf
        exact Int.not_lt.mp hlt

theorem sendListing_survives_iff (host : Host) (path : Bytes) :
    (∀ e, sendListing host path = .error e → e.isAccess = false) ↔
      pageSize path (host.scandir path) < intMax := by
  by_cases hsize : pageSize path (host.scandir path) < intMax
  · obtain ⟨html, -, hsend⟩ := sendListing_ok hsize
    rw [hsend]
    exact iff_of_true nofun hsize
  · rw [sendListing_error hsize]
    exact iff_of_false (fun h => absurd (h .pageLength rfl) (by decide)) hsize

theorem downloadLoop_error {len : Int} {e : Fault} (freads : List Bytes) :
    ∀ read, downloadLoop len read freads = .error e → e.isAccess = false := by
  induction freads with
  | nil =>
    intro read h
    rw [downloadLoop] at h
    split at h
    · cases h
      rfl
    · cases h
  | cons data more ih =>
    intro read h
    rw [downloadLoop] at h
    split at h
    · split at h
      · rcases bind_eq_error.mp h with h | ⟨_, _, h⟩
        · exact ih _ h
        · cases h
      · cases h
        rfl
    · cases h

theorem sendFile_error {host : Host} {path : Bytes} {e : Fault}
    (h : sendFile host path = .error e) : e.isAccess = false := by
  unfold sendFile at h
  split at h
  · cases h
  · rcases bind_eq_error.mp h with h | ⟨_, _, h⟩
    · rw [Buffer.put_eq_error h]
      rfl
    · rcases bind_eq_error.mp h with h | ⟨_, _, h⟩
      · exact downloadLoop_error _ 0 h
      · cases h

/-- A GET is served without an access out of range when there is a path and
what is shown has a length. -/
theorem serveGet_survives_iff {host : Host} {path : Bytes} (hnul : 0 ∉ path) :
    (∀ e, serveGet host path = .error e → e.isAccess = false) ↔
      path ≠ [] ∧ GetInRange host path := by
  have hfound : (strstr path faviconName).isSome ↔ faviconName <:+: path := by
    rw [strstr, cstr_eq_self hnul, find_isSome_iff]
  rw [serveGet]
  by_cases hicon : faviconName <:+: path
  · rw [if_pos (hfound.mpr hicon), sendFavicon_survives_iff]
    constructor
    · intro h
      refine ⟨?_, fun _ => h, fun hnot => absurd hicon hnot⟩
      rintro rfl
      exact absurd hicon (by decide)
    · intro h
      exact h.2.icon hicon
  · rw [if_neg fun h => hicon (hfound.mp h)]
    by_cases hne : path = []
    · rw [hne]
      exact iff_of_false (fun h => absurd (h .emptyPath rfl) (by decide)) fun h => h.1 rfl
    · rw [List.getLast?_eq_some_getLast hne]
      dsimp only
      by_cases hmark : path.getLast hne = 63
      · rw [if_neg (not_not.mpr hmark)]
        refine iff_of_true (fun e h => sendFile_error h) ⟨hne, fun h => absurd h hicon, ?_⟩
        intro _ hlast
        rw [List.getLast?_eq_some_getLast hne, hmark] at hlast
        exact absurd rfl hlast
      · rw [if_pos hmark, sendListing_survives_iff]
        constructor
        · intro h
          exact ⟨hne, fun h => absurd h hicon, fun _ _ => h⟩
        · intro h
          refine h.2.page hicon ?_
          rw [List.getLast?_eq_some_getLast hne]
          exact fun h => hmark (Option.some.inj h)

/-! ## The requests that are survived -/

/-- An upload that is not in range faults. -/
theorem servePost_named_survives_iff (host : Host) (cuts : Nat → Nat) {header part name : Bytes}
    (htarget : (secondWord header).length < 1024) (hpart : IsHeader part)
    (hlen : part.length ≤ intMax) (hname : partName part = some name) (rest : Bytes) :
    (∀ e, servePost host cuts header (decodedPath header) (part ++ rest) = .error e →
        e.isAccess = false) ↔ UploadInRange host header name := by
  constructor
  · intro h
    have hlt : name.length < 1024 := by
      by_contra hlong
      exact absurd (h _ (servePost_longName host cuts header _ hpart hlen hname hlong rest))
        (by decide)
    have hne : decodedPath header ≠ [] := by
      intro hnil
      rw [hnil] at h
      exact absurd (h _ (servePost_emptyPath host cuts header hpart hlen hname hlt rest))
        (by decide)
    refine ⟨hlt, decodedPath_ne_nil.mp hne, fun hcreates => ?_⟩
    by_contra hlong
    have hstore := servePost_store host cuts header hpart hlen hname hlt hne
      (length_decodedPath_lt htarget) rest
    rw [hstore] at h
    exact absurd (h _ (storeUpload_boundary cuts _ _ hcreates hlong _ _)) (by decide)
  · intro h e herror
    have hstore := servePost_store host cuts header hpart hlen hname h.name_lt
      (decodedPath_ne_nil.mpr h.namesPath) (length_decodedPath_lt htarget) rest
    rw [hstore] at herror
    exact storeUpload_error h.boundary_lt herror

/-- Of a part header that is counted only the name is in question. -/
theorem servePost_part_survives_iff (host : Host) (cuts : Nat → Nat) {header part : Bytes}
    (htarget : (secondWord header).length < 1024) (hpart : IsHeader part)
    (hlen : part.length ≤ intMax) (rest : Bytes) :
    (∀ e, servePost host cuts header (decodedPath header) (part ++ rest) = .error e →
        e.isAccess = false) ↔
      ∀ name, partName part = some name → UploadInRange host header name := by
  cases hname : partName part with
  | none =>
    obtain ⟨error, hpost⟩ :=
      servePost_unnamed host cuts header (decodedPath header) hpart hlen hname
      rest
    rw [hpost]
    exact iff_of_true nofun nofun
  | some name =>
    rw [servePost_named_survives_iff host cuts htarget hpart hlen hname rest]
    constructor
    · intro h name' heq
      exact Option.some.inj heq ▸ h
    · intro h
      exact h name rfl

theorem servePost_survives_iff (host : Host) (cuts : Nat → Nat) {header : Bytes}
    (htarget : (secondWord header).length < 1024) (body : Bytes) :
    (∀ e, servePost host cuts header (decodedPath header) body = .error e → e.isAccess = false) ↔
      PostInRange host header body := by
  by_cases hne : body = []
  · rw [hne, servePost_nil]
    exact iff_of_false (fun h => absurd (h _ rfl) (by decide)) fun h => h.body_ne rfl
  · rcases headless_or body with ⟨part, rest, rfl, hpart⟩ | hbody
    · by_cases hlen : part.length ≤ intMax
      · rw [servePost_part_survives_iff host cuts htarget hpart hlen rest]
        constructor
        · intro h
          refine ⟨hne, fun hnone => absurd hpart (hnone part rest rfl),
            fun part' rest' heq hpart' => ?_, fun part' rest' name heq hpart' hname => ?_⟩
          · obtain ⟨rfl, -⟩ := hpart.unique hpart' heq
            exact hlen
          · obtain ⟨rfl, -⟩ := hpart.unique hpart' heq
            exact h name hname
        · intro h name hname
          exact h.upload part rest name rfl hpart hname
      · have hlong : ¬ (readHeader [] (part ++ rest)).1.length ≤ intMax := by
          rw [hpart.readHeader_eq]
          exact hlen
        rw [servePost_long host cuts header _ hlong]
        exact iff_of_false (fun h => absurd (h _ rfl) (by decide))
          fun h => hlen (h.part_le part rest rfl hpart)
    · by_cases hlen : body.length ≤ intMax
      · rw [servePost_headless host cuts header _ hne hbody hlen]
        refine iff_of_true nofun ⟨hne, fun _ => hlen, fun part rest heq hpart => ?_,
          fun part rest name heq hpart => ?_⟩
        · exact absurd hpart (hbody part rest heq)
        · exact absurd hpart (hbody part rest heq)
      · have hlong : ¬ (readHeader [] body).1.length ≤ intMax := by
          rw [hbody.readHeader_eq.1]
          exact hlen
        rw [servePost_long host cuts header _ hlong]
        exact iff_of_false (fun h => absurd (h _ rfl) (by decide))
          fun h => hlen (h.headless_le hbody)

/-- Of the words that fit, the path of a GET and what follows a POST decide. -/
theorem clientThread_words_survives_iff (host : Host) (cuts : Nat → Nat) {header : Bytes}
    (h : IsHeader header) (hlen : header.length ≤ intMax) (hmethod : (firstWord header).length < 8)
    (htarget : (secondWord header).length < 1024) (body : Bytes) :
    Survives host cuts (header ++ body) ↔ InRange host header body := by
  rw [Survives, clientThread_header host cuts h hlen body, requestLine_words hmethod htarget]
  show (∀ e, (if firstWord header = ascii "GET" then _ else _) = _ → _) ↔ _
  by_cases hget : firstWord header = ascii "GET"
  · have hclean := zero_notMem_cstr (urlDecode (secondWord header))
    have hserve := @serveGet_survives_iff host _ hclean
    rw [← decodedPath, decodedPath_ne_nil] at hserve
    rw [if_pos hget]
    constructor
    · intro hsafe
      refine ⟨hlen, hmethod, htarget, fun _ => hserve.mp fun e herror => ?_, fun hpost => ?_⟩
      · exact hsafe e (bind_eq_error.mpr (.inl herror))
      · exact absurd (hget.symm.trans hpost) (by decide)
    · intro hrange e herror
      rcases bind_eq_error.mp herror with herror | ⟨_, _, herror⟩
      · exact hserve.mpr (hrange.get hget) e herror
      · cases herror
  · rw [if_neg hget]
    by_cases hpost : firstWord header = ascii "POST"
    · rw [if_pos hpost]
      constructor
      · intro hsafe
        exact ⟨hlen, hmethod, htarget, fun h => absurd h hget,
          fun _ => (servePost_survives_iff host cuts htarget body).mp hsafe⟩
      · intro hrange
        exact (servePost_survives_iff host cuts htarget body).mpr (hrange.post hpost)
    · rw [if_neg hpost]
      refine iff_of_true nofun ⟨hlen, hmethod, htarget, fun h => absurd h hget, fun h => ?_⟩
      exact absurd h hpost

theorem clientThread_survives_iff (host : Host) (cuts : Nat → Nat) {header : Bytes}
    (h : IsHeader header) (body : Bytes) :
    Survives host cuts (header ++ body) ↔ InRange host header body := by
  by_cases hlen : header.length ≤ intMax
  · by_cases hmethod : (firstWord header).length < 8
    · by_cases htarget : (secondWord header).length < 1024
      · exact clientThread_words_survives_iff host cuts h hlen hmethod htarget body
      · rw [Survives, clientThread_header host cuts h hlen body, requestLine_target hmethod htarget]
        exact iff_of_false (fun hsafe => absurd (hsafe (.overflow .path) rfl) (by decide))
          fun hrange => htarget hrange.target_lt
    · rw [Survives, clientThread_header host cuts h hlen body, requestLine_method hmethod]
      exact iff_of_false (fun hsafe => absurd (hsafe (.overflow .method) rfl) (by decide))
        fun hrange => hmethod hrange.method_lt
  · rw [Survives, clientThread_longHeader host cuts h hlen body]
    exact iff_of_false (fun hsafe => absurd (hsafe .headerLength rfl) (by decide))
      fun hrange => hlen hrange.header_le

/-- The handler survives a stream when the request that is complete in it stays in
range, and when a stream without one is counted to its end. -/
theorem survives_iff (host : Host) (cuts : Nat → Nat) (stream : Bytes) :
    Survives host cuts stream ↔ (Headless stream → stream.length ≤ intMax) ∧
      ∀ header body, stream = header ++ body → IsHeader header → InRange host header body := by
  rcases headless_or stream with ⟨header, body, rfl, hheader⟩ | hnone
  · rw [clientThread_survives_iff host cuts hheader body]
    constructor
    · intro hrange
      refine ⟨fun hnone => absurd hheader (hnone header body rfl), ?_⟩
      intro header' body' heq hheader'
      obtain ⟨rfl, rfl⟩ := hheader.unique hheader' heq
      exact hrange
    · intro h
      exact h.2 header body rfl hheader
  · by_cases hlen : stream.length ≤ intMax
    · rw [Survives, clientThread_headless host cuts hnone hlen]
      exact iff_of_true nofun
        ⟨fun _ => hlen, fun header body heq hheader => absurd hheader (hnone header body heq)⟩
    · have hlong : ¬ (readHeader [] stream).1.length ≤ intMax := by
        rw [hnone.readHeader_eq.1]
        exact hlen
      rw [Survives, clientThread_long host cuts hlong]
      exact iff_of_false (fun hsafe => absurd (hsafe .headerLength rfl) (by decide))
        fun h => hlen (h.1 hnone)

/-- A request whose target is an encoded NUL. -/
def emptyTarget : Bytes := ascii "GET %00 HTTP/1.1\r\n\r\n"

theorem emptyTarget_not_survived :
    ¬ ∀ (host : Host) (cuts : Nat → Nat) (stream : Bytes), Survives host cuts stream := by
  intro h
  have host : Host :=
    { scandir := fun _ => [], fopen := fun _ => none, creates := fun _ => true,
      verify := fun _ => none }
  have hheader : IsHeader emptyTarget := by decide +kernel
  have hrange := (clientThread_survives_iff host (fun _ => 1024) hheader []).mp
    (h host (fun _ => 1024) _)
  have hword : firstWord emptyTarget = ascii "GET" ∧ secondWord emptyTarget = ascii "%00" := by
    decide +kernel
  have hpath := (hrange.get hword.1).1.2
  rw [hword.2] at hpath
  exact hpath List.prefix_rfl

end Np20
end NetLab
