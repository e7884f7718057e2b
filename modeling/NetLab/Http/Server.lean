import Mathlib.Algebra.Order.BigOperators.Group.List
import NetLab.Http.Response
import NetLab.Library.ByteStream
import NetLab.Library.Handover

/-!
# The multithreaded server

`handle_client` answers one request: it reads once, and sends the icon or the
page of the directory.  `main` gives every connection a thread of its own.
-/

namespace NetLab
namespace Http

open CString Message Handover ByteStream Transition Cursor

/-! ## The icon -/

/-- The array `favicon`.  One of its initialisers, `0x4169`, is reduced to a byte. -/
def favicon : Bytes := [
  0x00, 0x00, 0x01, 0x00, 0x01, 0x00, 0x10, 0x10, 0x00, 0x00, 0x01, 0x00,
  0x18, 0x00, 0x68, 0x03, 0x00, 0x00, 0x16, 0x00, 0x00, 0x00, 0x28, 0x00,
  0x00, 0x00, 0x10, 0x00, 0x00, 0x00, 0x20, 0x00, 0x00, 0x00, 0x01, 0x00,
  0x18, 0x00, 0x00, 0x00, 0x00, 0x00, 0x00, 0x03, 0x00, 0x00, 0x00, 0x00,
  0x00, 0x00, 0x00, 0x00, 0x00, 0x00, 0x00, 0x00, 0x00, 0x00, 0x00, 0x00,
  0x00, 0x00, 0xFF, 0xFF, 0xFF, 0xFF, 0xFF, 0xFF, 0xFF, 0xFF, 0xFF, 0xFF,
  0xFF, 0xFF, 0xFF, 0xFF, 0xFF, (0x4169 : Nat).toUInt8, 0xE1, 0x41, 0x69, 0xE1, 0x41, 0x69,
  0xE1, 0xFF, 0xFF, 0xFF, 0xFF, 0xFF, 0xFF, 0xFF, 0xFF, 0xFF, 0xFF, 0xFF,
  0xFF, 0xFF, 0xFF, 0xFF, 0x00, 0x00, 0x00, 0x00, 0x00, 0x00, 0x00, 0x00]

/-- The header before the icon. -/
def faviconHeader : Bytes :=
  ascii "HTTP/1.1 200 OK\r\n" ++ ascii "Content-Type: image/x-icon\r\n" ++
    ascii "Content-Length: " ++ decimal favicon.length ++ ascii "\r\n" ++
    ascii "Connection: close\r\n" ++ ascii "\r\n"

/-- The two calls of `send` in `send_favicon`. -/
def sendFavicon : List Bytes := [faviconHeader, favicon]

/-! ## One request -/

/-- `sizeof(method)`. -/
def methodSize : Nat := 16

/-- `sizeof(path)`. -/
def pathSize : Nat := 512

/-- `sscanf(buffer, "%s %s", method, path)`: the two words, `none` where one of
the arrays is left as it was or written past its end. -/
def scanRequest (buffer : Bytes) : Option (Bytes × Bytes) :=
  let (method, rest) := scanToken buffer
  let (path, _) := scanToken rest
  if method = [] ∨ path = [] ∨ methodSize ≤ method.length ∨ pathSize ≤ path.length then none
  else some (method, path)

/-- What is sent for a request of which `recv` returned these bytes, at least one.
The directory is searched at that moment, and `htmlContent` is the array before the
page is written to it.  `none` where the behaviour is not defined. -/
def handleRequest (received : Bytes) (search : Option Found) (htmlContent : Bytes) :
    Option (List Bytes) :=
  (scanRequest (cstr received)).bind fun request =>
    if strcmp request.2 (ascii "/favicon.ico") = 0 then some sendFavicon
    else (sendPage search htmlContent).map fun response => [response]

/-! ## Which requests are answered -/

/-- The page is written inside its array exactly if all but its last lines fit. -/
theorem scanDirectory_defined_iff {search : Option Found} {htmlContent : Bytes}
    (hlen : htmlContent.length = bufferSize.toNat) :
    (∃ page, scanDirectory search bufferSize htmlContent = some page) ↔
      bytesBeforeEnd search ≤ bufferSize.toNat := by
  constructor
  · rintro ⟨page, hpage⟩
    by_contra hover
    cases search with
    | none => exact hover (Nat.zero_le _)
    | some found =>
      have hsum : ((listed found.all).map lineLength).sum ≤
          ((listed found.all).map lineLength).length * 822 := by
        have hle := List.sum_le_card_nsmul ((listed found.all).map lineLength) 822 fun n hn => by
          obtain ⟨f, -, rfl⟩ := List.mem_map.mp hn
          exact lineLength_le f
        rwa [nsmul_eq_mul, Nat.cast_id] at hle
      have hcount : (listed found.all).length ≤ 1024 := List.length_take_le _ _
      rw [List.length_map] at hsum
      have htotal := length_pageTexts found
      rw [bytesBeforeEnd] at htotal hover
      have hsize : bufferSize.toNat = 8192 := rfl
      have hpast : bufferSize.toNat <
          (start bufferSize).offset + (pageTexts found).flatten.length := by
        rw [offset_start, htotal]
        omega
      have hsmall : (start bufferSize).offset + (pageTexts found).flatten.length < 2 ^ 64 := by
        rw [offset_start, htotal]
        omega
      have hnone := perform_calls_none (inside_start bufferSize) hlen hpast hsmall pageEnd
        ((start bufferSize).past (pageTexts found))
      rw [scanDirectory, scanCalls, hnone] at hpage
      cases hpage
  · intro hfit
    obtain ⟨page, hpage, -⟩ := scanDirectory_page hlen (by decide) hfit
    exact ⟨page, hpage⟩

theorem scanRequest_eq_some_iff {buffer method path : Bytes} :
    scanRequest buffer = some (method, path) ↔
      TwoWords buffer method path ∧ method.length < methodSize ∧ path.length < pathSize := by
  rw [scanRequest]
  dsimp only
  rw [Option.ite_none_left_eq_some, Option.some.injEq, Prod.mk.injEq]
  simp only [not_or, not_le]
  constructor
  · rintro ⟨⟨hmethod, hpath, hshort, hshort'⟩, rfl, rfl⟩
    exact ⟨(scanToken_twice_iff hmethod hpath).mp ⟨rfl, rfl⟩, hshort, hshort'⟩
  · rintro ⟨hwords, hshort, hshort'⟩
    have hne := hwords
    obtain ⟨gap, gap', rest, -, -, -, -, ⟨hmethod, -⟩, ⟨hpath, -⟩, -⟩ := hne
    obtain ⟨rfl, rfl⟩ := (scanToken_twice_iff hmethod hpath).mpr hwords
    exact ⟨⟨hmethod, hpath, hshort, hshort'⟩, rfl, rfl⟩

theorem strcmp_eq_zero_iff {s t : Bytes} : strcmp s t = 0 ↔ s = t :=
  ⟨eq_of_strcmp_eq_zero, fun h => h ▸ strcmp_self s⟩

/-- The behaviour of `handle_client` on a request is defined exactly when the
request starts with two words that fit their arrays, and the page, if it is asked
for, fits its own but for its last lines.  Where `recv` gives nothing, there is no
request, and the thread only closes its descriptor. -/
theorem handleRequest_defined_iff (received : Bytes) (search : Option Found) {htmlContent : Bytes}
    (hlen : htmlContent.length = bufferSize.toNat) :
    (∃ texts, handleRequest received search htmlContent = some texts) ↔
      ∃ method path, TwoWords (cstr received) method path ∧ method.length < methodSize ∧
        path.length < pathSize ∧
        (path = ascii "/favicon.ico" ∨ bytesBeforeEnd search ≤ bufferSize.toNat) := by
  constructor
  · rintro ⟨texts, h⟩
    obtain ⟨⟨method, path⟩, hrequest, htexts⟩ := Option.bind_eq_some_iff.mp h
    obtain ⟨hwords, hshort, hshort'⟩ := scanRequest_eq_some_iff.mp hrequest
    refine ⟨method, path, hwords, hshort, hshort', ?_⟩
    by_cases hicon : path = ascii "/favicon.ico"
    · exact .inl hicon
    · rw [if_neg (mt strcmp_eq_zero_iff.mp hicon)] at htexts
      obtain ⟨response, hresponse, -⟩ := Option.map_eq_some_iff.mp htexts
      obtain ⟨page, hpage, -⟩ := Option.map_eq_some_iff.mp hresponse
      exact .inr ((scanDirectory_defined_iff hlen).mp ⟨page, hpage⟩)
  · rintro ⟨method, path, hwords, hshort, hshort', hanswer⟩
    rw [handleRequest, scanRequest_eq_some_iff.mpr ⟨hwords, hshort, hshort'⟩, Option.bind_some]
    dsimp only
    by_cases hicon : path = ascii "/favicon.ico"
    · exact ⟨_, if_pos (strcmp_eq_zero_iff.mpr hicon)⟩
    · obtain ⟨page, hpage⟩ := (scanDirectory_defined_iff hlen).mpr (hanswer.resolve_left hicon)
      rw [if_neg (mt strcmp_eq_zero_iff.mp hicon), sendPage, hpage]
      exact ⟨_, rfl⟩

theorem handleRequest_defined_iff_root :
    ∃ texts, handleRequest (ascii "GET / HTTP/1.1") none (List.replicate 8192 0) = some texts := by
  have hwords : TwoWords (cstr (ascii "GET / HTTP/1.1")) (ascii "GET") (ascii "/") :=
    (scanToken_twice_iff (by decide +kernel) (by decide +kernel)).mp (by decide +kernel)
  exact (handleRequest_defined_iff (ascii "GET / HTTP/1.1") none List.length_replicate).mpr
    ⟨ascii "GET", ascii "/", hwords, by decide +kernel, by decide +kernel, .inr (Nat.zero_le _)⟩

theorem framed_favicon : Framed sendFavicon.flatten favicon := by
  have hhead : IsHead faviconHeader := by
    rw [IsHead]
    decide +kernel
  have hlength : announced faviconHeader = some (favicon.length : Int) := by decide +kernel
  refine ⟨faviconHeader, ?_, hhead, hlength⟩
  rw [sendFavicon, List.flatten_cons, List.flatten_singleton]

/-- The icon is sent as one message, and so is a page that fits behind its
header. -/
theorem handleRequest_framed {received : Bytes} {search : Option Found} {htmlContent : Bytes}
    {texts : List Bytes} (hlen : htmlContent.length = bufferSize.toNat)
    (h : handleRequest received search htmlContent = some texts) :
    ∃ method path, TwoWords (cstr received) method path ∧
      (path = ascii "/favicon.ico" → Framed texts.flatten favicon) ∧
      (path ≠ ascii "/favicon.ico" →
        (Framed texts.flatten (pageText search) ↔ (pageText search).length ≤ maxPage)) := by
  obtain ⟨⟨method, path⟩, hrequest, htexts⟩ := Option.bind_eq_some_iff.mp h
  refine ⟨method, path, (scanRequest_eq_some_iff.mp hrequest).1, fun hicon => ?_, fun hicon => ?_⟩
  · rw [if_pos (strcmp_eq_zero_iff.mpr hicon), Option.some.injEq] at htexts
    exact htexts ▸ framed_favicon
  · rw [if_neg (mt strcmp_eq_zero_iff.mp hicon)] at htexts
    obtain ⟨response, hresponse, rfl⟩ := Option.map_eq_some_iff.mp htexts
    obtain ⟨page, hpage, -⟩ := Option.map_eq_some_iff.mp hresponse
    have hfit := (scanDirectory_defined_iff hlen).mp ⟨page, hpage⟩
    obtain ⟨response', hresponse', hframed⟩ := sendPage_framed_iff hlen hfit
    obtain rfl := Option.some.inj (hresponse.symm.trans hresponse')
    rwa [List.flatten_singleton]

theorem length_text_lt {received : Bytes} {search : Option Found} {htmlContent : Bytes}
    {texts : List Bytes} (h : handleRequest received search htmlContent = some texts) :
    ∀ text ∈ texts, text.length < bufferSize.toNat := by
  have hsize : bufferSize.toNat = 8192 := rfl
  obtain ⟨request, -, htexts⟩ := Option.bind_eq_some_iff.mp h
  by_cases hicon : strcmp request.2 (ascii "/favicon.ico") = 0
  · rw [if_pos hicon, Option.some.injEq] at htexts
    subst htexts
    decide +kernel
  · rw [if_neg hicon] at htexts
    obtain ⟨response, hresponse, rfl⟩ := Option.map_eq_some_iff.mp htexts
    obtain ⟨page, -, rfl⟩ := Option.map_eq_some_iff.mp hresponse
    rw [List.forall_mem_singleton, hsize]
    exact Nat.lt_succ_of_le (length_sendResponse_le page)

/-! ## A thread -/

/-- What the client will send, and what it has been sent. -/
structure Connection where
  incoming : Bytes
  outgoing : Bytes
  deriving DecidableEq, Repr

/-- Where `handle_client` stands: before `recv`, or with texts left to send. -/
inductive ClientPc
  | receiving
  | sending (texts : List Bytes)
  deriving DecidableEq, Repr

/-- The choices of the network and the host: how much `recv` returns and what a
search of the directory finds then, that `recv` reports the end or an error, and
how much of a text `send` takes. -/
inductive ClientLabel
  | recv (cut : Nat) (search : Option Found) (htmlContent : Bytes)
  | recvEnds
  | send (taken : Nat)

/-- One step of `handle_client`.  The result of `send` is not looked at. -/
def clientStep (s : ClientPc × Connection) : ClientLabel → Option (ClientPc × Connection)
  | .recv cut search htmlContent =>
    match s.1 with
    | .receiving =>
      let (received, rest) := recv cut (bufferSize.toNat - 1) s.2.incoming
      if received = [] then none
      else (handleRequest received search htmlContent).map fun texts =>
        (.sending texts, { s.2 with incoming := rest })
    | .sending _ => none
  | .recvEnds =>
    match s.1 with
    | .receiving => some (.sending [], s.2)
    | .sending _ => none
  | .send taken =>
    match s.1 with
    | .sending (text :: texts) =>
      some (.sending texts, { s.2 with outgoing := s.2.outgoing ++ text.take taken })
    | _ => none

def handleClient : Worker ClientPc Connection ClientLabel where
  start := .receiving
  step := clientStep
  done pc := pc = .sending []

/-- The server with all its threads. -/
def httpServer : System (State ClientPc Connection) (Action Connection ClientLabel) :=
  server handleClient

/-! ## What a finished thread has done -/

theorem run_sending {texts : List Bytes} {k k' : Connection} {ls : List ClientLabel}
    (k₀ : Connection)
    (h : (handleClient.alone k₀).run (.sending texts, k) ls = some (.sending [], k')) :
    ∃ taken, ls = taken.map .send ∧ taken.length = texts.length ∧ k' = { k with
      outgoing := k.outgoing ++
        (List.zipWith (fun text n => text.take n) texts taken).flatten } := by
  induction texts generalizing k ls with
  | nil =>
    cases ls with
    | nil =>
      obtain ⟨-, rfl⟩ := Prod.mk.inj (Option.some.inj h)
      exact ⟨[], rfl, rfl, by simp⟩
    | cons l ls =>
      cases l with
      | _ => cases h
  | cons text texts ih =>
    cases ls with
    | nil => cases h
    | cons l ls =>
      cases l with
      | recv cut search htmlContent => cases h
      | recvEnds => cases h
      | send n =>
        obtain ⟨taken, rfl, hlen, rfl⟩ := ih h
        refine ⟨n :: taken, rfl, congrArg Nat.succ hlen, ?_⟩
        simp only [List.zipWith_cons_cons, List.flatten_cons, List.append_assoc]

/-- Alone on its connection, a thread reads nothing, or reads once and sends the
answer to what it read. -/
theorem run_client {k k' : Connection} {ls : List ClientLabel}
    (h : (handleClient.alone k).run (.receiving, k) ls = some (.sending [], k')) :
    (ls = [.recvEnds] ∧ k' = k) ∨
    ∃ cut search htmlContent taken texts,
      ls = .recv cut search htmlContent :: taken.map .send ∧ taken.length = texts.length ∧
      (recv cut (bufferSize.toNat - 1) k.incoming).1 ≠ [] ∧
      handleRequest (recv cut (bufferSize.toNat - 1) k.incoming).1 search htmlContent = some texts ∧
      k' = { incoming := (recv cut (bufferSize.toNat - 1) k.incoming).2
             outgoing := k.outgoing ++
               (List.zipWith (fun text n => text.take n) texts taken).flatten } := by
  cases ls with
  | nil => cases h
  | cons l ls =>
    cases l with
    | send n => cases h
    | recvEnds =>
      have hrest : (handleClient.alone k).run (.sending [], k) ls = some (.sending [], k') := h
      obtain ⟨taken, rfl, hlen, rfl⟩ := run_sending k hrest
      obtain rfl := List.eq_nil_of_length_eq_zero hlen
      exact .inl ⟨rfl, by simp⟩
    | recv cut search htmlContent =>
      rw [System.run, Option.bind_eq_some_iff] at h
      obtain ⟨next, hstep, hrest⟩ := h
      change clientStep (.receiving, k) (.recv cut search htmlContent) = some next at hstep
      simp only [clientStep, Option.ite_none_left_eq_some, Option.map_eq_some_iff] at hstep
      obtain ⟨hne, texts, htexts, rfl⟩ := hstep
      obtain ⟨taken, rfl, hlen, rfl⟩ := run_sending k hrest
      exact .inr ⟨cut, search, htmlContent, taken, texts, rfl, hlen, hne, htexts, rfl⟩

/-- Whatever the other connections do and however their threads interleave, a
connection whose thread has finished was answered as if it had been the only one:
nothing was read, or what one `recv` returned was answered, each text as far as
its `send` took it.  No descriptor is open for it any more. -/
theorem finished_answer {as : List (Action Connection ClientLabel)}
    {s : State ClientPc Connection} (h : httpServer.run Handover.start as = some s) {c : Nat}
    {pc : ClientPc} (hfin : s.threads c = some (.finished pc)) :
    (∀ fd, s.fds fd ≠ some c) ∧ ∃ k k', s.opened[c]? = some k ∧ s.conns c = some k' ∧
      ((labels c as = [.recvEnds] ∧ k' = k) ∨
      ∃ cut search htmlContent taken texts,
        labels c as = .recv cut search htmlContent :: taken.map .send ∧
        taken.length = texts.length ∧
        (recv cut (bufferSize.toNat - 1) k.incoming).1 ≠ [] ∧
        handleRequest (recv cut (bufferSize.toNat - 1) k.incoming).1 search htmlContent =
          some texts ∧
        k' = { incoming := (recv cut (bufferSize.toNat - 1) k.incoming).2
               outgoing := k.outgoing ++
                 (List.zipWith (fun text n => text.take n) texts taken).flatten }) := by
  obtain ⟨hown, hsolo⟩ := run_solo h
  have hlt := hown.threads c _ hfin
  obtain ⟨k', hk', hrun⟩ := (hsolo c).ran s.opened[c] (List.getElem?_eq_getElem hlt)
  have hdone : pc = .sending [] := of_decide_eq_true ((hsolo c).done pc hfin)
  rw [hfin, hdone] at hrun
  exact ⟨fun fd => hown.finished c fd pc hfin, s.opened[c], k', List.getElem?_eq_getElem hlt, hk',
    run_client hrun⟩

/-- A second client is accepted before the first is answered, and has not sent
anything yet when the first is done. -/
theorem finished_answer_icon :
    ∃ s, httpServer.run Handover.start [.accept 4 ⟨ascii "GET /favicon.ico HTTP/1.1\r\n", []⟩,
        .malloc 100, .spawn, .accept 5 ⟨[], []⟩, .take 0, .malloc 100,
        .act 0 (.recv 512 none []), .act 0 (.send 256), .spawn, .act 0 (.send 256),
        .close 0] = some s ∧
      (∀ fd, s.fds fd ≠ some 0) ∧ ∃ k, s.conns 0 = some k ∧
        k.outgoing = faviconHeader ++ favicon := by
  obtain ⟨s, hrun, hstate⟩ := Option.map_eq_some_iff.mp (show
    (httpServer.run Handover.start [.accept 4 ⟨ascii "GET /favicon.ico HTTP/1.1\r\n", []⟩,
      .malloc 100, .spawn, .accept 5 ⟨[], []⟩, .take 0, .malloc 100,
      .act 0 (.recv 512 none []), .act 0 (.send 256), .spawn, .act 0 (.send 256), .close 0]).map
        (fun s => (s.threads 0, s.conns 0)) =
      some (some (.finished (.sending [])), some ⟨[], faviconHeader ++ favicon⟩) by
        decide +kernel)
  obtain ⟨hfin, hconn⟩ := Prod.mk.inj hstate
  exact ⟨s, hrun, (finished_answer hrun hfin).1, _, hconn, rfl⟩

/-! ## Where `send` takes everything -/

/-- Each `send` takes its text whole. -/
def SentWhole (texts : List Bytes) (ls : List ClientLabel) : Prop :=
  ∀ p ∈ texts.zip ls, ∀ n, p.2 = .send n → p.1.length ≤ n

theorem zipWith_take_eq {texts : List Bytes} {taken : List Nat}
    (hlen : taken.length = texts.length) (h : SentWhole texts (taken.map .send)) :
    List.zipWith (fun text m => text.take m) texts taken = texts := by
  induction texts generalizing taken with
  | nil => rfl
  | cons text texts ih =>
    cases taken with
    | nil => cases hlen
    | cons m taken =>
      have hfirst : text.length ≤ m := h (text, .send m) List.mem_cons_self m rfl
      have hlater : SentWhole texts (taken.map .send) := fun p hp =>
        h p (List.mem_cons_of_mem _ hp)
      rw [List.zipWith_cons_cons, List.take_of_length_le hfirst, ih (Nat.succ.inj hlen) hlater]

/-- A `send` that takes the size of the buffer takes any answer whole. -/
theorem sentWhole_of_le {received : Bytes} {search : Option Found} {htmlContent : Bytes}
    {texts : List Bytes} (h : handleRequest received search htmlContent = some texts)
    {ls : List ClientLabel} (hle : ∀ n, .send n ∈ ls → bufferSize.toNat ≤ n) :
    SentWhole texts ls := by
  rintro ⟨text, l⟩ hp n rfl
  obtain ⟨htext, hl⟩ := List.of_mem_zip hp
  exact Nat.le_of_lt (Nat.lt_of_lt_of_le (length_text_lt h text htext) (hle n hl))

/-- A connection whose thread has read something, has finished and whose texts
were taken whole by `send` was sent the answer. -/
theorem run_answers {as : List (Action Connection ClientLabel)}
    {s : State ClientPc Connection} (h : httpServer.run Handover.start as = some s) {c : Nat}
    {pc : ClientPc} (hfin : s.threads c = some (.finished pc)) {cut : Nat} {search : Option Found}
    {htmlContent : Bytes} {rest : List ClientLabel}
    (hread : labels c as = .recv cut search htmlContent :: rest)
    (hwhole : ∀ k texts, s.opened[c]? = some k →
      handleRequest (recv cut (bufferSize.toNat - 1) k.incoming).1 search htmlContent =
        some texts → SentWhole texts rest) :
    ∃ k k' texts, s.opened[c]? = some k ∧ s.conns c = some k' ∧
      handleRequest (recv cut (bufferSize.toNat - 1) k.incoming).1 search htmlContent =
        some texts ∧ k'.outgoing = k.outgoing ++ texts.flatten := by
  obtain ⟨hown, hsolo⟩ := run_solo h
  have hlt := hown.threads c _ hfin
  obtain ⟨k', hk', hrun⟩ := (hsolo c).ran s.opened[c] (List.getElem?_eq_getElem hlt)
  have hdone : pc = .sending [] := of_decide_eq_true ((hsolo c).done pc hfin)
  rw [hfin, hdone] at hrun
  rcases run_client hrun with ⟨hends, -⟩ | ⟨cut', search', html', taken, texts, hls, htaken, -,
    htexts, rfl⟩
  · rw [hread] at hends
    cases hends
  · rw [hread] at hls
    obtain ⟨hfirst, rfl⟩ := List.cons.inj hls
    obtain ⟨rfl, rfl, rfl⟩ := ClientLabel.recv.inj hfirst
    refine ⟨s.opened[c], _, texts, List.getElem?_eq_getElem hlt, hk', htexts, ?_⟩
    rw [zipWith_take_eq htaken
      (hwhole _ texts (List.getElem?_eq_getElem hlt) htexts)]

/-- In every run, a connection whose thread has read something, has finished and
whose texts were taken whole by `send` has been sent one message: the icon, or the
page of the directory as it was found, whole exactly when it fits behind its
header. -/
theorem server_answers_framed {as : List (Action Connection ClientLabel)}
    {s : State ClientPc Connection} (h : httpServer.run Handover.start as = some s) {c : Nat}
    {pc : ClientPc} (hfin : s.threads c = some (.finished pc)) {cut : Nat} {search : Option Found}
    {htmlContent : Bytes} {rest : List ClientLabel}
    (hread : labels c as = .recv cut search htmlContent :: rest)
    (hlen : htmlContent.length = bufferSize.toNat)
    (hwhole : ∀ k texts, s.opened[c]? = some k →
      handleRequest (recv cut (bufferSize.toNat - 1) k.incoming).1 search htmlContent =
        some texts → SentWhole texts rest) :
    ∃ k k' method path message, s.opened[c]? = some k ∧ s.conns c = some k' ∧
      TwoWords (cstr (recv cut (bufferSize.toNat - 1) k.incoming).1) method path ∧
      k'.outgoing = k.outgoing ++ message ∧
      (path = ascii "/favicon.ico" → Framed message favicon) ∧
      (path ≠ ascii "/favicon.ico" →
        (Framed message (pageText search) ↔ (pageText search).length ≤ maxPage)) := by
  obtain ⟨k, k', texts, hk, hk', htexts, hout⟩ := run_answers h hfin hread hwhole
  obtain ⟨method, path, hwords, hicon, hpage⟩ := handleRequest_framed hlen htexts
  exact ⟨k, k', method, path, texts.flatten, hk, hk', hwords, hout, hicon, hpage⟩

/-- A request for the root is not for the icon. -/
theorem path_ne_icon {method path : Bytes}
    (h : TwoWords (cstr (recv 512 (bufferSize.toNat - 1) (ascii "GET / ")).1) method path) :
    path ≠ ascii "/favicon.ico" := by
  rintro rfl
  obtain ⟨gap, gap', rest, htext, -⟩ := h
  have hlen := congrArg List.length htext
  have hleft : (cstr (recv 512 (bufferSize.toNat - 1) (ascii "GET / ")).1).length = 6 := by decide
  have hicon : (ascii "/favicon.ico").length = 12 := rfl
  simp only [List.length_append] at hlen
  omega

/-- The root is asked for where the directory cannot be opened. -/
theorem server_answers_framed_root :
    ∃ (s : State ClientPc Connection) (k' : Connection), s.conns 0 = some k' ∧
      Framed k'.outgoing (pageText none) := by
  obtain ⟨s, hrun, hstate⟩ := Option.map_eq_some_iff.mp (show
    (httpServer.run Handover.start [.accept 4 ⟨ascii "GET / ", []⟩, .malloc 100, .spawn, .take 0,
      .act 0 (.recv 512 none (List.replicate 8192 0)), .act 0 (.send 8192), .close 0]).map
        (fun s => (s.threads 0, s.opened)) =
      some (some (.finished (.sending [])), [⟨ascii "GET / ", []⟩]) by decide +kernel)
  obtain ⟨hfin, hopened⟩ := Prod.mk.inj hstate
  obtain ⟨k, k', method, path, message, hk, hk', hwords, hout, -, hpage⟩ :=
    server_answers_framed hrun hfin rfl List.length_replicate fun _ _ _ htexts =>
      sentWhole_of_le htexts fun n hn => by
        obtain rfl : n = 8192 := by simpa using hn
        exact Nat.le_refl _
  rw [hopened] at hk
  obtain rfl : ⟨ascii "GET / ", []⟩ = k := Option.some.inj hk
  refine ⟨s, k', hk', ?_⟩
  rw [hout, List.nil_append]
  exact (hpage (path_ne_icon hwords)).mpr (by decide +kernel)

end Http
end NetLab
