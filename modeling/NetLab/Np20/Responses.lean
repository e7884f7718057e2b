import Mathlib.Data.List.Forall2
import NetLab.Np20.Requests

/-!
# Responses on a socket that fails

`Send` gives up the rest of its block when a call fails, and tells nobody.  The
next block is sent all the same.
-/

namespace NetLab
namespace Np20

open CString ByteStream

/-- `Send`, over the results of the calls of `send`: what the socket accepts and
the results for later calls.  A call accepts some of the bytes or fails; when
there is no result, it has not returned yet. -/
def send : List (Option Nat) → Bytes → Bytes × List (Option Nat)
  | [], _ => ([], [])
  | tmp :: results, data =>
    if data = [] then ([], tmp :: results)
    else
      match tmp with
      | none => ([], results)
      | some k =>
        let more := send results (data.drop (part k data.length))
        (data.take (part k data.length) ++ more.1, more.2)

/-- One `Send` after the other: what is accepted of each block. -/
def sendAll : List (Option Nat) → List Bytes → List Bytes × List (Option Nat)
  | results, [] => ([], results)
  | results, data :: more =>
    let sent := send results data
    let later := sendAll sent.2 more
    (sent.1 :: later.1, later.2)

/-- The blocks that a handler passes to `Send`. -/
def blocksOf (effects : List Effect) : List Bytes :=
  effects.filterMap fun
    | .send data => some data
    | _ => none

/-- A block of which something is accepted stands behind complete blocks. -/
def Complete (blocks accepted : List Bytes) : Prop :=
  (blocks.zip accepted).Pairwise fun earlier later => later.2 ≠ [] → earlier.2 = earlier.1

/-- The accepted bytes start the response, and no block follows a dropped part of
another. -/
structure NoHoles (response : Bytes) (blocks accepted : List Bytes) : Prop where
  start : accepted.flatten <+: response
  complete : Complete blocks accepted

/-- What a GET answers with: a header and the body behind it, or that there is no
such file. -/
inductive Intended (host : Host) (path : Bytes) : Bytes → Prop where
  | favicon {content : Bytes} (icon : (strstr path faviconName).isSome = true)
      (opened : host.fopen faviconName = some (.ofFile content)) :
      Intended host path (okHeader (toInt32 content.length) (ascii "image/x-icon") ++ content)
  | listing {html : Bytes} (icon : (strstr path faviconName).isSome = false)
      (last : path.getLast? ≠ some 63) (page : createHTML path (host.scandir path) = .ok html) :
      Intended host path (okHeader html.length (ascii "text/html") ++ html)
  | download {content : Bytes} (icon : (strstr path faviconName).isSome = false)
      (last : path.getLast? = some 63)
      (opened : host.fopen path.dropLast = some (.ofFile content)) :
      Intended host path
        (downloadHeader (toInt32 content.length) (path.dropLast.rtakeWhile (· ≠ 47)) ++ content)
  | noFavicon (icon : (strstr path faviconName).isSome = true)
      (missing : host.fopen faviconName = none) : Intended host path notFound
  | noFile (icon : (strstr path faviconName).isSome = false) (last : path.getLast? = some 63)
      (missing : host.fopen path.dropLast = none) : Intended host path notFound

/-- No call succeeds after one that failed. -/
def StopsAtFailure (results : List (Option Nat)) : Prop :=
  results.Pairwise fun earlier later => earlier = none → later = none

instance : DecidablePred StopsAtFailure := fun results =>
  inferInstanceAs (Decidable (results.Pairwise fun earlier later => earlier = none → later = none))

/-- The results of the calls that are made for a response, to its end or to some
point before. -/
structure Calls (blocks : List Bytes) where
  results : List (Option Nat)
  made : (sendAll results blocks).2 = []

/-- What they accept of each block. -/
def Calls.accepted {blocks : List Bytes} (calls : Calls blocks) : List Bytes :=
  (sendAll calls.results blocks).1

/-! ## One block -/

theorem send_nil (results : List (Option Nat)) : send results [] = ([], results) := by
  cases results with
  | nil => rfl
  | cons tmp results => exact if_pos rfl

theorem send_fail (results : List (Option Nat)) {data : Bytes} (h : data ≠ []) :
    send (none :: results) data = ([], results) := by
  rw [send, if_neg h]

theorem send_accept (k : Nat) (results : List (Option Nat)) {data : Bytes} (h : data ≠ []) :
    send (some k :: results) data =
      (data.take (part k data.length) ++ (send results (data.drop (part k data.length))).1,
        (send results (data.drop (part k data.length))).2) := by
  rw [send, if_neg h]

/-- The block goes out, or a call fails and drops the end of it, or the results
are used up. -/
theorem send_cases (results : List (Option Nat)) : ∀ data : Bytes, ∃ used,
    results = used ++ (send results data).2 ∧ (send results data).1 <+: data ∧
      (none ∉ used ∧ (send results data).1 = data ∨
        (∃ somes, used = somes ++ [none] ∧ none ∉ somes) ∧ (send results data).1 ≠ data ∨
        none ∉ used ∧ (send results data).2 = []) := by
  induction results with
  | nil =>
    intro data
    exact ⟨[], rfl, List.nil_prefix, Or.inr (Or.inr ⟨List.not_mem_nil, rfl⟩)⟩
  | cons tmp results ih =>
    intro data
    by_cases hnil : data = []
    · subst hnil
      rw [send_nil]
      exact ⟨[], rfl, List.nil_prefix, Or.inl ⟨List.not_mem_nil, rfl⟩⟩
    · cases tmp with
      | none =>
        rw [send_fail results hnil]
        exact ⟨[none], rfl, List.nil_prefix,
          Or.inr (Or.inl ⟨⟨[], rfl, List.not_mem_nil⟩, fun heq => hnil heq.symm⟩)⟩
      | some k =>
        rw [send_accept k results hnil]
        obtain ⟨used, hused, hstart, hcase⟩ := ih (data.drop (part k data.length))
        have hsplit := List.take_append_drop (part k data.length) data
        have hsome : ∀ {l : List (Option Nat)}, none ∉ l → none ∉ some k :: l := by
          intro l hl hmem
          rcases List.mem_cons.mp hmem with heq | hmem
          · cases heq
          · exact hl hmem
        refine ⟨some k :: used, ?_, ?_, ?_⟩
        · rw [List.cons_append, ← hused]
        · have hgrown := (List.prefix_append_right_inj (data.take (part k data.length))).mpr hstart
          rw [hsplit] at hgrown
          exact hgrown
        · rcases hcase with ⟨hnone, hall⟩ | ⟨⟨somes, rfl, hnone⟩, hdrop⟩ | ⟨hnone, hrest⟩
          · left
            refine ⟨hsome hnone, ?_⟩
            rw [hall, hsplit]
          · right; left
            refine ⟨⟨some k :: somes, rfl, hsome hnone⟩, fun heq => hdrop ?_⟩
            exact List.append_cancel_left (heq.trans hsplit.symm)
          · right; right
            exact ⟨hsome hnone, hrest⟩

/-! ## One block after the other -/

theorem length_sendAll (results : List (Option Nat)) (blocks : List Bytes) :
    (sendAll results blocks).1.length = blocks.length := by
  induction blocks generalizing results with
  | nil => rfl
  | cons data more ih => exact congrArg Nat.succ (ih _)

/-- Nothing is accepted exactly when every call fails. -/
theorem sendAll_silent_iff (blocks : List Bytes) : ∀ results : List (Option Nat),
    (sendAll results blocks).2 = [] →
      ((∀ data ∈ (sendAll results blocks).1, data = []) ↔ ∀ tmp ∈ results, tmp = none) := by
  induction blocks with
  | nil =>
    intro results hmade
    obtain rfl : results = [] := hmade
    exact iff_of_true nofun nofun
  | cons data more ih =>
    intro results hmade
    rw [sendAll] at hmade ⊢
    rw [List.forall_mem_cons]
    by_cases hnil : data = []
    · subst hnil
      rw [send_nil] at hmade ⊢
      rw [← ih results hmade]
      exact and_iff_right rfl
    · cases results with
      | nil =>
        rw [send] at hmade ⊢
        rw [← ih [] hmade]
        exact and_iff_right rfl
      | cons tmp results =>
        rw [List.forall_mem_cons]
        cases tmp with
        | none =>
          rw [send_fail results hnil] at hmade ⊢
          rw [← ih results hmade]
          exact and_congr_left' (iff_of_true rfl rfl)
        | some k =>
          refine iff_of_false (fun h => ?_) fun h => nomatch h.1
          have hpos : 0 < data.length := List.length_pos_of_ne_nil hnil
          have hpart := part_pos (k := k) hpos
          have hlen := congrArg List.length h.1
          rw [send_accept k results hnil, List.length_append, List.length_take,
            List.length_nil] at hlen
          omega

theorem complete_cons_self (data : Bytes) (blocks accepted : List Bytes) :
    Complete (data :: blocks) (data :: accepted) ↔ Complete blocks accepted := by
  constructor
  · intro h
    exact (List.pairwise_cons.mp h).2
  · intro h
    exact List.pairwise_cons.mpr ⟨fun _ _ _ => rfl, h⟩

theorem complete_of_silent (blocks : List Bytes) {accepted : List Bytes}
    (h : ∀ data ∈ accepted, data = []) : Complete blocks accepted := by
  refine List.pairwise_of_forall_mem_list ?_
  intro earlier _ later hlater hne
  exact absurd (h later.2 (List.of_mem_zip hlater).2) hne

/-- Behind a block that does not go out nothing may be accepted. -/
theorem complete_cons_of_ne {data sent : Bytes} (hne : sent ≠ data) {blocks accepted : List Bytes}
    (hlen : accepted.length = blocks.length) :
    Complete (data :: blocks) (sent :: accepted) ↔ ∀ later ∈ accepted, later = [] := by
  constructor
  · intro h later hlater
    by_contra hsent
    obtain ⟨block, hmem⟩ : ∃ block, (block, later) ∈ blocks.zip accepted := by
      obtain ⟨i, hi, hget⟩ := List.mem_iff_getElem.mp hlater
      refine ⟨blocks[i], List.mem_iff_getElem.mpr ⟨i, ?_, ?_⟩⟩
      · rw [List.length_zip]
        omega
      · rw [List.getElem_zip, hget]
    exact hne ((List.pairwise_cons.mp h).1 _ hmem hsent)
  · intro h
    refine List.pairwise_cons.mpr ⟨fun pair hpair hsent => ?_, complete_of_silent blocks h⟩
    exact absurd (h pair.2 (List.of_mem_zip hpair).2) hsent

theorem sendAll_starts (results : List (Option Nat)) (blocks : List Bytes) :
    List.Forall₂ (· <+: ·) (sendAll results blocks).1 blocks := by
  induction blocks generalizing results with
  | nil => exact List.Forall₂.nil
  | cons data more ih =>
    obtain ⟨-, -, hstart, -⟩ := send_cases results data
    exact List.Forall₂.cons hstart (ih _)

/-- Without holes the accepted bytes are a start of the blocks. -/
theorem start_of_complete {blocks accepted : List Bytes}
    (hstarts : List.Forall₂ (· <+: ·) accepted blocks) (h : Complete blocks accepted) :
    accepted.flatten <+: blocks.flatten := by
  induction hstarts with
  | nil => exact List.prefix_rfl
  | @cons sent data accepted blocks hstart hstarts ih =>
    rw [List.flatten_cons, List.flatten_cons]
    by_cases hall : sent = data
    · subst hall
      exact (List.prefix_append_right_inj sent).mpr (ih ((complete_cons_self _ _ _).mp h))
    · have hsilent := (complete_cons_of_ne hall (List.Forall₂.length_eq hstarts)).mp h
      rw [List.flatten_eq_nil_iff.mpr hsilent, List.append_nil]
      exact hstart.trans (List.prefix_append _ _)

theorem stopsAtFailure_append {used : List (Option Nat)} (h : none ∉ used)
    (left : List (Option Nat)) : StopsAtFailure (used ++ left) ↔ StopsAtFailure left := by
  rw [StopsAtFailure, List.pairwise_append]
  constructor
  · intro hstops
    exact hstops.2.1
  · intro hleft
    refine ⟨List.pairwise_of_forall_mem_list ?_, hleft, ?_⟩
    · intro earlier hearlier later _ hnone
      exact absurd (hnone ▸ hearlier) h
    · intro earlier hearlier later _ hnone
      exact absurd (hnone ▸ hearlier) h

theorem stopsAtFailure_cons_none (left : List (Option Nat)) :
    StopsAtFailure (none :: left) ↔ ∀ tmp ∈ left, tmp = none := by
  rw [StopsAtFailure, List.pairwise_cons]
  constructor
  · intro h tmp htmp
    exact h.1 tmp htmp rfl
  · intro h
    refine ⟨fun tmp htmp _ => h tmp htmp, List.pairwise_of_forall_mem_list ?_⟩
    intro earlier _ later hlater _
    exact h later hlater

/-- The calls leave no hole exactly when they stop at a failure. -/
theorem complete_iff (blocks : List Bytes) : ∀ results : List (Option Nat),
    (sendAll results blocks).2 = [] →
      (Complete blocks (sendAll results blocks).1 ↔ StopsAtFailure results) := by
  induction blocks with
  | nil =>
    intro results hmade
    obtain rfl : results = [] := hmade
    exact iff_of_true List.Pairwise.nil List.Pairwise.nil
  | cons data more ih =>
    intro results hmade
    rw [sendAll] at hmade ⊢
    dsimp only at hmade ⊢
    obtain ⟨used, hused, -, hcase⟩ := send_cases results data
    obtain ⟨sent, hsent⟩ : ∃ sent, sent = send results data := ⟨_, rfl⟩
    rw [← hsent] at hmade hused hcase ⊢
    rw [hused]
    rcases hcase with ⟨hnone, hall⟩ | ⟨⟨somes, rfl, hnone⟩, hdrop⟩ | ⟨hnone, hrest⟩
    · rw [hall, complete_cons_self, stopsAtFailure_append hnone]
      exact ih sent.2 hmade
    · rw [complete_cons_of_ne hdrop (length_sendAll _ _), List.append_assoc,
        stopsAtFailure_append hnone, List.singleton_append, stopsAtFailure_cons_none]
      exact sendAll_silent_iff more sent.2 hmade
    · have hsilent : ∀ later ∈ (sendAll [] more).1, later = [] := by
        rw [hrest] at hmade
        exact (sendAll_silent_iff more [] hmade).mpr nofun
      rw [hrest, stopsAtFailure_append hnone]
      refine iff_of_true ?_ List.Pairwise.nil
      by_cases hall : sent.1 = data
      · rw [hall, complete_cons_self]
        exact complete_of_silent more hsilent
      · exact (complete_cons_of_ne hall (length_sendAll _ _)).mpr hsilent

/-! ## The blocks of a GET -/

theorem blocksOf_map_send (blocks : List Bytes) : blocksOf (blocks.map .send) = blocks := by
  induction blocks with
  | nil => rfl
  | cons data blocks ih => exact congrArg (data :: ·) ih

/-- What a file goes out as. -/
theorem flatten_blocksOf_file (path header : Bytes) (sent : List Bytes) :
    (blocksOf (.openRead path :: .send header :: sent.map .send)).flatten =
      header ++ sent.flatten := by
  show header ++ (blocksOf (sent.map .send)).flatten = _
  rw [blocksOf_map_send]

theorem toInt32_le (n : Nat) : toInt32 n ≤ n := by
  rcases Nat.lt_or_ge intMax n with hlong | hle
  · have hcut := toInt32_le_sub hlong
    omega
  · rw [toInt32_of_le hle]

theorem downloadLoop_start {len : Int} (freads : List Bytes) :
    ∀ {read : Int} {sent : List Bytes}, downloadLoop len read freads = .ok sent →
      sent.flatten <+: freads.flatten := by
  induction freads with
  | nil =>
    intro read sent h
    rw [downloadLoop] at h
    split at h
    · cases h
    · rw [← Except.ok.inj h]
  | cons data more ih =>
    intro read sent h
    rw [downloadLoop] at h
    split at h
    · split at h
      · obtain ⟨later, hlater, h⟩ := bind_eq_ok.mp h
        rw [← Except.ok.inj h, List.flatten_cons, List.flatten_cons]
        exact (List.prefix_append_right_inj data).mpr (ih hlater)
      · cases h
    · rw [← Except.ok.inj h]
      exact List.nil_prefix

theorem sendFavicon_file {host : Host} {content : Bytes}
    (opened : host.fopen faviconName = some (.ofFile content)) {effects : List Effect}
    (h : sendFavicon host = .ok effects) :
    effects = [.openRead faviconName,
      .send (okHeader (toInt32 content.length) (ascii "image/x-icon")),
      .send (content.take (toInt32 content.length).toNat)] := by
  have hread : (Opened.ofFile content).freads.flatten = content := flatten_freads content
  have hle := toInt32_le content.length
  have hlen : (content.take (toInt32 content.length).toNat).length =
      (toInt32 content.length).toNat := by
    rw [List.length_take]
    omega
  have hlength : (Opened.ofFile content).length = content.length := rfl
  have hdata : icoData (.ofFile content) (toInt32 content.length).toNat =
      content.take (toInt32 content.length).toNat := by
    rw [icoData, hread, hlen, Nat.sub_self, List.replicate_zero, List.append_nil]
  rw [sendFavicon, opened] at h
  dsimp only at h
  rw [hlength, hdata] at h
  split at h
  · cases h
  · obtain ⟨ok, hok, h⟩ := bind_eq_ok.mp h
    obtain ⟨-, rfl⟩ := Buffer.put_eq_ok.mp hok
    exact (Except.ok.inj h).symm

theorem sendListing_page {host : Host} {path html : Bytes}
    (page : createHTML path (host.scandir path) = .ok html) {effects : List Effect}
    (h : sendListing host path = .ok effects) :
    effects = [.scandir path, .send (okHeader html.length (ascii "text/html")), .send html] := by
  rw [sendListing, page] at h
  obtain ⟨html', hhtml, h⟩ := bind_eq_ok.mp h
  obtain rfl := Except.ok.inj hhtml
  obtain ⟨ok, hok, h⟩ := bind_eq_ok.mp h
  obtain ⟨-, rfl⟩ := Buffer.put_eq_ok.mp hok
  exact (Except.ok.inj h).symm

theorem sendFile_blocks {host : Host} {path content : Bytes}
    (opened : host.fopen path = some (.ofFile content)) {effects : List Effect}
    (h : sendFile host path = .ok effects) :
    ∃ sent : List Bytes, sent.flatten <+: content ∧ effects = .openRead path ::
      .send (downloadHeader (toInt32 content.length) (path.rtakeWhile (· ≠ 47))) ::
        sent.map .send := by
  obtain ⟨-, sent, hsent, rfl⟩ := (sendFile_eq_ok_iff opened).mp h
  have hstart := downloadLoop_start _ hsent
  rw [flatten_freads] at hstart
  exact ⟨sent, hstart, rfl⟩

/-- The blocks of a GET are the header and what follows it. -/
theorem blocksOf_serveGet {host : Host} {path response : Bytes}
    (hresponse : Intended host path response) {effects : List Effect}
    (h : serveGet host path = .ok effects) : (blocksOf effects).flatten <+: response := by
  rw [serveGet] at h
  cases hresponse with
  | @favicon content icon opened =>
    rw [if_pos icon] at h
    rw [sendFavicon_file opened h]
    change _ ++ (content.take (toInt32 content.length).toNat ++ []) <+: _
    rw [List.append_nil]
    exact (List.prefix_append_right_inj _).mpr (List.take_prefix _ _)
  | @listing html icon last page =>
    rw [icon, if_neg Bool.false_ne_true] at h
    cases hlast : path.getLast? with
    | none =>
      rw [hlast] at h
      cases h
    | some byte =>
      have hbyte : byte ≠ 63 := fun heq => last (hlast.trans (congrArg some heq))
      rw [hlast] at h
      dsimp only at h
      rw [if_pos hbyte] at h
      rw [sendListing_page page h]
      change _ ++ (html ++ []) <+: _
      rw [List.append_nil]
  | @download content icon last opened =>
    rw [icon, if_neg Bool.false_ne_true, last] at h
    dsimp only at h
    rw [if_neg (not_not.mpr rfl)] at h
    obtain ⟨sent, hsent, rfl⟩ := sendFile_blocks opened h
    rw [flatten_blocksOf_file]
    exact (List.prefix_append_right_inj _).mpr hsent
  | noFavicon icon missing =>
    rw [if_pos icon, sendFavicon, missing] at h
    rw [← Except.ok.inj h]
    exact List.prefix_rfl
  | noFile icon last missing =>
    rw [icon, if_neg Bool.false_ne_true, last] at h
    dsimp only at h
    rw [if_neg (not_not.mpr rfl), sendFile, missing] at h
    rw [← Except.ok.inj h]
    exact List.prefix_rfl

/-- The socket gets a start of the response, block for block, exactly when no
call succeeds behind a failure. -/
theorem no_holes_iff (host : Host) (cuts : Nat → Nat) {request body : Bytes}
    (hrequest : IsHeader request) (hget : firstWord request = ascii "GET")
    {response : Bytes} (hresponse : Intended host (decodedPath request) response)
    {effects : List Effect} {rest : Bytes}
    (h : clientThread host cuts (request ++ body) = .ok (effects, rest))
    (calls : Calls (blocksOf effects)) :
    NoHoles response (blocksOf effects) calls.accepted ↔ StopsAtFailure calls.results := by
  have hserved := serveGet_of_clientThread hrequest hget h
  rw [← complete_iff _ _ calls.made]
  constructor
  · intro hholes
    exact hholes.complete
  · intro hcomplete
    have hstart := start_of_complete (sendAll_starts _ _) hcomplete
    exact ⟨hstart.trans (blocksOf_serveGet hresponse hserved), hcomplete⟩

/-- A host whose only file is an icon of one byte. -/
def iconHost : Host where
  scandir := fun _ => []
  fopen := fun path => if path = faviconName then some (.ofFile [7]) else none
  creates := fun _ => false
  verify := fun _ => none

def iconRequest : Bytes := ascii "GET /favicon.ico HTTP/1.1\r\n\r\n"

/-- What the request for the icon does. -/
def iconEffects : List Effect :=
  [.openRead faviconName, .send (okHeader 1 (ascii "image/x-icon")), .send [7]]

theorem iconHost_serves :
    IsHeader iconRequest ∧ firstWord iconRequest = ascii "GET" ∧
      Intended iconHost (decodedPath iconRequest) (okHeader 1 (ascii "image/x-icon") ++ [7]) ∧
      clientThread iconHost (fun _ => 1) (iconRequest ++ []) = .ok (iconEffects, []) := by
  have hheader : IsHeader iconRequest := by decide +kernel
  have hword : firstWord iconRequest = ascii "GET" ∧
      secondWord iconRequest = ascii "/favicon.ico" := by decide +kernel
  have hicon : (strstr (decodedPath iconRequest) faviconName).isSome = true := by decide +kernel
  have hopen : iconHost.fopen faviconName = some (.ofFile [7]) := by
    show (if faviconName = faviconName then some (Opened.ofFile [7]) else none) = _
    exact if_pos rfl
  have hlength : toInt32 ([7] : Bytes).length = 1 := by decide
  have hfits : (okHeader 1 (ascii "image/x-icon")).length < Buffer.ok.size := by decide +kernel
  refine ⟨hheader, hword.1, ?_, ?_⟩
  · have hresponse := Intended.favicon hicon hopen
    rw [hlength] at hresponse
    exact hresponse
  · have htarget : (secondWord iconRequest).length < 1024 := by
      rw [hword.2]
      decide
    have hfavicon : sendFavicon iconHost = .ok iconEffects := by
      rw [sendFavicon, hopen]
      show (Buffer.ok.put (okHeader 1 (ascii "image/x-icon")) >>= _) = _
      rw [Buffer.put_of_lt hfits]
      rfl
    have hlen : iconRequest.length ≤ intMax := by decide +kernel
    rw [clientThread_get iconHost _ hheader hlen hword.1 htarget, serveGet, if_pos hicon, hfavicon]
    rfl

/-- The header is lost and the icon comes through. -/
def headerLost : Calls (blocksOf iconEffects) where
  results := [none, some 1]
  made := by decide +kernel

/-- A response whose header is lost has no hole when its body is lost as well. -/
theorem no_holes_all_lost :
    ∃ calls : Calls (blocksOf iconEffects), StopsAtFailure calls.results ∧
      NoHoles (okHeader 1 (ascii "image/x-icon") ++ [7]) (blocksOf iconEffects) calls.accepted := by
  obtain ⟨hheader, hget, hresponse, hok⟩ := iconHost_serves
  obtain ⟨calls, hcalls⟩ : ∃ calls : Calls (blocksOf iconEffects), calls.results = [none, none] :=
    ⟨⟨[none, none], by decide +kernel⟩, rfl⟩
  have hstops : StopsAtFailure calls.results := by
    rw [hcalls]
    decide
  exact ⟨calls, hstops, (no_holes_iff iconHost _ hheader hget hresponse hok calls).mpr hstops⟩

/-- The icon arrives where its header should be. -/
theorem headerLost_leaves_hole :
    ¬ ∀ (host : Host) (cuts : Nat → Nat) (request body response : Bytes) (effects : List Effect)
      (rest : Bytes), IsHeader request → firstWord request = ascii "GET" →
      Intended host (decodedPath request) response →
      clientThread host cuts (request ++ body) = .ok (effects, rest) →
      ∀ calls : Calls (blocksOf effects), NoHoles response (blocksOf effects) calls.accepted := by
  intro h
  obtain ⟨hheader, hget, hresponse, hok⟩ := iconHost_serves
  have hholes := h _ _ _ _ _ _ _ hheader hget hresponse hok headerLost
  have haccepted : headerLost.accepted.flatten = [7] := by decide +kernel
  have hstart := hholes.start
  rw [haccepted] at hstart
  obtain ⟨t, ht⟩ := hstart
  have hbyte := congrArg List.head? ht
  change some (7 : UInt8) = some 72 at hbyte
  exact absurd hbyte (by decide)

end Np20
end NetLab
