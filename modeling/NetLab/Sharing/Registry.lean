import NetLab.Library.Inet
import NetLab.Library.IStream
import NetLab.Library.SortedMap

/-!
# The registry of the file sharing server and its LIST answer

Clients register by a broadcast datagram `REG name`.  The answer to LIST is one
line of text, which the asking client takes apart by stream extraction.
-/

namespace NetLab
namespace Sharing
namespace Registry

open CString Inet IStream

/-- `std::map<std::string, std::string> clients`: the address of each name. -/
abbrev Clients := SortedMap Bytes Bytes

/-- `sizeof(buffer)` in the server. -/
def bufferSize : Nat := 1024

/-- `sizeof(buffer)` in the client. -/
def answerSize : Nat := 4096

/-- A datagram to the registration port that leaves room for the NUL. -/
structure Registration where
  clientIp : UInt32
  data : Bytes
  short : data.length < bufferSize

/-- `std::string msg(buffer)`, for a buffer that was zero before the datagram
came. -/
def received (data : Bytes) : Bytes := cstr (data.take bufferSize)

/-- The name in a registration. -/
def regName (data : Bytes) : Option Bytes :=
  if (received data).take 4 = ascii "REG " then some ((received data).drop 4) else none

/-- The server's turn for the registration port. -/
def register (clients : Clients) (r : Registration) : Clients :=
  match regName r.data with
  | none => clients
  | some name => clients.insert name (inetNtop r.clientIp)

/-- The registry after the registrations so far. -/
def clientsAfter (rs : List Registration) : Clients := rs.foldl register .empty

/-- What the answer says of one client. -/
def listEntry (client : Bytes × Bytes) : Bytes := ascii " " ++ client.1 ++ ascii " " ++ client.2

def listAnswer (entries : List (Bytes × Bytes)) : Bytes :=
  ascii "LIST " ++ decimal entries.length ++ entries.flatMap listEntry

/-- The server's turn for the listing port. -/
def serveList (clients : Clients) (data : Bytes) : Option Bytes :=
  if received data = ascii "LIST" then some (listAnswer clients.entries) else none

/-- The text of the client's buffer when a datagram has been received into it.
A buffer that is full and holds no NUL has no end: `none`. -/
def response (datagram : Bytes) : Option Bytes :=
  if datagram.length < answerSize ∨ 0 ∈ datagram.take answerSize then
    some (cstr (datagram.take answerSize))
  else none

/-- `for (int i = 0; i < count; i++)` of the client. -/
def readClients : Nat → Option Bytes → List (Bytes × Bytes)
  | 0, _ => []
  | i + 1, iss =>
    let name := getString iss
    let ip := getString name.2
    (name.1, ip.1) :: readClients i ip.2

/-- The count and the clients that the client program reads from an answer. -/
def parseList (datagram : Bytes) : Option (Int × List (Bytes × Bytes)) :=
  match response datagram with
  | none => none
  | some text =>
    let count := getInt (getString (some text)).2
    count.1.map fun n => (n, readClients n.toNat count.2)

/-! ## The registry -/

theorem clientsAfter_concat (rs : List Registration) (r : Registration) :
    clientsAfter (rs ++ [r]) = register (clientsAfter rs) r := by
  rw [clientsAfter, List.foldl_concat]
  rfl

theorem mem_keys_clientsAfter {rs : List Registration} {name : Bytes} :
    name ∈ (clientsAfter rs).keys ↔ ∃ r ∈ rs, regName r.data = some name := by
  induction rs using List.reverseRecOn with
  | nil => exact iff_of_false List.not_mem_nil (by simp)
  | append_singleton rs r ih =>
    rw [clientsAfter_concat, register]
    have hsplit : (∃ q ∈ rs ++ [r], regName q.data = some name) ↔
        regName r.data = some name ∨ ∃ q ∈ rs, regName q.data = some name := by
      simp [or_and_right, exists_or, or_comm]
    rw [hsplit]
    cases h : regName r.data with
    | none => simp [ih]
    | some n =>
      rw [SortedMap.mem_keys_insert, ih, Option.some.injEq]
      exact or_congr_left eq_comm

/-- Each name is listed with the address it was registered from last. -/
theorem lookup_register (clients : Clients) {r : Registration} {name : Bytes}
    (h : regName r.data = some name) :
    (register clients r).lookup =
      Function.update clients.lookup name (some (inetNtop r.clientIp)) := by
  rw [register, h]
  exact SortedMap.lookup_insert clients name (inetNtop r.clientIp)

/-- An entry as the server makes them. -/
def Entry (e : Bytes × Bytes) : Prop := 0 ∉ e.1 ∧ ∃ sAddr, e.2 = inetNtop sAddr

theorem zero_notMem_regName {data name : Bytes} (h : regName data = some name) : 0 ∉ name := by
  rw [regName, Option.ite_none_right_eq_some, Option.some.injEq] at h
  rw [← h.2]
  exact fun hmem => zero_notMem_cstr _ (List.mem_of_mem_drop hmem)

theorem entry_of_mem {rs : List Registration} {e : Bytes × Bytes}
    (h : e ∈ (clientsAfter rs).entries) : Entry e := by
  induction rs using List.reverseRecOn with
  | nil => exact absurd h List.not_mem_nil
  | append_singleton rs r ih =>
    rw [clientsAfter_concat, register] at h
    split at h
    case h_1 => exact ih h
    case h_2 name hname =>
      rcases SortedMap.mem_insertEntry h with rfl | h
      · exact ⟨zero_notMem_regName hname, r.clientIp, rfl⟩
      · exact ih h

/-! ## Reading the answer -/

/-- Bytes that the entries take up in an answer. -/
def entriesLength (entries : List (Bytes × Bytes)) : Nat :=
  (entries.map fun e => e.1.length + e.2.length + 2).sum

theorem length_flatMap_listEntry (entries : List (Bytes × Bytes)) :
    (entries.flatMap listEntry).length = entriesLength entries := by
  rw [List.length_flatMap, entriesLength]
  refine congrArg List.sum (List.map_congr_left fun e _ => ?_)
  have hblank : (ascii " ").length = 1 := rfl
  simp only [listEntry, List.length_append, hblank]
  omega

theorem length_listAnswer (entries : List (Bytes × Bytes)) :
    (listAnswer entries).length = 5 + (decimal entries.length).length + entriesLength entries := by
  have hcmd : (ascii "LIST ").length = 5 := rfl
  rw [listAnswer, List.length_append, List.length_append, length_flatMap_listEntry, hcmd]

theorem length_le_entriesLength (entries : List (Bytes × Bytes)) :
    entries.length ≤ entriesLength entries := by
  induction entries with
  | nil => exact Nat.le_refl 0
  | cons e entries ih =>
    rw [entriesLength, List.map_cons, List.sum_cons, List.length_cons]
    rw [entriesLength] at ih
    omega

theorem zero_notMem_listAnswer {entries : List (Bytes × Bytes)} (h : ∀ e ∈ entries, Entry e) :
    0 ∉ listAnswer entries := by
  have hcmd : 0 ∉ ascii "LIST " := by decide
  have hblank : 0 ∉ ascii " " := by decide
  have hdigits : 0 ∉ decimal entries.length := by
    intro hmem
    have hdigit := isdigit_of_mem_decimal hmem
    contradiction
  have hentries : 0 ∉ entries.flatMap listEntry := by
    intro hmem
    obtain ⟨e, he, hmem⟩ := List.mem_flatMap.mp hmem
    obtain ⟨hname, sAddr, hip⟩ := h e he
    have hip' : 0 ∉ e.2 := hip ▸ zero_notMem_inetNtop sAddr
    simp [listEntry, hblank, hname, hip'] at hmem
  simp [listAnswer, hcmd, hdigits, hentries]

/-- The answer fits the client's buffer, or it has no end there. -/
theorem response_listAnswer {entries : List (Bytes × Bytes)} (h : ∀ e ∈ entries, Entry e) :
    response (listAnswer entries) =
      if (listAnswer entries).length < answerSize then some (listAnswer entries) else none := by
  have hzero := zero_notMem_listAnswer h
  rw [response]
  by_cases hlen : (listAnswer entries).length < answerSize
  · rw [if_pos (.inl hlen), if_pos hlen, List.take_of_length_le (by omega), cstr_eq_self hzero]
  · rw [if_neg hlen, if_neg]
    rintro (hlt | hmem)
    · exact hlen hlt
    · exact hzero (List.mem_of_mem_take hmem)

/-- What follows an entry is a blank or nothing. -/
theorem head?_flatMap_listEntry (entries : List (Bytes × Bytes)) :
    ∀ c ∈ (entries.flatMap listEntry).head?, c = 32 := by
  cases entries with
  | nil => exact fun c hc => nomatch hc
  | cons e entries =>
    intro c hc
    exact (Option.some.inj hc).symm

/-- Entries whose names are words are read back. -/
theorem readClients_flatMap {entries : List (Bytes × Bytes)} (h : ∀ e ∈ entries, Entry e)
    (hwords : ∀ e ∈ entries, e.1 ≠ [] ∧ IsWord e.1) :
    readClients entries.length (some (entries.flatMap listEntry)) = entries := by
  induction entries with
  | nil => rfl
  | cons e entries ih =>
    obtain ⟨hne, hword⟩ := hwords e List.mem_cons_self
    obtain ⟨-, sAddr, hip⟩ := h e List.mem_cons_self
    have hhead : ∀ c ∈ (entries.flatMap listEntry).head?, isspace c = true := fun c hc => by
      rw [head?_flatMap_listEntry entries c hc]
      rfl
    have htext : (e :: entries).flatMap listEntry =
        32 :: (e.1 ++ 32 :: (e.2 ++ entries.flatMap listEntry)) := by
      rw [List.flatMap_cons, listEntry]
      simp [ascii]
    have hname : getString (some ((e :: entries).flatMap listEntry)) =
        (e.1, some (32 :: (e.2 ++ entries.flatMap listEntry))) := by
      rw [htext, getString_cons_space rfl, getString_word hne hword]
      intro c hc
      cases hc
      rfl
    have hipread : getString (some (32 :: (e.2 ++ entries.flatMap listEntry))) =
        (e.2, some (entries.flatMap listEntry)) := by
      rw [getString_cons_space rfl, hip]
      exact getString_word (inetNtop_ne_nil sAddr) (isWord_inetNtop sAddr) hhead
    rw [List.length_cons, readClients]
    simp only [hname, hipread]
    rw [ih (fun e he => h e (List.mem_cons_of_mem _ he))
      fun e he => hwords e (List.mem_cons_of_mem _ he)]

/-- Names that are read are words, and behind an empty one nothing is read. -/
theorem of_mem_readClients {n : Nat} {iss : Option Bytes} {e : Bytes × Bytes}
    (h : e ∈ readClients n iss) : IsWord e.1 ∧ (e.1 = [] → e.2 = []) := by
  induction n generalizing iss with
  | zero => exact absurd h List.not_mem_nil
  | succ n ih =>
    rw [readClients] at h
    rcases List.mem_cons.mp h with rfl | h
    · refine ⟨isWord_getString iss, fun hnil => ?_⟩
      show (getString (getString iss).2).1 = []
      rw [getString_snd_of_nil hnil]
      rfl
    · exact ih h

theorem parseList_listAnswer {entries : List (Bytes × Bytes)} (h : ∀ e ∈ entries, Entry e)
    (hwords : ∀ e ∈ entries, e.1 ≠ [] ∧ IsWord e.1)
    (hlen : (listAnswer entries).length < answerSize) :
    parseList (listAnswer entries) = some ((entries.length : Int), entries) := by
  have hcount : entries.length < 2 ^ 31 := by
    have hle := length_le_entriesLength entries
    rw [length_listAnswer] at hlen
    have hsize : answerSize = 4096 := rfl
    omega
  have hcmd : getString (some (listAnswer entries)) =
      (ascii "LIST", some (32 :: (decimal entries.length ++ entries.flatMap listEntry))) := by
    have htext : listAnswer entries =
        ascii "LIST" ++ 32 :: (decimal entries.length ++ entries.flatMap listEntry) := by
      simp [listAnswer, ascii]
    rw [htext]
    refine getString_word (by decide) (by decide) fun c hc => ?_
    cases hc
    rfl
  have hint : getInt (some (32 :: (decimal entries.length ++ entries.flatMap listEntry))) =
      (some (entries.length : Int), some (entries.flatMap listEntry)) := by
    rw [getInt_cons_space rfl]
    refine getInt_decimal hcount fun c hc => ?_
    rw [head?_flatMap_listEntry entries c hc]
    rfl
  rw [parseList, response_listAnswer h, if_pos hlen]
  simp only [hcmd, hint, Option.map_some, Int.toNat_natCast]
  rw [readClients_flatMap h hwords]

theorem of_parseList {datagram : Bytes} {n : Int} {entries : List (Bytes × Bytes)}
    (h : parseList datagram = some (n, entries)) :
    (response datagram).isSome ∧ ∀ e ∈ entries, IsWord e.1 ∧ (e.1 = [] → e.2 = []) := by
  unfold parseList at h
  split at h
  case h_1 => cases h
  case h_2 text htext =>
    obtain ⟨m, -, hm⟩ := Option.map_eq_some_iff.mp h
    rw [Prod.mk.injEq] at hm
    rw [htext, ← hm.2]
    exact ⟨rfl, fun e he => of_mem_readClients he⟩

/-! ## The answer decodes to the registry -/

/-- The client program reads the registry that the server holds. -/
def Decodes (clients : Clients) : Prop :=
  parseList (listAnswer clients.entries) = some ((clients.entries.length : Int), clients.entries)

/-- A name that is not a word, or is empty, is not read back. -/
theorem words_of_decodes {rs : List Registration} (h : Decodes (clientsAfter rs)) :
    ∀ e ∈ (clientsAfter rs).entries, e.1 ≠ [] ∧ IsWord e.1 := by
  intro e he
  obtain ⟨hword, hnil⟩ := (of_parseList h).2 e he
  obtain ⟨-, sAddr, hip⟩ := entry_of_mem he
  refine ⟨fun hempty => ?_, hword⟩
  rw [hnil hempty] at hip
  exact inetNtop_ne_nil sAddr hip.symm

/-- The names in the registry and those in the datagrams have the same
properties. -/
theorem forall_names_iff {rs : List Registration} {P : Bytes → Prop} :
    (∀ e ∈ (clientsAfter rs).entries, P e.1) ↔
      ∀ r ∈ rs, ∀ name, regName r.data = some name → P name := by
  constructor
  · intro h r hr name hname
    have hkey : name ∈ (clientsAfter rs).keys := mem_keys_clientsAfter.mpr ⟨r, hr, hname⟩
    obtain ⟨e, he, rfl⟩ := List.mem_map.mp hkey
    exact h e he
  · intro h e he
    have hkey : e.1 ∈ (clientsAfter rs).keys := List.mem_map_of_mem he
    obtain ⟨r, hr, hname⟩ := mem_keys_clientsAfter.mp hkey
    exact h r hr e.1 hname

/-- The answer decodes to the registry when every name ever registered is a
nonempty text without white space and the clients fit the buffer, and not
otherwise. -/
theorem decodes_iff (rs : List Registration) :
    Decodes (clientsAfter rs) ↔
      (∀ r ∈ rs, ∀ name, regName r.data = some name → name ≠ [] ∧ IsWord name) ∧
      5 + (decimal (clientsAfter rs).entries.length).length +
        entriesLength (clientsAfter rs).entries < answerSize := by
  have hentries : ∀ e ∈ (clientsAfter rs).entries, Entry e := fun e he => entry_of_mem he
  rw [← forall_names_iff (P := fun name => name ≠ [] ∧ IsWord name), ← length_listAnswer]
  constructor
  · intro h
    refine ⟨words_of_decodes h, ?_⟩
    have hsome := (of_parseList h).1
    rw [response_listAnswer hentries] at hsome
    by_contra hlen
    rw [if_neg hlen] at hsome
    cases hsome
  · intro h
    exact parseList_listAnswer hentries h.1 h.2

/-- One client that registers as `a b` from 10.0.0.1. -/
def spacedName : Registration where
  clientIp := 0x0a000001
  data := ascii "REG a b"
  short := by decide

theorem spacedName_not_decoded : ¬ ∀ rs, Decodes (clientsAfter rs) := by
  intro h
  have hword := (words_of_decodes (h [spacedName]) (ascii "a b", inetNtop 0x0a000001)
    List.mem_cons_self).2
  exact absurd hword (by decide)

end Registry
end Sharing
end NetLab
