import NetLab.Library.History
import NetLab.Sharing.Registry

/-!
# The LIST service

Each turn of the server's loop serves the registration port and then the listing
port, those of them that `select` reports.  Over the whole run of the loop, an
answer lists the names registered so far, each with its last address.
-/

namespace NetLab
namespace Sharing
namespace Registry

open CString Inet Insertion

/-- A datagram to the listing port, with where it came from. -/
structure Asked where
  clientIp : UInt32
  clientPort : UInt16
  data : Bytes
  short : data.length < bufferSize

/-- What a turn of the loop finds on the two sockets. -/
structure Turn where
  reg : Option Registration
  list : Option Asked

/-- A datagram the server sends, with where it goes. -/
structure Answer where
  clientIp : UInt32
  clientPort : UInt16
  text : Bytes
  deriving DecidableEq

/-- `if (FD_ISSET(reg_sock, &rfds))`. -/
def serveReg (clients : Clients) : Option Registration → Clients
  | some r => register clients r
  | none => clients

/-- `sendto(list_sock, ...)`.  The call fails, and the server goes on, when no
datagram holds the text. -/
def sendAnswer (q : Asked) (text : Bytes) : List Answer :=
  if maxDatagram < text.length then []
  else [{ clientIp := q.clientIp, clientPort := q.clientPort, text := text }]

/-- `if (FD_ISSET(list_sock, &rfds))`. -/
def answer (clients : Clients) : Option Asked → List Answer
  | some q => (serveList clients q.data).toList.flatMap (sendAnswer q)
  | none => []

/-- One turn of the loop. -/
def serverTurn (clients : Clients) (t : Turn) : Clients × List Answer :=
  (serveReg clients t.reg, answer (serveReg clients t.reg) t.list)

/-- The registrations of some turns. -/
def registrations (turns : List Turn) : List Registration := turns.filterMap fun t => t.reg

/-- The address `name` was registered from last. -/
def lastIp (rs : List Registration) (name : Bytes) : Option Bytes :=
  (rs.reverse.find? fun r => regName r.data = some name).map fun r => inetNtop r.clientIp

/-- The names registered, in order, each once and with its last address. -/
structure Directory (rs : List Registration) (l : List (Bytes × Bytes)) : Prop where
  sorted : l.Pairwise fun a b => a.1 < b.1
  mem_iff : ∀ name ip, (name, ip) ∈ l ↔ lastIp rs name = some ip

/-! ## The registry as a directory -/

theorem lastIp_concat (rs : List Registration) (r : Registration) (name : Bytes) :
    lastIp (rs ++ [r]) name =
      if regName r.data = some name then some (inetNtop r.clientIp) else lastIp rs name := by
  rw [lastIp, List.reverse_append, List.reverse_singleton, List.singleton_append,
    List.find?_cons]
  by_cases h : regName r.data = some name
  · rw [if_pos h, decide_eq_true h]
    rfl
  · rw [if_neg h, decide_eq_false h]
    rfl

theorem lookup_clientsAfter (rs : List Registration) (name : Bytes) :
    (clientsAfter rs).lookup name = lastIp rs name := by
  induction rs using List.reverseRecOn with
  | nil => rfl
  | append_singleton rs r ih =>
    rw [clientsAfter_concat, lastIp_concat]
    by_cases h : regName r.data = some name
    · rw [lookup_register _ h, Function.update_self, if_pos h]
    · rw [if_neg h, ← ih]
      cases hother : regName r.data with
      | none => rw [register, hother]
      | some n =>
        have hne : name ≠ n := fun he => h (he ▸ hother)
        rw [lookup_register _ hother, Function.update_of_ne hne]

theorem directory_clientsAfter (rs : List Registration) :
    Directory rs (clientsAfter rs).entries where
  sorted := (clientsAfter rs).sorted
  mem_iff name ip := by
    rw [SortedMap.mem_entries_iff, lookup_clientsAfter]

/-- There is one directory. -/
theorem Directory.unique {rs : List Registration} {l l' : List (Bytes × Bytes)}
    (h : Directory rs l) (h' : Directory rs l') : l = l' :=
  SortedMap.sorted_unique h.sorted h'.sorted fun e =>
    (h.mem_iff e.1 e.2).trans (h'.mem_iff e.1 e.2).symm

/-! ## The names of the client program -/

/-- `my_name`. -/
def myName (n : Nat) : Bytes := ascii "uname_" ++ decimal n

/-- `reg_msg`. -/
def regMsg (n : Nat) : Bytes := ascii "REG " ++ myName n

theorem isWord_myName (n : Nat) : IsWord (myName n) :=
  isWord_append (by decide) (isWord_decimal n)

theorem zero_notMem_myName (n : Nat) : 0 ∉ myName n := by
  intro h
  rcases List.mem_append.mp h with h | h
  · exact absurd h (by decide)
  · have hdigit := isdigit_of_mem_decimal h
    contradiction

theorem length_myName_le {n : Nat} (hn : n < 10000) : (myName n).length ≤ 10 := by
  have hdigits : (decimal n).length ≤ 4 := length_decimal_le (by decide) hn
  have hfix : (ascii "uname_").length = 6 := rfl
  rw [myName, List.length_append, hfix]
  omega

theorem regName_regMsg {n : Nat} (hn : n < 10000) : regName (regMsg n) = some (myName n) := by
  have hlen := length_myName_le hn
  have hfix : (ascii "REG ").length = 4 := rfl
  have hshort : (regMsg n).length ≤ bufferSize := by
    rw [regMsg, List.length_append, hfix, bufferSize]
    omega
  have hzero : 0 ∉ regMsg n := by
    intro h
    rcases List.mem_append.mp h with h | h
    · exact absurd h (by decide)
    · exact zero_notMem_myName n h
  have hreceived : received (regMsg n) = ascii "REG " ++ myName n := by
    rw [received, List.take_of_length_le hshort, cstr_eq_self hzero, regMsg]
  rw [regName, hreceived, List.take_left' hfix, if_pos rfl, List.drop_left' hfix]

/-! ## The answers of a whole run -/

theorem answer_of_list (clients : Clients) {q : Asked} (h : received q.data = ascii "LIST") :
    answer clients (some q) = sendAnswer q (listAnswer clients.entries) := by
  rw [answer, serveList, if_pos h, Option.toList_some, List.flatMap_singleton]

theorem registrations_concat (turns : List Turn) (t : Turn) :
    registrations (turns ++ [t]) = registrations turns ++ t.reg.toList := by
  rw [registrations, List.filterMap_append]
  refine congrArg (registrations turns ++ ·) ?_
  cases h : t.reg <;> simp [h]

theorem run_serverTurn (turns : List Turn) :
    (run serverTurn .empty turns).1 = clientsAfter (registrations turns) := by
  induction turns using List.reverseRecOn with
  | nil => rfl
  | append_singleton turns t ih =>
    rw [History.run_concat, ih, registrations_concat]
    show serveReg _ t.reg = _
    cases t.reg with
    | none =>
      rw [Option.toList_none, List.append_nil]
      rfl
    | some r => exact (clientsAfter_concat _ r).symm

theorem sent_concat (turns : List Turn) (t : Turn) :
    (run serverTurn .empty (turns ++ [t])).2 =
      (run serverTurn .empty turns).2 ++
        answer (clientsAfter (registrations (turns ++ [t]))) t.list := by
  rw [History.run_concat, ← run_serverTurn, History.run_concat]
  rfl

/-- At any point of a run the word LIST, and nothing else, is answered, to the one
who asked, with the directory of all registrations so far, those of the same turn
included.  A directory that no datagram holds is not sent. -/
theorem answers_directory (turns : List Turn) (t : Turn) {l : List (Bytes × Bytes)}
    (hl : Directory (registrations (turns ++ [t])) l) :
    (run serverTurn .empty (turns ++ [t])).2 = (run serverTurn .empty turns).2 ++
      t.list.toList.flatMap fun q =>
        if received q.data = ascii "LIST" ∧ (listAnswer l).length ≤ maxDatagram then
          [{ clientIp := q.clientIp, clientPort := q.clientPort, text := listAnswer l }]
        else [] := by
  rw [sent_concat, hl.unique (directory_clientsAfter _)]
  cases t.list with
  | none => rfl
  | some q =>
    rw [Option.toList_some, List.flatMap_singleton]
    refine congrArg ((run serverTurn .empty turns).2 ++ ·) ?_
    by_cases hasked : received q.data = ascii "LIST"
    · rw [answer_of_list _ hasked]
      by_cases hlong : maxDatagram < (listAnswer (clientsAfter
          (registrations (turns ++ [t]))).entries).length
      · rw [sendAnswer, if_pos hlong, if_neg fun h => Nat.not_le.mpr hlong h.2]
      · rw [sendAnswer, if_neg hlong, if_pos ⟨hasked, Nat.not_lt.mp hlong⟩]
    · rw [answer, serveList, if_neg hasked, if_neg fun h => hasked h.1]
      rfl

/-- Client `n` registers from `ip`. -/
def registers (ip : UInt32) (n : Fin 10) : Registration where
  clientIp := ip
  data := regMsg n
  short := by
    revert n
    decide +kernel

/-- LIST from 10.0.0.9. -/
def asks : Asked where
  clientIp := 0x0a000009
  clientPort := 7000
  data := ascii "LIST"
  short := by decide

/-- Two clients register, and the first one again in the turn of the question. -/
theorem answers_directory_again :
    (run serverTurn .empty ([⟨some (registers 0x0a000001 7), none⟩,
      ⟨some (registers 0x0a000002 5), none⟩] ++ [⟨some (registers 0x0a000003 7), some asks⟩])).2 =
    [] ++ [{ clientIp := 0x0a000009, clientPort := 7000,
             text := ascii "LIST 2 uname_5 10.0.0.2 uname_7 10.0.0.3" }] :=
  (answers_directory [⟨some (registers 0x0a000001 7), none⟩, ⟨some (registers 0x0a000002 5), none⟩]
    ⟨some (registers 0x0a000003 7), some asks⟩ (directory_clientsAfter _)).trans
      (by decide +kernel)

/-! ## A network of client programs -/

/-- What a directory of client programs contains. -/
theorem Directory.of_programs {rs : List Registration} {l : List (Bytes × Bytes)}
    (hl : Directory rs l) (hrs : ∀ r ∈ rs, ∃ n < 10000, r.data = regMsg n) {e : Bytes × Bytes}
    (he : e ∈ l) : ∃ n < 10000, ∃ sAddr, e = (myName n, inetNtop sAddr) := by
  obtain ⟨r, hr, hip⟩ := Option.map_eq_some_iff.mp ((hl.mem_iff e.1 e.2).mp he)
  have hmem : r ∈ rs := List.mem_reverse.mp (List.mem_of_find?_eq_some hr)
  have hname : regName r.data = some e.1 := by simpa using List.find?_some hr
  obtain ⟨n, hn, hdata⟩ := hrs r hmem
  rw [hdata, regName_regMsg hn, Option.some.injEq] at hname
  exact ⟨n, hn, r.clientIp, Prod.ext hname.symm hip.symm⟩

theorem entriesLength_le {k : Nat} {l : List (Bytes × Bytes)}
    (h : ∀ e ∈ l, e.1.length + e.2.length + 2 ≤ k) : entriesLength l ≤ l.length * k := by
  induction l with
  | nil => exact Nat.zero_le _
  | cons e l ih =>
    have hlater := ih fun e he => h e (List.mem_cons_of_mem _ he)
    have hfirst := h e List.mem_cons_self
    show e.1.length + e.2.length + 2 + entriesLength l ≤ (l.length + 1) * k
    rw [Nat.succ_mul]
    omega

/-- How many client programs always fit into the client's buffer. -/
def fittingClients : Nat := 151

/-- Where only client programs register, and not too many of them, each LIST is
answered, and the text of the answer, taken apart as the client program does, is
the directory. -/
theorem programs_are_listed (turns : List Turn) {t : Turn} {q : Asked} (hq : t.list = some q)
    (hlist : q.data = ascii "LIST") {l : List (Bytes × Bytes)}
    (hl : Directory (registrations (turns ++ [t])) l)
    (hprograms : ∀ r ∈ registrations (turns ++ [t]), ∃ n < 10000, r.data = regMsg n)
    (hfew : l.length ≤ fittingClients) :
    ∃ a : Answer, (run serverTurn .empty (turns ++ [t])).2 =
        (run serverTurn .empty turns).2 ++ [a] ∧
      a.clientIp = q.clientIp ∧ a.clientPort = q.clientPort ∧
      parseList a.text = some ((l.length : Int), l) := by
  have hreceived : received q.data = ascii "LIST" := by
    rw [hlist]
    decide
  have hentry : ∀ e ∈ l, Entry e := by
    intro e he
    obtain ⟨n, -, sAddr, rfl⟩ := hl.of_programs hprograms he
    exact ⟨zero_notMem_myName n, sAddr, rfl⟩
  have hword : ∀ e ∈ l, e.1 ≠ [] ∧ IsWord e.1 := by
    intro e he
    obtain ⟨n, -, sAddr, rfl⟩ := hl.of_programs hprograms he
    exact ⟨by simp [myName, ascii], isWord_myName n⟩
  have hlen : entriesLength l ≤ l.length * 27 := by
    refine entriesLength_le fun e he => ?_
    obtain ⟨n, hn, sAddr, rfl⟩ := hl.of_programs hprograms he
    have hname := length_myName_le hn
    have hip := length_inetNtop_le sAddr
    show (myName n).length + (inetNtop sAddr).length + 2 ≤ 27
    omega
  have hfits : (listAnswer l).length < answerSize := by
    have hdigits : (decimal l.length).length ≤ 3 :=
      length_decimal_le (by decide) (Nat.lt_of_le_of_lt hfew (by decide))
    rw [fittingClients] at hfew
    rw [length_listAnswer, answerSize]
    omega
  have hsent : ¬ maxDatagram < (listAnswer l).length := by
    have hsize : answerSize = 4096 := rfl
    have hmax : maxDatagram = 65507 := rfl
    omega
  refine ⟨{ clientIp := q.clientIp, clientPort := q.clientPort, text := listAnswer l }, ?_, rfl,
    rfl, parseList_listAnswer hentry hword hfits⟩
  rw [sent_concat, hq, answer_of_list _ hreceived, ← hl.unique (directory_clientsAfter _),
    sendAnswer, if_neg hsent]

/-- The same run, with the client that asks. -/
theorem programs_are_listed_again :
    ∃ a : Answer, (run serverTurn .empty ([⟨some (registers 0x0a000001 7), none⟩,
        ⟨some (registers 0x0a000002 5), none⟩] ++
          [⟨some (registers 0x0a000003 7), some asks⟩])).2 = [] ++ [a] ∧
      a.clientIp = 0x0a000009 ∧ a.clientPort = 7000 ∧
      parseList a.text =
        some (2, [(myName 5, ascii "10.0.0.2"), (myName 7, ascii "10.0.0.3")]) := by
  have hentries : (clientsAfter [registers 0x0a000001 7, registers 0x0a000002 5,
      registers 0x0a000003 7]).entries =
        [(myName 5, ascii "10.0.0.2"), (myName 7, ascii "10.0.0.3")] := by decide +kernel
  have hl := directory_clientsAfter [registers 0x0a000001 7, registers 0x0a000002 5,
    registers 0x0a000003 7]
  rw [hentries] at hl
  refine programs_are_listed [⟨some (registers 0x0a000001 7), none⟩,
    ⟨some (registers 0x0a000002 5), none⟩] (t := ⟨some (registers 0x0a000003 7), some asks⟩)
    (q := asks) rfl rfl hl ?_ (by decide)
  intro r hr
  rcases List.mem_cons.mp hr with rfl | hr
  · exact ⟨7, by decide, rfl⟩
  rcases List.mem_cons.mp hr with rfl | hr
  · exact ⟨5, by decide, rfl⟩
  · rw [List.mem_singleton.mp hr]
    exact ⟨7, by decide, rfl⟩

end Registry
end Sharing
end NetLab
