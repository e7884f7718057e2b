import Mathlib.Data.Set.Card
import NetLab.Chat.ProcessRoom
import NetLab.Chat.ThreadRoom
import NetLab.Library.Counting

/-!
# The slots of the two registries

Both chat rooms write a new client behind the last entry in use and never reuse
an entry.  A client that leaves has its entry cleared, but the count stays, so
the arrays fill with all the clients there ever were.
-/

namespace NetLab
namespace Chat

open Transition

/-! ## The room with threads -/

namespace ThreadRoom

/-- The entries of `g_sockets`. -/
def slots : Nat := 1024

/-- The index at which a step stores a socket. -/
def storeIndex (s : RoomState) : RoomAction → Option Nat
  | .register => some s.gCount
  | _ => none

/-- A step stores inside the array, and the count stays inside it. -/
structure InBounds (s : RoomState) (a : RoomAction) : Prop where
  store : ∀ n, storeIndex s a = some n → n < slots
  count : ∀ s', roomStep s a = some s' → s'.gCount ≤ slots

/-- The descriptors that are open for a client. -/
def connected (s : RoomState) : Set Nat := {d | s.fds d ≠ none}

theorem handlerStep_gCount {s s' : RoomState} {i : Nat} {t : Handler} {a : RoomAction}
    (h : s.handlerStep i t a = some s') : s'.gCount = s.gCount := by
  cases a with
  | recv j data =>
    simp only [RoomState.handlerStep, Option.ite_none_right_eq_some, Option.some.injEq] at h
    exact h.2 ▸ rfl
  | recvEnds j =>
    simp only [RoomState.handlerStep, Option.ite_none_right_eq_some, Option.some.injEq] at h
    exact h.2 ▸ rfl
  | broadcast j =>
    simp only [RoomState.handlerStep] at h
    split at h
    · exact Option.some.inj h ▸ rfl
    · cases h
  | clear j =>
    simp only [RoomState.handlerStep, Option.ite_none_right_eq_some, Option.some.injEq] at h
    exact h.2 ▸ rfl
  | close j =>
    simp only [RoomState.handlerStep, Option.ite_none_right_eq_some, Option.some.injEq] at h
    exact h.2 ▸ rfl
  | accept _ | acceptFails | register | spawn | spawnFails => cases h

theorem mainStep_gCount {s s' : RoomState} {a : RoomAction} (h : s.mainStep a = some s') :
    s'.gCount = s.gCount + if a == .register then 1 else 0 := by
  cases a with
  | accept fd =>
    simp only [RoomState.mainStep, Option.ite_none_right_eq_some, Option.some.injEq] at h
    exact h.2 ▸ rfl
  | acceptFails =>
    simp only [RoomState.mainStep, Option.ite_none_right_eq_some, Option.some.injEq] at h
    exact h.2 ▸ rfl
  | register =>
    simp only [RoomState.mainStep] at h
    split at h
    · exact Option.some.inj h ▸ rfl
    · cases h
  | spawn =>
    simp only [RoomState.mainStep] at h
    split at h
    · exact Option.some.inj h ▸ rfl
    · cases h
  | spawnFails =>
    simp only [RoomState.mainStep] at h
    split at h
    · exact Option.some.inj h ▸ rfl
    · cases h
  | recv _ _ | recvEnds _ | broadcast _ | clear _ | close _ => cases h

/-- The count is the number of clients that were ever registered. -/
theorem counts_register : room.Counts (· == .register) RoomState.gCount := by
  intro s a s' hs
  change roomStep s a = some s' at hs
  rw [roomStep] at hs
  split at hs
  · rename_i i hi
    obtain ⟨t, -, hs⟩ := Option.bind_eq_some_iff.mp hs
    have ha : (a == .register) = false := by
      cases a with
      | register => cases hi
      | _ => rfl
    rw [handlerStep_gCount hs]
    show s.gCount = s.gCount + if a == .register then 1 else 0
    rw [ha]
    rfl
  · exact mainStep_gCount hs

/-- A step stays inside the array exactly if there is room for what it adds. -/
theorem inBounds_iff {s s' : RoomState} {a : RoomAction} (hs : s.gCount ≤ slots)
    (hstep : room.step s a = some s') :
    InBounds s a ↔ ((a == .register) = true → s.gCount < slots) := by
  have hcount := counts_register s a s' hstep
  cases a with
  | register =>
    have hone : s'.gCount = s.gCount + 1 := hcount
    constructor
    · intro h _
      exact h.store s.gCount rfl
    · intro h
      have hlt := h rfl
      refine ⟨fun n hn => Option.some.inj hn ▸ hlt, fun t ht => ?_⟩
      obtain rfl := Option.some.inj (hstep.symm.trans ht)
      omega
  | _ =>
    refine iff_of_true ⟨fun n hn => (by cases hn), fun t ht => ?_⟩ fun hr => (by cases hr)
    obtain rfl := Option.some.inj (hstep.symm.trans ht)
    exact hcount ▸ hs

/-- The stores of a run stay inside the array exactly if it registers no more
clients than there are slots. -/
theorem along_inBounds_iff {s : RoomState} {l : List RoomAction}
    (hrun : room.run .start l = some s) :
    room.Along InBounds .start l ↔ l.count .register ≤ slots := by
  have h := counts_register.along_iff (b := slots) (P := InBounds)
    (fun _ _ _ _ hs hstep => inBounds_iff hs hstep) (.init rfl) (Nat.zero_le _) hrun
  rw [h]
  show 0 + _ ≤ _ ↔ _
  rw [Nat.zero_add]
  rfl

/-! ### One client after the other -/

/-- A client connects under descriptor 4 and leaves again. -/
def visit (n : Nat) : List RoomAction :=
  [.accept 4, .register, .spawn] ++ [.recvEnds n, .clear n, .close n]

/-- The first `n` clients, one after the other. -/
def visits (n : Nat) : List RoomAction := (List.range n).flatMap visit

theorem visits_succ (n : Nat) : visits (n + 1) = visits n ++ visit n := by
  rw [visits, List.range_succ, List.flatMap_append, List.flatMap_singleton]
  rfl

theorem count_visits (n : Nat) : (visits n).count .register = n := by
  induction n with
  | zero => rfl
  | succ n ih =>
    rw [visits_succ, List.count_append, ih]
    rfl

/-- No descriptor but 4 is open for a client. -/
def OnlyFour (s : RoomState) : Prop := ∀ d, d ≠ 4 → s.fds d = none

/-- Between two visits. -/
structure Quiet (s : RoomState) (n : Nat) : Prop where
  main : s.main = .accepting
  closed : ∀ d, s.fds d = none
  handlers : s.handlers.length = n

theorem OnlyFour.update {s : RoomState} (h : OnlyFour s) (file : Option Nat) :
    ∀ d, d ≠ 4 → Function.update s.fds 4 file d = none :=
  fun d hd => (Function.update_of_ne hd _ _).trans (h d hd)

theorem OnlyFour.encard_le {s : RoomState} (h : OnlyFour s) : (connected s).encard ≤ 1 := by
  have hsub : connected s ⊆ {4} := by
    intro d hd
    by_contra hne
    exact hd (h d hne)
  exact (Set.encard_le_encard hsub).trans (Set.encard_singleton 4).le

theorem getElem?_setPc {s : RoomState} {i : Nat} {t : Handler} (ht : s.handlers[i]? = some t)
    (pc : HandlerPc) : (s.setPc i t pc).handlers[i]? = some { t with pc := pc } :=
  List.getElem?_set_self (List.getElem?_eq_some_iff.mp ht).1

theorem arrive {s : RoomState} {n : Nat} (h : Quiet s n) :
    ∃ u, room.run s [.accept 4, .register, .spawn] = some u ∧ u.main = .accepting ∧
      u.handlers =
        s.handlers ++ [{ clientSocket := 4, clientIndex := s.gCount, pc := .receiving }] ∧
      OnlyFour u ∧ room.Throughout OnlyFour s [.accept 4, .register, .spawn] := by
  have hfour : OnlyFour s := fun d _ => h.closed d
  obtain ⟨s₁, hs₁⟩ : ∃ s₁, s₁ = s.acceptStep 4 := ⟨_, rfl⟩
  obtain ⟨s₂, hs₂⟩ : ∃ s₂, s₂ = s₁.registerStep 4 s.nextClient := ⟨_, rfl⟩
  have haccept : room.step s (.accept 4) = some s₁ := by
    show RoomState.mainStep s (.accept 4) = _
    rw [RoomState.mainStep, if_pos ⟨h.main, Nat.zero_lt_succ 3, h.closed 4⟩, hs₁]
  have hregister : room.step s₁ .register = some s₂ := by
    rw [hs₂, hs₁]
    rfl
  have hspawn : room.step s₂ .spawn = some (s₂.spawnStep 4 s.gCount) := by
    rw [hs₂, hs₁]
    rfl
  have hopen : OnlyFour s₁ := hs₁ ▸ hfour.update _
  refine ⟨s₂.spawnStep 4 s.gCount, ?_, rfl, ?_, ?_, ?_⟩
  · rw [System.run_cons haccept, System.run_cons hregister, System.run_cons hspawn]
    rfl
  · rw [hs₂, hs₁]
    rfl
  · rw [hs₂]
    exact hopen
  · rw [System.throughout_cons haccept, System.throughout_cons hregister,
      System.throughout_cons hspawn, hs₂]
    exact ⟨hfour, hopen, hopen, hopen⟩

theorem leave {s : RoomState} {i : Nat} {t : Handler} (ht : s.handlers[i]? = some t)
    (hpc : t.pc = .receiving) (hsocket : t.clientSocket = 4) (hfour : OnlyFour s) :
    ∃ u, room.run s [.recvEnds i, .clear i, .close i] = some u ∧ u.main = s.main ∧
      u.handlers.length = s.handlers.length ∧ (∀ d, u.fds d = none) ∧
      room.Throughout OnlyFour s [.recvEnds i, .clear i, .close i] := by
  obtain ⟨s₁, hs₁⟩ : ∃ s₁, s₁ = s.setPc i t .ended := ⟨_, rfl⟩
  obtain ⟨s₂, hs₂⟩ : ∃ s₂ : RoomState, s₂ =
    { s₁.setPc i { t with pc := .ended } .cleared with
      gSockets := Function.update s₁.gSockets t.clientIndex 0 } := ⟨_, rfl⟩
  have hends : room.step s (.recvEnds i) = some s₁ := by
    show (s.handlers[i]?).bind _ = _
    rw [ht, Option.bind_some, RoomState.handlerStep, if_pos hpc, hs₁]
  have ht₁ : s₁.handlers[i]? = some { t with pc := .ended } := hs₁ ▸ getElem?_setPc ht _
  have hclear : room.step s₁ (.clear i) = some s₂ := by
    show (s₁.handlers[i]?).bind _ = _
    rw [ht₁, Option.bind_some, RoomState.handlerStep, if_pos rfl, hs₂]
  have ht₂ : s₂.handlers[i]? = some { t with pc := .cleared } := hs₂ ▸ getElem?_setPc ht₁ _
  obtain ⟨s₃, hs₃⟩ : ∃ s₃ : RoomState, s₃ =
    { s₂.setPc i { t with pc := .cleared } .finished with
      fds := Function.update s₂.fds t.clientSocket none } := ⟨_, rfl⟩
  have hclose : room.step s₂ (.close i) = some s₃ := by
    show (s₂.handlers[i]?).bind _ = _
    rw [ht₂, Option.bind_some, RoomState.handlerStep, if_pos rfl, hs₃]
  have hfds : s₂.fds = s.fds := by
    rw [hs₂, hs₁]
    rfl
  have hclosed : ∀ d, s₃.fds d = none := by
    intro d
    rw [hs₃]
    show Function.update s₂.fds t.clientSocket none d = none
    rw [hsocket, hfds]
    by_cases hd : d = 4
    · rw [hd, Function.update_self]
    · exact hfour.update none d hd
  refine ⟨s₃, ?_, ?_, ?_, hclosed, ?_⟩
  · rw [System.run_cons hends, System.run_cons hclear, System.run_cons hclose]
    rfl
  · rw [hs₃, hs₂, hs₁]
    rfl
  · simp only [RoomState.setPc, hs₃, hs₂, hs₁, List.length_set]
  · rw [System.throughout_cons hends, System.throughout_cons hclear,
      System.throughout_cons hclose]
    refine ⟨hfour, ?_, ?_, fun d _ => hclosed d⟩
    · rw [hs₁]
      exact hfour
    · intro d hd
      rw [hfds]
      exact hfour d hd

theorem Quiet.visit {s : RoomState} {n : Nat} (h : Quiet s n) :
    ∃ u, room.run s (visit n) = some u ∧ Quiet u (n + 1) ∧
      room.Throughout OnlyFour s (visit n) := by
  obtain ⟨u, hrun, hmain, hhandlers, hfour, hthrough⟩ := arrive h
  have ht : u.handlers[n]? =
      some { clientSocket := 4, clientIndex := s.gCount, pc := .receiving } := by
    rw [hhandlers, ← h.handlers]
    exact List.getElem?_concat_length
  obtain ⟨v, hrun', hmain', hlen, hclosed, hthrough'⟩ := leave ht rfl rfl hfour
  refine ⟨v, ?_, ⟨hmain'.trans hmain, hclosed, ?_⟩, hthrough.append hrun hthrough'⟩
  · rw [ThreadRoom.visit, System.run_append hrun, hrun']
  · rw [hlen, hhandlers, List.length_append, h.handlers]
    rfl

/-- Any number of clients can come one after the other. -/
theorem run_visits (n : Nat) :
    ∃ s, room.run .start (visits n) = some s ∧ Quiet s n ∧
      room.Throughout OnlyFour .start (visits n) := by
  induction n with
  | zero => exact ⟨.start, rfl, ⟨rfl, fun _ => rfl, rfl⟩, fun _ _ => rfl⟩
  | succ n ih =>
    obtain ⟨s, hrun, hquiet, hthrough⟩ := ih
    obtain ⟨u, hrun', hquiet', hthrough'⟩ := hquiet.visit
    refine ⟨u, ?_, hquiet', ?_⟩
    · rw [visits_succ, System.run_append hrun, hrun']
    · rw [visits_succ]
      exact hthrough.append hrun hthrough'

end ThreadRoom

/-! ## The room with processes -/

namespace ProcessRoom

open Descriptors

/-- The index at which a step stores a socket. -/
def storeIndex (r : RoomState) : RoomAction → Option Nat
  | .connect => some r.sockets.length
  | _ => none

/-- A step stores inside the array, and the count stays inside it.  What the
count is after a store past the end is not known. -/
structure InBounds (k : RoomConfig) (r : RoomState) (a : RoomAction) : Prop where
  store : ∀ n, storeIndex r a = some n → n < maxClients
  count : ∀ r', roomStep k r a = some r' → r'.corrupt = false ∧ r'.sockets.length ≤ maxClients

/-- How many children read from their clients. -/
def connected (r : RoomState) : Nat := r.children.countP (·.alive)

variable {k : RoomConfig}

/-- Each connection adds a child, and no child is ever removed. -/
theorem counts_connect : (room k).Counts (· == .connect) fun r => r.children.length := by
  intro r a r' hs
  change roomStep k r a = some r' at hs
  cases a with
  | connect =>
    simp only [roomStep, Option.some.injEq] at hs
    rw [← hs]
    exact List.length_append
  | message c =>
    simp only [roomStep] at hs
    split at hs
    · cases hs
    · simp only [Option.ite_none_right_eq_some, Option.some.injEq] at hs
      exact hs.2 ▸ rfl
  | disconnect c =>
    simp only [roomStep] at hs
    split at hs
    · cases hs
    · simp only [Option.ite_none_right_eq_some, Option.some.injEq] at hs
      rw [← hs.2]
      exact List.length_set

theorem inBounds_iff {r r' : RoomState} {a : RoomAction} (hreach : (room k).Reachable r)
    (hr : r.children.length ≤ maxClients) (hstep : (room k).step r a = some r') :
    InBounds k r a ↔ ((a == .connect) = true → r.children.length < maxClients) := by
  have hcount := counts_connect r a r' hstep
  have hlen := (uniform hreach).length
  have hnext := uniform (hreach.step hstep)
  have hlen' := hnext.length
  have hstays : r'.children.length ≤ maxClients →
      r'.corrupt = false ∧ r'.sockets.length ≤ maxClients := by
    intro hle
    refine ⟨?_, by omega⟩
    rw [hnext.corrupt, decide_eq_false_iff_not]
    omega
  cases a with
  | connect =>
    have hone : r'.children.length = r.children.length + 1 := hcount
    constructor
    · intro h _
      have hlt := h.store r.sockets.length rfl
      omega
    · intro h
      have hlt := h rfl
      refine ⟨fun n hn => ?_, fun t ht => ?_⟩
      · obtain rfl := Option.some.inj hn
        omega
      · obtain rfl := Option.some.inj (hstep.symm.trans ht)
        exact hstays (by omega)
  | _ =>
    have hsame : r'.children.length = r.children.length := hcount
    refine iff_of_true ⟨fun n hn => (by cases hn), fun t ht => ?_⟩ fun hc => (by cases hc)
    obtain rfl := Option.some.inj (hstep.symm.trans ht)
    exact hstays (by omega)

/-- As for the room with threads. -/
theorem along_inBounds_iff {r : RoomState} {l : List RoomAction}
    (hrun : (room k).run (.start k) l = some r) :
    (room k).Along (InBounds k) (.start k) l ↔ l.count .connect ≤ maxClients := by
  have h := counts_connect.along_iff (b := maxClients) (P := InBounds k)
    (fun _ _ _ hreach hr hstep => inBounds_iff hreach hr hstep) (.init rfl) (Nat.zero_le _) hrun
  rw [h]
  show 0 + _ ≤ _ ↔ _
  rw [Nat.zero_add]
  rfl

/-! ### One client after the other -/

/-- The first `n` clients, one after the other. -/
def visits (n : Nat) : List RoomAction := (List.range n).flatMap fun c => [.connect, .disconnect c]

theorem visits_succ (n : Nat) : visits (n + 1) = visits n ++ [.connect, .disconnect n] := by
  rw [visits, List.range_succ, List.flatMap_append, List.flatMap_singleton]
  rfl

theorem count_visits (n : Nat) : (visits n).count .connect = n := by
  induction n with
  | zero => rfl
  | succ n ih =>
    rw [visits_succ, List.count_append, ih]
    rfl

/-- Between two visits. -/
structure Quiet (r : RoomState) (n : Nat) : Prop where
  length : r.children.length = n
  nobody : connected r = 0

theorem Quiet.visit {r : RoomState} {n : Nat} (h : Quiet r n) :
    ∃ u, (room k).run r [.connect, .disconnect n] = some u ∧ Quiet u (n + 1) ∧
      (room k).Throughout (fun r => connected r ≤ 1) r [.connect, .disconnect n] := by
  obtain ⟨child, hchild⟩ : ∃ child : Child, child =
    { table := close (install (.conn r.children.length) r.table) k.s,
      mySocket := lowestFree r.table, alive := true } := ⟨_, rfl⟩
  have hconnect : (room k).step r .connect = some (r.connect k) := rfl
  have hchildren : (r.connect k).children = r.children ++ [child] := by
    rw [hchild]
    rfl
  have hlast : (r.connect k).children[n]? = some child := by
    rw [hchildren, ← h.length]
    exact List.getElem?_concat_length
  have halive : child.alive = true := by rw [hchild]
  obtain ⟨u, hu⟩ : ∃ u : RoomState, u =
    { r.connect k with
      sockets := clearFirst child.mySocket (r.connect k).sockets
      children := (r.connect k).children.set n { child with alive := false } } := ⟨_, rfl⟩
  have hleave : (room k).step (r.connect k) (.disconnect n) = some u := by
    show roomStep k (r.connect k) (.disconnect n) = _
    simp only [roomStep, hlast]
    rw [if_pos halive, hu]
  have hset : u.children = r.children ++ [{ child with alive := false }] := by
    rw [hu, hchildren, ← h.length]
    show (r.children ++ [child]).set r.children.length _ = _
    rw [List.set_append_right _ _ (Nat.le_refl _), Nat.sub_self]
    rfl
  have hone : connected (r.connect k) = 1 := by
    rw [connected, hchildren, List.countP_append, ← connected, h.nobody, List.countP_singleton,
      if_pos halive]
  have hnone : connected u = 0 := by
    rw [connected, hset, List.countP_append, ← connected, h.nobody]
    rfl
  refine ⟨u, ?_, ⟨?_, hnone⟩, ?_⟩
  · rw [System.run_cons hconnect, System.run_cons hleave]
    rfl
  · rw [hset, List.length_append, h.length]
    rfl
  · rw [System.throughout_cons hconnect, System.throughout_cons hleave]
    exact ⟨h.nobody.le.trans (Nat.zero_le 1), hone.le, hnone.le.trans (Nat.zero_le 1)⟩

theorem run_visits (n : Nat) :
    ∃ r, (room k).run (.start k) (visits n) = some r ∧ Quiet r n ∧
      (room k).Throughout (fun r => connected r ≤ 1) (.start k) (visits n) := by
  induction n with
  | zero => exact ⟨.start k, rfl, ⟨rfl, rfl⟩, Nat.zero_le 1⟩
  | succ n ih =>
    obtain ⟨r, hrun, hquiet, hthrough⟩ := ih
    obtain ⟨u, hrun', hquiet', hthrough'⟩ := hquiet.visit (k := k)
    refine ⟨u, ?_, hquiet', ?_⟩
    · rw [visits_succ, System.run_append hrun, hrun']
    · rw [visits_succ]
      exact hthrough.append hrun hthrough'

end ProcessRoom

/-! ## Both rooms -/

/-- Neither array overflows in a run that registers at most 1024 clients, those
that have left included, and each overflows in every other run. -/
theorem registries_in_bounds_iff (k : ProcessRoom.RoomConfig) :
    (∀ l s, ThreadRoom.room.run .start l = some s →
      (ThreadRoom.room.Along ThreadRoom.InBounds .start l ↔ l.count .register ≤ 1024)) ∧
    ∀ l r, (ProcessRoom.room k).run (.start k) l = some r →
      ((ProcessRoom.room k).Along (ProcessRoom.InBounds k) (.start k) l ↔
        l.count .connect ≤ 1024) :=
  ⟨fun _ _ hrun => ThreadRoom.along_inBounds_iff hrun,
    fun _ _ hrun => ProcessRoom.along_inBounds_iff hrun⟩

/-- The parent of the room with processes after `listen`. -/
def listeningParent : ProcessRoom.RoomConfig where
  table := [some .other, some .other, some .other, some .listening]
  s := 3
  listening := rfl

/-- One client stays in each room. -/
theorem registries_in_bounds_one :
    ThreadRoom.room.Along ThreadRoom.InBounds .start [.accept 4, .register, .spawn] ∧
      (ProcessRoom.room listeningParent).Along (ProcessRoom.InBounds listeningParent)
        (.start listeningParent) [.connect] :=
  ⟨((registries_in_bounds_iff listeningParent).1 _ _ rfl).mpr (by decide),
    ((registries_in_bounds_iff listeningParent).2 _ _ rfl).mpr (by decide)⟩

/-- 1025 clients come one after the other, and never two are connected. -/
theorem registries_overflow :
    (¬ ∀ l s, ThreadRoom.room.run .start l = some s →
      ThreadRoom.room.Throughout (fun s => (ThreadRoom.connected s).encard ≤ 1000) .start l →
      ThreadRoom.room.Along ThreadRoom.InBounds .start l) ∧
    ¬ ∀ k l r, (ProcessRoom.room k).run (.start k) l = some r →
      (ProcessRoom.room k).Throughout (fun r => ProcessRoom.connected r ≤ 1000) (.start k) l →
      (ProcessRoom.room k).Along (ProcessRoom.InBounds k) (.start k) l := by
  obtain ⟨n, hn⟩ : ∃ n, n = 1025 := ⟨_, rfl⟩
  constructor
  · intro h
    obtain ⟨s, hrun, -, hthrough⟩ := ThreadRoom.run_visits n
    have hfew := hthrough.mono (Q := fun s => (ThreadRoom.connected s).encard ≤ 1000)
      fun _ hs => hs.encard_le.trans (by norm_num)
    have hle := (ThreadRoom.along_inBounds_iff hrun).mp (h _ s hrun hfew)
    rw [ThreadRoom.count_visits, ThreadRoom.slots] at hle
    omega
  · intro h
    obtain ⟨r, hrun, -, hthrough⟩ := ProcessRoom.run_visits (k := listeningParent) n
    have hfew := hthrough.mono (Q := fun r => ProcessRoom.connected r ≤ 1000)
      fun _ hr => hr.trans (by decide)
    have hle := (ProcessRoom.along_inBounds_iff hrun).mp (h _ _ r hrun hfew)
    rw [ProcessRoom.count_visits, ProcessRoom.maxClients] at hle
    omega

end Chat
end NetLab
