import NetLab.Chat.ThreadRoom
import NetLab.Chat.UdpRoom
import NetLab.Library.Broadcast
import NetLab.Library.History

/-!
# What the clients of the chat rooms hear

The room with threads and the room over UDP are both the room in which everyone
hears the others.
-/

namespace NetLab
namespace Chat

open Broadcast

/-! ## The room with threads -/

namespace ThreadRoom

open Transition

/-- The client that a handler serves. -/
def RoomState.client (s : RoomState) (t : Handler) : Option Nat := s.registered[t.clientIndex]?

/-- What a step is to the room. -/
def RoomState.event (s : RoomState) : RoomAction → Option (Event Nat Bytes)
  | .register =>
    match s.main with
    | .accepted _ client => some (.join client)
    | _ => none
  | .broadcast i => (s.handlers[i]?).bind fun t =>
    match t.pc with
    | .received data => (s.client t).map fun c => .say c data
    | _ => none
  | .clear i => (s.handlers[i]?).bind fun t => (s.client t).map .leave
  | _ => none

/-- What is sent on a connection. -/
def sentTo (sent : List (Option Nat × Bytes)) (c : Nat) : List Bytes :=
  (sent.filter fun m => m.1 = some c).map Prod.snd

theorem sentTo_append (sent sent' : List (Option Nat × Bytes)) (c : Nat) :
    sentTo (sent ++ sent') c = sentTo sent c ++ sentTo sent' c := by
  rw [sentTo, List.filter_append, List.map_append]
  rfl

/-- What a step changes, by what it is to the room. -/
inductive Effect (s s' : RoomState) : Option (Event Nat Bytes) → Prop
  | quiet (hlive : ∀ n, Live s' n ↔ Live s n) (hregistered : s'.registered = s.registered)
      (hsent : s'.sent = s.sent) : Effect s s' none
  | join {c : Nat} (hnew : c ∉ s.registered)
      (hlive : ∀ n, Live s' n ↔ Live s n ∨ n = s.gCount)
      (hregistered : s'.registered = s.registered ++ [c]) (hsent : s'.sent = s.sent) :
      Effect s s' (some (.join c))
  | leave {k c : Nat} (hk : k < s.gCount) (hc : s.registered[k]? = some c)
      (hlive : ∀ n, Live s' n ↔ Live s n ∧ n ≠ k) (hregistered : s'.registered = s.registered)
      (hsent : s'.sent = s.sent) : Effect s s' (some (.leave c))
  | say {t : Handler} {c : Nat} {data : Bytes} (ht : t ∈ s.handlers) (hpc : t.pc = .received data)
      (hc : s.client t = some c) (hlive : ∀ n, Live s' n ↔ Live s n)
      (hregistered : s'.registered = s.registered)
      (hsent : s'.sent = s.sent ++ s.recipients t data) : Effect s s' (some (.say c data))

section

variable {s s' : RoomState} {i : Nat} {t : Handler} {a : RoomAction}

/-- A handler that does not clear its entry changes nothing for the room. -/
theorem live_setPc (h : Inv s) (ht : s.handlers[i]? = some t) {pc : HandlerPc}
    (hpc : pc.isCleared = t.pc.isCleared) (n : Nat) : Live (s.setPc i t pc) n ↔ Live s n := by
  refine and_congr_right fun _ => not_congr ?_
  refine (cleared_setPc_iff h.indices ht pc n).trans ?_
  by_cases hn : n = t.clientIndex
  · rw [if_pos hn, hn, hpc]
    exact (cleared_index_iff h.indices (List.mem_of_getElem? ht)).symm
  · rw [if_neg hn]

theorem live_clear (h : Inv s) (ht : s.handlers[i]? = some t) (n : Nat) :
    Live (s.setPc i t .cleared) n ↔ Live s n ∧ n ≠ t.clientIndex := by
  have hcleared := cleared_setPc_iff h.indices ht .cleared n
  by_cases hn : n = t.clientIndex
  · rw [if_pos hn] at hcleared
    exact iff_of_false (fun hl => hl.2 (hcleared.mpr rfl)) fun hl => hl.2 hn
  · rw [if_neg hn] at hcleared
    exact ⟨fun hl => ⟨⟨hl.1, mt hcleared.mpr hl.2⟩, hn⟩, fun hl => ⟨hl.1.1, mt hcleared.mp hl.1.2⟩⟩

theorem live_register (h : Inv s) (clientSocket c n : Nat) :
    Live (s.registerStep clientSocket c) n ↔ Live s n ∨ n = s.gCount := by
  have hno : ¬ Cleared s.handlers s.gCount := by
    rintro ⟨t, ht, hindex, -⟩
    exact absurd (h.index_lt t ht) (by omega)
  show (n < s.gCount + 1 ∧ ¬ Cleared s.handlers n) ↔ _
  by_cases hn : n = s.gCount
  · subst hn
    exact iff_of_true ⟨Nat.lt_succ_self _, hno⟩ (.inr rfl)
  · rw [or_iff_left hn]
    exact and_congr_left fun _ => by omega

theorem live_spawn (clientSocket index n : Nat) :
    Live (s.spawnStep clientSocket index) n ↔ Live s n := by
  refine and_congr_right fun _ => not_congr ?_
  constructor
  · rintro ⟨t, ht, hindex, hcl⟩
    rcases List.mem_append.mp ht with ht | ht
    · exact ⟨t, ht, hindex, hcl⟩
    · rw [List.mem_singleton.mp ht] at hcl
      cases hcl
  · rintro ⟨t, ht, hindex, hcl⟩
    exact ⟨t, List.mem_append_left _ ht, hindex, hcl⟩

/-- Every handler serves a registered client. -/
theorem client_eq_some (h : Inv s) (ht : t ∈ s.handlers) : ∃ c, s.client t = some c :=
  h.client (h.index_lt t ht)

theorem handler_effect (h : Inv s) (ha : a.handler? = some i) (ht : s.handlers[i]? = some t)
    (hs : s.handlerStep i t a = some s') : Effect s s' (s.event a) := by
  have hmem := List.mem_of_getElem? ht
  obtain ⟨c, hc⟩ := client_eq_some h hmem
  cases a with
  | recv j data =>
    simp only [RoomState.handlerStep, Option.ite_none_right_eq_some, Option.some.injEq] at hs
    obtain ⟨⟨hpc, -⟩, rfl⟩ := hs
    exact .quiet (live_setPc h ht (by rw [hpc]; rfl)) rfl rfl
  | recvEnds j =>
    simp only [RoomState.handlerStep, Option.ite_none_right_eq_some, Option.some.injEq] at hs
    obtain ⟨hpc, rfl⟩ := hs
    exact .quiet (live_setPc h ht (by rw [hpc]; rfl)) rfl rfl
  | broadcast j =>
    obtain rfl : j = i := Option.some.inj ha
    cases hpc : t.pc with
    | received data =>
      have hevent : s.event (.broadcast j) = some (.say c data) := by
        simp only [RoomState.event, ht, Option.bind_some, hpc, hc, Option.map_some]
      simp only [RoomState.handlerStep, hpc, Option.some.injEq] at hs
      subst hs
      rw [hevent]
      exact .say hmem hpc hc (live_setPc h ht (by rw [hpc]; rfl)) rfl rfl
    | receiving | ended | cleared | finished =>
      simp only [RoomState.handlerStep, hpc] at hs
      cases hs
  | clear j =>
    obtain rfl : j = i := Option.some.inj ha
    have hevent : s.event (.clear j) = some (.leave c) := by
      simp only [RoomState.event, ht, Option.bind_some, hc, Option.map_some]
    simp only [RoomState.handlerStep, Option.ite_none_right_eq_some, Option.some.injEq] at hs
    obtain ⟨hpc, rfl⟩ := hs
    rw [hevent]
    exact .leave (h.index_lt t hmem) hc (live_clear h ht) rfl rfl
  | close j =>
    simp only [RoomState.handlerStep, Option.ite_none_right_eq_some, Option.some.injEq] at hs
    obtain ⟨hpc, rfl⟩ := hs
    exact .quiet (live_setPc h ht (by rw [hpc]; rfl)) rfl rfl
  | accept _ | acceptFails | register | spawn | spawnFails => cases hs

theorem main_effect (h : Inv s) (hs : s.mainStep a = some s') : Effect s s' (s.event a) := by
  cases a with
  | accept fd =>
    simp only [RoomState.mainStep, Option.ite_none_right_eq_some, Option.some.injEq] at hs
    obtain ⟨-, rfl⟩ := hs
    exact .quiet (fun _ => Iff.rfl) rfl rfl
  | acceptFails =>
    simp only [RoomState.mainStep, Option.ite_none_right_eq_some, Option.some.injEq] at hs
    obtain ⟨-, rfl⟩ := hs
    exact .quiet (fun _ => Iff.rfl) rfl rfl
  | register =>
    cases hmain : s.main with
    | accepted clientSocket client =>
      simp only [RoomState.mainStep, hmain, Option.some.injEq] at hs
      subst hs
      have hm := h.main
      rw [MainOk, hmain] at hm
      simp only [RoomState.event, hmain]
      exact .join hm.2.2.1 (live_register h clientSocket client) rfl rfl
    | accepting | registered _ _ =>
      simp only [RoomState.mainStep, hmain] at hs
      cases hs
  | spawn =>
    simp only [RoomState.mainStep] at hs
    split at hs
    · obtain rfl := Option.some.inj hs
      exact .quiet (live_spawn _ _) rfl rfl
    · cases hs
  | spawnFails =>
    simp only [RoomState.mainStep] at hs
    split at hs
    · obtain rfl := Option.some.inj hs
      exact .quiet (fun _ => Iff.rfl) rfl rfl
    · cases hs
  | recv _ _ | recvEnds _ | broadcast _ | clear _ | close _ => cases hs

/-- What each step does is what it is to the room. -/
theorem effect (h : Inv s) (hs : roomStep s a = some s') : Effect s s' (s.event a) := by
  rw [roomStep] at hs
  split at hs
  · rename_i i ha
    obtain ⟨t, ht, hs⟩ := Option.bind_eq_some_iff.mp hs
    exact handler_effect h ha ht hs
  · exact main_effect h hs

end

/-! ## The room they form -/

/-- The client has been registered, and its handler has not cleared its entry. -/
def Member (s : RoomState) (c : Nat) : Prop := ∃ n, Live s n ∧ s.registered[n]? = some c

theorem member_iff_range (s : RoomState) (c : Nat) :
    (∃ n ∈ List.range s.gCount, ¬ Cleared s.handlers n ∧ s.registered[n]? = some c) ↔
      Member s c := by
  simp only [List.mem_range, Member, Live, and_assoc]

instance (hs : List Handler) (n : Nat) : Decidable (Cleared hs n) :=
  inferInstanceAs (Decidable (∃ t ∈ hs, t.clientIndex = n ∧ t.pc.isCleared = true))

instance (s : RoomState) (c : Nat) : Decidable (Member s c) :=
  decidable_of_iff _ (member_iff_range s c)

/-- The state is the room `r`. -/
structure Represents (r : Room Nat Bytes) (s : RoomState) : Prop where
  members : ∀ c, c ∈ r.members ↔ Member s c
  heard : ∀ c, sentTo s.sent c = (r.heard c).map Prod.snd
  isOpen : ∀ m ∈ s.sent, m.1 ≠ none

section

variable {s s' : RoomState} {r : Room Nat Bytes}

theorem represents_start : Represents .empty .start where
  members c := by
    refine iff_of_false id ?_
    rintro ⟨n, hlive, -⟩
    exact absurd hlive.1 (Nat.not_lt_zero n)
  heard c := rfl
  isOpen m hm := by cases hm

theorem member_congr (hlive : ∀ n, Live s' n ↔ Live s n)
    (hregistered : s'.registered = s.registered)
    (c : Nat) : Member s' c ↔ Member s c := by
  rw [Member, Member, hregistered]
  exact exists_congr fun n => and_congr_left fun _ => hlive n

theorem member_join (h : Inv s) {d : Nat} (hlive : ∀ n, Live s' n ↔ Live s n ∨ n = s.gCount)
    (hregistered : s'.registered = s.registered ++ [d]) (c : Nat) :
    Member s' c ↔ c = d ∨ Member s c := by
  have hlast : (s.registered ++ [d])[s.gCount]? = some d := by
    rw [← h.count, List.getElem?_concat_length]
  have hold : ∀ n, Live s n → (s.registered ++ [d])[n]? = s.registered[n]? := by
    intro n hn
    exact List.getElem?_append_left (h.count.symm ▸ hn.1)
  rw [Member, Member, hregistered]
  constructor
  · rintro ⟨n, hn, hc⟩
    rcases (hlive n).mp hn with hn | rfl
    · exact .inr ⟨n, hn, (hold n hn).symm.trans hc⟩
    · exact .inl (Option.some.inj (hc.symm.trans hlast))
  · rintro (rfl | ⟨n, hn, hc⟩)
    · exact ⟨s.gCount, (hlive _).mpr (.inr rfl), hlast⟩
    · exact ⟨n, (hlive n).mpr (.inl hn), (hold n hn).trans hc⟩

theorem member_leave (h : Inv s) {k d : Nat} (hd : s.registered[k]? = some d)
    (hlive : ∀ n, Live s' n ↔ Live s n ∧ n ≠ k) (hregistered : s'.registered = s.registered)
    (c : Nat) : Member s' c ↔ Member s c ∧ c ≠ d := by
  rw [Member, Member, hregistered]
  constructor
  · rintro ⟨n, hn, hc⟩
    obtain ⟨hn, hne⟩ := (hlive n).mp hn
    refine ⟨⟨n, hn, hc⟩, ?_⟩
    rintro rfl
    exact hne (h.client_inj hn.1 (hc.trans hd.symm))
  · rintro ⟨⟨n, hn, hc⟩, hne⟩
    refine ⟨n, (hlive n).mpr ⟨hn, ?_⟩, hc⟩
    rintro rfl
    exact hne (Option.some.inj (hc.symm.trans hd))

/-- A broadcast is sent once to each of the other members. -/
theorem sentTo_recipients (h : Inv s) {t : Handler} {c : Nat} (ht : t ∈ s.handlers)
    (hpc : t.pc.isCleared = false) (hc : s.client t = some c) (data : Bytes) (p : Nat) :
    sentTo (s.recipients t data) p = if Member s p ∧ p ≠ c then [data] else [] := by
  have hdelivered := h.delivered ht hpc data
  have hfilter : (s.recipients t data).filter (fun m => m.1 = some p) =
      List.replicate ((s.recipients t data).count (some p, data)) (some p, data) := by
    rw [← List.filter_eq]
    refine List.filter_congr fun m hm => ?_
    obtain ⟨n, b, -, -, -, rfl⟩ := hdelivered.only m hm
    simp
  have hcount : (s.recipients t data).count (some p, data) =
      if Member s p ∧ p ≠ c then 1 else 0 := by
    by_cases hp : Member s p ∧ p ≠ c
    · rw [if_pos hp]
      obtain ⟨⟨n, hlive, hn⟩, hne⟩ := hp
      refine hdelivered.once n p hlive ?_ hn
      rintro rfl
      exact hne (Option.some.inj (hn.symm.trans hc))
    · rw [if_neg hp, List.count_eq_zero]
      intro hmem
      obtain ⟨n, b, hlive, hne, hb, heq⟩ := hdelivered.only _ hmem
      obtain rfl : p = b := Option.some.inj (congrArg Prod.fst heq)
      refine hp ⟨⟨n, hlive, hb⟩, ?_⟩
      rintro rfl
      exact hne (h.client_inj hlive.1 (hb.trans hc.symm))
  rw [sentTo, hfilter, hcount, List.map_replicate]
  split <;> rfl

theorem Represents.step (h : Represents r s) (hi : Inv s) {e : Option (Event Nat Bytes)}
    (he : Effect s s' e) : Represents (r.after e.toList) s' := by
  cases he with
  | quiet hlive hregistered hsent =>
    refine { members := fun c => ?_, heard := fun c => ?_, isOpen := hsent ▸ h.isOpen }
    · exact (h.members c).trans (member_congr hlive hregistered c).symm
    · rw [hsent]
      exact h.heard c
  | join hnew hlive hregistered hsent =>
    refine { members := fun c => ?_, heard := fun c => ?_, isOpen := hsent ▸ h.isOpen }
    · exact (or_congr_right (h.members c)).trans (member_join hi hlive hregistered c).symm
    · rw [hsent]
      exact h.heard c
  | leave hk hc hlive hregistered hsent =>
    refine { members := fun c => ?_, heard := fun c => ?_, isOpen := hsent ▸ h.isOpen }
    · exact (and_congr_left fun _ => h.members c).trans
        (member_leave hi hc hlive hregistered c).symm
    · rw [hsent]
      exact h.heard c
  | @say t d data ht hpc hc hlive hregistered hsent =>
    have hcl : t.pc.isCleared = false := by rw [hpc]; rfl
    refine { members := fun c => ?_, heard := fun p => ?_, isOpen := fun m hm => ?_ }
    · exact (h.members c).trans (member_congr hlive hregistered c).symm
    · show _ = ((r.step (.say d data)).heard p).map Prod.snd
      rw [hsent, sentTo_append, sentTo_recipients hi ht hcl hc, h.heard]
      by_cases hp : Member s p ∧ p ≠ d
      · rw [if_pos hp, heard_say ((h.members p).mpr hp.1) hp.2, List.map_append]
        rfl
      · rw [if_neg hp, heard_say_of_not (mt (And.imp_left (h.members p).mp) hp), List.append_nil]
    · rw [hsent] at hm
      rcases List.mem_append.mp hm with hm | hm
      · exact h.isOpen m hm
      · obtain ⟨n, c, -, -, -, rfl⟩ := (hi.delivered ht hcl data).only m hm
        exact Option.some_ne_none c

theorem Represents.run (h : Represents r s) (hi : Inv s) {as : List RoomAction}
    (hrun : room.run s as = some s') :
    Represents (r.after (room.trace RoomState.event s as)) s' := by
  have hall := System.run_trace (M := room) RoomState.event
    (I := fun seen s => Inv s ∧ Represents (r.after seen) s) ?_ ⟨hi, h⟩ hrun
  · exact hall.2
  · intro seen s a s' hi hs
    rw [Room.after_append]
    exact ⟨hi.1.step hs, hi.2.step hi.1 (effect hi.1 hs)⟩

/-- Some room is what a reachable state represents. -/
theorem exists_represents (hs : room.Reachable s) : ∃ r, Represents r s := by
  have h := System.Reachable.invariant (M := room)
    (I := fun s => Inv s ∧ ∃ r, Represents r s) ?_ ?_ hs
  · exact h.2
  · rintro s rfl
    exact ⟨inv_start, _, represents_start⟩
  · rintro s a s' ⟨hi, r, hr⟩ hs
    exact ⟨hi.step hs, _, hr.step hi (effect hi hs)⟩

end

/-- The run so far is a history of the room in which everyone hears the others:
who is registered, and what is sent on each connection, is what it says. -/
theorem thread_room_broadcasts {s : RoomState} {as : List RoomAction}
    (hrun : room.run .start as = some s) :
    Represents (Room.empty.after (room.trace RoomState.event .start as)) s :=
  represents_start.run inv_start hrun

/-- The first client leaves, its descriptor goes to the third one, and the second
one sends a message. -/
theorem thread_room_broadcasts_reused :
    ∃ s, (List.range 3).map (sentTo s.sent) = [[[1]], [], [[7]]] ∧
      Represents (Room.empty.after [.join 0, .join 1, .say 1 [1], .leave 0, .join 2, .say 1 [7]])
        s := by
  obtain ⟨s, hrun, hsent⟩ := Option.map_eq_some_iff.mp
    (show (room.run .start [.accept 4, .register, .spawn, .accept 5, .register, .spawn, .recv 1 [1],
      .broadcast 1, .recvEnds 0, .clear 0, .close 0, .accept 4, .register, .spawn, .recv 1 [7],
      .broadcast 1]).map (fun s => (List.range 3).map (sentTo s.sent)) =
        some [[[1]], [], [[7]]] by decide +kernel)
  exact ⟨s, hsent, thread_room_broadcasts hrun⟩

/-! ## Those who stay -/

/-- Whoever has left is not registered again. -/
theorem gone_of_leave {s s' : RoomState} {as : List RoomAction} (hi : Inv s)
    (hrun : room.run s as = some s') {c : Nat}
    (hc : .leave c ∈ room.trace RoomState.event s as) : ¬ Member s' c := by
  have h := System.run_trace (M := room) RoomState.event
    (I := fun seen s => Inv s ∧ ∀ c, .leave c ∈ seen → c ∈ s.registered ∧ ¬ Member s c) ?_
    ⟨hi, fun c hc => absurd hc List.not_mem_nil⟩ hrun
  · exact (h.2 c hc).2
  · intro seen s a s' hi hs
    refine ⟨hi.1.step hs, fun c hc => ?_⟩
    have heffect := effect hi.1 hs
    revert hc heffect
    generalize s.event a = e
    intro hc heffect
    cases heffect with
    | quiet hlive hregistered hsent =>
      rw [Option.toList_none, List.append_nil] at hc
      rw [member_congr hlive hregistered, hregistered]
      exact hi.2 c hc
    | join hnew hlive hregistered hsent =>
      have hc := (List.mem_append.mp hc).resolve_right (by simp)
      obtain ⟨hold, hgone⟩ := hi.2 c hc
      rw [member_join hi.1 hlive hregistered, hregistered]
      refine ⟨List.mem_append_left _ hold, ?_⟩
      rintro (rfl | h)
      · exact hnew hold
      · exact hgone h
    | @leave k d hk hd hlive hregistered hsent =>
      rw [member_leave hi.1 hd hlive hregistered, hregistered]
      rcases List.mem_append.mp hc with hc | hc
      · exact ⟨(hi.2 c hc).1, fun h => (hi.2 c hc).2 h.1⟩
      · obtain rfl : c = d := by simpa using hc
        exact ⟨List.mem_of_getElem? hd, fun h => h.2 rfl⟩
    | say ht hpc hd hlive hregistered hsent =>
      have hc := (List.mem_append.mp hc).resolve_right (by simp)
      rw [member_congr hlive hregistered, hregistered]
      exact hi.2 c hc

/-- A client that is registered before and after a run is sent all that the
others broadcast in it, once and in the order of the broadcasts, and nothing
else. -/
theorem stays_hears_all {s s' : RoomState} {as : List RoomAction} (hs : room.Reachable s)
    (hrun : room.run s as = some s') {c : Nat} (hc : Member s c) (hc' : Member s' c) :
    sentTo s'.sent c = sentTo s.sent c ++
      ((said (room.trace RoomState.event s as)).filter fun m => m.1 ≠ c).map Prod.snd := by
  have hi := reachable_inv hs
  obtain ⟨r, hr⟩ := exists_represents hs
  have hstay : .leave c ∉ room.trace RoomState.event s as :=
    fun h => gone_of_leave hi hrun h hc'
  have hheard := (heard_of_stays ((hr.members c).mpr hc) hstay).2
  rw [(hr.run hi hrun).heard, hheard, hr.heard, List.map_append]

/-- The second of two clients stays while the first one sends a message and
leaves. -/
theorem stays_hears_all_second :
    ∃ s s' as, room.Reachable s ∧ room.run s as = some s' ∧ sentTo s'.sent 1 = [[9]] ∧
      sentTo s'.sent 1 = sentTo s.sent 1 ++
        ((said (room.trace RoomState.event s as)).filter fun m => m.1 ≠ 1).map Prod.snd := by
  obtain ⟨s, hs, hshape⟩ := System.exists_reachable (M := room) (s := .start)
    (f := fun s => (decide (Member s 1),
      (room.run s [.recv 0 [9], .broadcast 0, .recvEnds 0, .clear 0]).map fun s' =>
        (decide (Member s' 1), sentTo s'.sent 1)))
    (c := (true, some (true, [[9]])))
    (l := [.accept 4, .register, .spawn, .accept 5, .register, .spawn]) rfl (by decide +kernel)
  simp only [Prod.mk.injEq, Option.map_eq_some_iff, decide_eq_true_eq] at hshape
  obtain ⟨hmember, s', hrun, hmember', hsent⟩ := hshape
  exact ⟨s, s', _, hs, hrun, hsent, stays_hears_all hs hrun hmember hmember'⟩

/-! ## What is received and what is broadcast -/

/-- What a step takes from a connection. -/
def RoomState.receipt (s : RoomState) : RoomAction → Option (Nat × Bytes)
  | .recv i data => (s.handlers[i]?).bind fun t => (s.client t).map fun c => (c, data)
  | _ => none

/-- What a handler has received and not yet passed on. -/
def HandlerPc.pending : HandlerPc → List Bytes
  | .received data => [data]
  | _ => []

/-- The same by client. -/
def RoomState.pending (s : RoomState) (c : Nat) : List Bytes :=
  s.handlers.flatMap fun t => if s.client t = some c then t.pc.pending else []

/-- What came from one client. -/
def sayings (l : List (Nat × Bytes)) (c : Nat) : List Bytes :=
  (l.filter fun m => m.1 = c).map Prod.snd

section

variable {s s' : RoomState} {i : Nat} {t : Handler} {a : RoomAction}

theorem sayings_append (l l' : List (Nat × Bytes)) (c : Nat) :
    sayings (l ++ l') c = sayings l c ++ sayings l' c := by
  rw [sayings, List.filter_append, List.map_append]
  rfl

/-- A client has one handler at most, and only it has anything pending. -/
theorem pending_eq (h : Inv s) (ht : t ∈ s.handlers) {c : Nat} (hc : s.client t = some c) :
    s.pending c = t.pc.pending := by
  obtain ⟨hs, hs', hsplit⟩ := List.append_of_mem ht
  have hother : ∀ u ∈ hs ++ hs', (if s.client u = some c then u.pc.pending else []) = [] := by
    intro u hu
    rw [if_neg]
    intro hcu
    have hmem : u ∈ s.handlers := by
      rw [hsplit]
      exact List.mem_append.mpr ((List.mem_append.mp hu).imp_right (List.mem_cons_of_mem t))
    have hindex : u.clientIndex = t.clientIndex :=
      h.client_inj (h.index_lt u hmem) (hcu.trans hc.symm)
    have hnd := h.indices
    rw [hsplit, List.map_append, List.map_cons] at hnd
    refine (List.nodup_middle.mp hnd).notMem ?_
    rw [← List.map_append]
    exact List.mem_map.mpr ⟨u, hu, hindex⟩
  have hleft : (hs.flatMap fun u => if s.client u = some c then u.pc.pending else []) = [] :=
    List.flatMap_eq_nil_iff.mpr fun u hu => hother u (List.mem_append_left _ hu)
  have hright : (hs'.flatMap fun u => if s.client u = some c then u.pc.pending else []) = [] :=
    List.flatMap_eq_nil_iff.mpr fun u hu => hother u (List.mem_append_right _ hu)
  rw [RoomState.pending, hsplit, List.flatMap_append, List.flatMap_cons, hleft, hright, if_pos hc,
    List.nil_append, List.append_nil]

/-- Nothing is pending for somebody who has no handler. -/
theorem pending_eq_nil {c : Nat} (hc : ∀ t ∈ s.handlers, s.client t ≠ some c) :
    s.pending c = [] :=
  List.flatMap_eq_nil_iff.mpr fun t ht => if_neg (hc t ht)

/-- The step of one handler changes what is pending for its client only. -/
theorem pending_set (h : Inv s) (h' : Inv s') (ht : s.handlers[i]? = some t) {pc : HandlerPc}
    (hhandlers : s'.handlers = s.handlers.set i { t with pc := pc })
    (hregistered : s'.registered = s.registered) {c : Nat} (hc : s.client t = some c) (p : Nat) :
    s'.pending p = if p = c then pc.pending else s.pending p := by
  have hclient : ∀ u, s'.client u = s.client u := by
    intro u
    rw [RoomState.client, RoomState.client, hregistered]
  have hi : i < s.handlers.length := (List.getElem?_eq_some_iff.mp ht).1
  by_cases hp : p = c
  · have hmem : ({ t with pc := pc } : Handler) ∈ s'.handlers := hhandlers ▸ List.mem_set hi _
    rw [if_pos hp, hp, pending_eq h' hmem ((hclient _).trans hc)]
  · rw [if_neg hp]
    by_cases hhas : ∃ u ∈ s.handlers, s.client u = some p
    · obtain ⟨u, hu, hup⟩ := hhas
      obtain ⟨j, hj⟩ := List.getElem?_of_mem hu
      have hij : i ≠ j := by
        rintro rfl
        obtain rfl : t = u := Option.some.inj (ht.symm.trans hj)
        exact hp (Option.some.inj (hup.symm.trans hc))
      have hu' : u ∈ s'.handlers := by
        rw [hhandlers]
        exact List.mem_of_getElem? ((List.getElem?_set_ne hij).trans hj)
      rw [pending_eq h' hu' ((hclient u).trans hup), pending_eq h hu hup]
    · rw [pending_eq_nil fun u hu hup => hhas ⟨u, hu, hup⟩, pending_eq_nil]
      intro u hu hup
      rw [hhandlers] at hu
      rcases mem_setPc h.indices ht hu with rfl | ⟨hu, -⟩
      · exact hp (Option.some.inj (((hclient _).symm.trans hup).symm.trans hc))
      · exact hhas ⟨u, hu, (hclient u).symm.trans hup⟩

theorem sayings_singleton (c : Nat) (data : Bytes) (p : Nat) :
    sayings [(c, data)] p = if p = c then [data] else [] := by
  by_cases hp : p = c
  · subst hp
    simp [sayings]
  · simp [sayings, hp, Ne.symm hp]

/-- What is received is pending until it is broadcast. -/
theorem handler_pending (h : Inv s) (h' : Inv s') (ha : a.handler? = some i)
    (ht : s.handlers[i]? = some t) (hs : s.handlerStep i t a = some s') (p : Nat) :
    s.pending p ++ sayings (s.receipt a).toList p =
      sayings (said (s.event a).toList) p ++ s'.pending p := by
  have hmem := List.mem_of_getElem? ht
  obtain ⟨c, hc⟩ := client_eq_some h hmem
  -- A step to `pc` without a message on either side of it.
  have hsilent : ∀ pc : HandlerPc, t.pc.pending = [] → pc.pending = [] →
      s'.handlers = s.handlers.set i { t with pc := pc } → s'.registered = s.registered →
      s'.pending p = s.pending p := by
    intro pc hold hnew hhandlers hregistered
    rw [pending_set h h' ht hhandlers hregistered hc]
    by_cases hp : p = c
    · rw [if_pos hp, hnew, hp, pending_eq h hmem hc, hold]
    · rw [if_neg hp]
  cases a with
  | recv j data =>
    obtain rfl : j = i := Option.some.inj ha
    have hreceipt : s.receipt (.recv j data) = some (c, data) := by
      simp only [RoomState.receipt, ht, Option.bind_some, hc, Option.map_some]
    simp only [RoomState.handlerStep, Option.ite_none_right_eq_some, Option.some.injEq] at hs
    obtain ⟨⟨hpc, -⟩, rfl⟩ := hs
    rw [pending_set h h' ht rfl rfl hc, hreceipt]
    show s.pending p ++ sayings [(c, data)] p = if p = c then [data] else s.pending p
    rw [sayings_singleton]
    by_cases hp : p = c
    · rw [if_pos hp, if_pos hp, hp, pending_eq h hmem hc, hpc]
      rfl
    · rw [if_neg hp, if_neg hp, List.append_nil]
  | broadcast j =>
    obtain rfl : j = i := Option.some.inj ha
    cases hpc : t.pc with
    | received data =>
      have hevent : s.event (.broadcast j) = some (.say c data) := by
        simp only [RoomState.event, ht, Option.bind_some, hpc, hc, Option.map_some]
      simp only [RoomState.handlerStep, hpc, Option.some.injEq] at hs
      subst hs
      rw [pending_set h h' ht rfl rfl hc, hevent]
      show s.pending p ++ [] = sayings [(c, data)] p ++ if p = c then [] else s.pending p
      rw [sayings_singleton, List.append_nil]
      by_cases hp : p = c
      · rw [if_pos hp, if_pos hp, hp, pending_eq h hmem hc, hpc]
        rfl
      · rw [if_neg hp, if_neg hp, List.nil_append]
    | receiving | ended | cleared | finished =>
      simp only [RoomState.handlerStep, hpc] at hs
      cases hs
  | recvEnds j =>
    simp only [RoomState.handlerStep, Option.ite_none_right_eq_some, Option.some.injEq] at hs
    obtain ⟨hpc, rfl⟩ := hs
    rw [hsilent .ended (by rw [hpc]; rfl) rfl rfl rfl]
    exact List.append_nil _
  | clear j =>
    obtain rfl : j = i := Option.some.inj ha
    have hevent : s.event (.clear j) = some (.leave c) := by
      simp only [RoomState.event, ht, Option.bind_some, hc, Option.map_some]
    simp only [RoomState.handlerStep, Option.ite_none_right_eq_some, Option.some.injEq] at hs
    obtain ⟨hpc, rfl⟩ := hs
    rw [hsilent .cleared (by rw [hpc]; rfl) rfl rfl rfl, hevent]
    exact List.append_nil _
  | close j =>
    simp only [RoomState.handlerStep, Option.ite_none_right_eq_some, Option.some.injEq] at hs
    obtain ⟨hpc, rfl⟩ := hs
    rw [hsilent .finished (by rw [hpc]; rfl) rfl rfl rfl]
    exact List.append_nil _
  | accept _ | acceptFails | register | spawn | spawnFails => cases hs

/-- Registering a client and starting its handler leave what is pending. -/
theorem main_pending (h : Inv s) (hs : s.mainStep a = some s') (p : Nat) :
    s.pending p ++ sayings (s.receipt a).toList p =
      sayings (said (s.event a).toList) p ++ s'.pending p := by
  cases a with
  | accept fd =>
    simp only [RoomState.mainStep, Option.ite_none_right_eq_some, Option.some.injEq] at hs
    obtain ⟨-, rfl⟩ := hs
    exact List.append_nil _
  | acceptFails =>
    simp only [RoomState.mainStep, Option.ite_none_right_eq_some, Option.some.injEq] at hs
    obtain ⟨-, rfl⟩ := hs
    exact List.append_nil _
  | register =>
    cases hmain : s.main with
    | accepted clientSocket client =>
      have hevent : s.event .register = some (.join client) := by
        simp only [RoomState.event, hmain]
      simp only [RoomState.mainStep, hmain, Option.some.injEq] at hs
      subst hs
      rw [hevent]
      refine (List.append_nil _).trans (List.flatMap_congr fun t ht => ?_)
      have hlt : t.clientIndex < s.registered.length := h.count.symm ▸ h.index_lt t ht
      show _ = if (s.registered ++ [client])[t.clientIndex]? = some p then _ else _
      rw [List.getElem?_append_left hlt]
      rfl
    | accepting | registered _ _ =>
      simp only [RoomState.mainStep, hmain] at hs
      cases hs
  | spawn =>
    simp only [RoomState.mainStep] at hs
    split at hs
    · obtain rfl := Option.some.inj hs
      refine (List.append_nil _).trans (Eq.symm ?_)
      refine (List.flatMap_append ..).trans ?_
      rw [List.flatMap_singleton]
      show s.pending p ++ (if _ then [] else []) = s.pending p
      rw [ite_self, List.append_nil]
    · cases hs
  | spawnFails =>
    simp only [RoomState.mainStep] at hs
    split at hs
    · obtain rfl := Option.some.inj hs
      exact List.append_nil _
    · cases hs
  | recv _ _ | recvEnds _ | broadcast _ | clear _ | close _ => cases hs

theorem step_pending (h : Inv s) (hs : roomStep s a = some s') (p : Nat) :
    s.pending p ++ sayings (s.receipt a).toList p =
      sayings (said (s.event a).toList) p ++ s'.pending p := by
  have h' := h.step hs
  rw [roomStep] at hs
  split at hs
  · rename_i i ha
    obtain ⟨t, ht, hs⟩ := Option.bind_eq_some_iff.mp hs
    exact handler_pending h h' ha ht hs p
  · exact main_pending h hs p

end

/-- What is broadcast for a client is what was received from it, once each and in
order, but for one message at most that its handler still has. -/
theorem broadcast_eq_received {s : RoomState} {as : List RoomAction}
    (hrun : room.run .start as = some s) (c : Nat) :
    sayings (room.trace RoomState.receipt .start as) c =
        sayings (said (room.trace RoomState.event .start as)) c ++ s.pending c ∧
      (s.pending c).length ≤ 1 := by
  have h := System.run_history (M := room)
    (I := fun before s => room.run .start before = some s ∧ Inv s ∧ ∀ c,
      sayings (room.trace RoomState.receipt .start before) c =
        sayings (said (room.trace RoomState.event .start before)) c ++ s.pending c) ?_
    ⟨System.run_nil _, inv_start, fun c => rfl⟩ hrun
  · refine ⟨h.2.2 c, ?_⟩
    by_cases hhas : ∃ t ∈ s.handlers, s.client t = some c
    · obtain ⟨t, ht, hc⟩ := hhas
      rw [pending_eq h.2.1 ht hc]
      cases t.pc <;> simp [HandlerPc.pending]
    · rw [pending_eq_nil fun t ht hc => hhas ⟨t, ht, hc⟩]
      exact Nat.zero_le 1
  · rintro before s a s' ⟨hbefore, hi, heq⟩ hs
    refine ⟨System.run_concat hbefore hs, hi.step hs, fun c => ?_⟩
    rw [System.trace_concat hbefore, System.trace_concat hbefore, sayings_append, said_append,
      sayings_append, heq, List.append_assoc, List.append_assoc, step_pending hi hs]

/-- The first client's handler still has its second message. -/
theorem broadcast_eq_received_pending :
    ∃ s as, room.run .start as = some s ∧ s.pending 0 = [[2]] ∧
      sayings (room.trace RoomState.receipt .start as) 0 =
          sayings (said (room.trace RoomState.event .start as)) 0 ++ s.pending 0 ∧
        (s.pending 0).length ≤ 1 := by
  obtain ⟨s, hrun, hpending⟩ := Option.map_eq_some_iff.mp
    (show (room.run .start [.accept 4, .register, .spawn, .accept 5, .register, .spawn, .recv 0 [1],
      .recv 1 [9], .broadcast 0, .recv 0 [2]]).map (fun s => s.pending 0) = some [[2]]
      by decide +kernel)
  exact ⟨s, _, hrun, hpending, broadcast_eq_received hrun 0⟩

end ThreadRoom

/-! ## The room over UDP -/

namespace UdpRoom

open CString Inet Insertion

/-- A datagram is said by its source, which joins if it is new. -/
def events (turns : List (Option Datagram)) : List (Event Source Bytes) :=
  turns.flatMap fun
    | none => []
    | some d => [.join d.clientAddr.source, .say d.clientAddr.source (message d)]

/-- What is sent to `p`. -/
def sentTo (sent : List (SockaddrIn × Bytes)) (p : Source) : List Bytes :=
  (sent.filter fun send => send.1.source = p).map Prod.snd

/-- What the loop sends in all its turns. -/
def sent (turns : List (Option Datagram)) : List (SockaddrIn × Bytes) := (run turn [] turns).2

theorem run_turn (turns : List (Option Datagram)) :
    (run turn [] turns).1 = clientsAfter turns := by
  induction turns using List.reverseRecOn with
  | nil => rfl
  | append_singleton turns received ih =>
    rw [History.run_concat, clientsAfter_concat, ih]

theorem sent_concat (turns : List (Option Datagram)) (received : Option Datagram) :
    sent (turns ++ [received]) = sent turns ++ (turn (clientsAfter turns) received).2 := by
  rw [sent, History.run_concat, run_turn]
  rfl

theorem sentTo_append (l l' : List (SockaddrIn × Bytes)) (p : Source) :
    sentTo (l ++ l') p = sentTo l p ++ sentTo l' p := by
  rw [sentTo, List.filter_append, List.map_append]
  rfl

theorem events_concat (turns : List (Option Datagram)) (d : Datagram) :
    events (turns ++ [some d]) =
      events turns ++ [.join d.clientAddr.source, .say d.clientAddr.source (message d)] := by
  rw [events, List.flatMap_append, List.flatMap_singleton]
  rfl

theorem sentTo_eq_replicate {l : List (SockaddrIn × Bytes)} {text : Bytes}
    (h : ∀ send ∈ l, send.2 = text) (p : Source) :
    sentTo l p = List.replicate ((l.map fun send => send.1.source).count p) text := by
  refine List.eq_replicate_iff.mpr ⟨?_, fun b hb => ?_⟩
  · rw [sentTo, List.length_map, ← List.countP_eq_length_filter, List.count, List.countP_map]
    refine List.countP_congr fun send _ => ?_
    simp
  · obtain ⟨send, hsend, rfl⟩ := List.mem_map.mp hb
    exact h send (List.mem_of_mem_filter hsend)

/-- One turn sends the datagram on to those seen before, its source apart. -/
theorem sentTo_turn (turns : List (Option Datagram)) (d : Datagram) (p : Source) :
    sentTo (turn (clientsAfter turns) (some d)).2 p =
      if p ∈ sources turns ∧ p ≠ d.clientAddr.source then [message d] else [] := by
  have htext : ∀ send ∈ (turn (clientsAfter turns) (some d)).2, send.2 = message d := by
    intro send hsend
    obtain ⟨c, -, rfl⟩ := List.mem_map.mp hsend
    rfl
  rw [sentTo_eq_replicate htext, count_recipients]
  split <;> rfl

/-- The loop so far is a history of the room in which everyone hears the others:
the members are the sources seen, and each is sent what it hears. -/
theorem udp_room_broadcasts (turns : List (Option Datagram)) :
    (∀ p, p ∈ (Room.empty.after (events turns)).members ↔ p ∈ sources turns) ∧
      ∀ p, sentTo (sent turns) p =
        ((Room.empty.after (events turns)).heard p).map Prod.snd := by
  induction turns using List.reverseRecOn with
  | nil => exact ⟨fun p => iff_of_false id List.not_mem_nil, fun p => rfl⟩
  | append_singleton turns received ih =>
    obtain ⟨hmembers, hheard⟩ := ih
    cases received with
    | none =>
      have hevents : events (turns ++ [none]) = events turns := by
        rw [events, List.flatMap_append]
        exact List.append_nil _
      have hsources : sources (turns ++ [none]) = sources turns := by
        rw [sources, List.filterMap_append]
        exact List.append_nil _
      have hsent : sent (turns ++ [none]) = sent turns :=
        (sent_concat turns none).trans (List.append_nil _)
      rw [hevents, hsources, hsent]
      exact ⟨hmembers, hheard⟩
    | some d =>
      rw [events_concat, Room.after_append, sources_concat]
      generalize Room.empty.after (events turns) = r at hmembers hheard ⊢
      refine ⟨fun p => ?_, fun p => ?_⟩
      · rw [List.mem_append, List.mem_singleton, ← hmembers]
        exact or_comm
      · show _ = (((r.step (.join d.clientAddr.source)).step
          (.say d.clientAddr.source (message d))).heard p).map Prod.snd
        rw [sent_concat, sentTo_append, hheard, sentTo_turn]
        by_cases hp : p ∈ sources turns ∧ p ≠ d.clientAddr.source
        · rw [if_pos hp, heard_say (Or.inr ((hmembers p).mpr hp.1)) hp.2, List.map_append]
          rfl
        · have hnot : ¬ (p ∈ (r.step (.join d.clientAddr.source)).members ∧
              p ≠ d.clientAddr.source) := by
            rintro ⟨hmem, hne⟩
            exact hp ⟨(hmembers p).mp (hmem.resolve_left hne), hne⟩
          rw [if_neg hp, heard_say_of_not hnot, List.append_nil]
          rfl

/-! ## What the texts tell -/

/-- Who sent a datagram, and what the others are shown of it. -/
def shown (d : Datagram) : Source × Bytes :=
  (d.clientAddr.source, cstr (d.data.take (bufferSize - 1)))

theorem message_eq (d : Datagram) :
    message d = 91 :: (inetNtop d.clientAddr.sAddr ++ 58 :: (decimal d.clientAddr.sinPort.toNat ++
      93 :: 32 :: cstr (d.data.take (bufferSize - 1)))) := by
  have hopen : ascii "[" = [91] := rfl
  have hcolon : ascii ":" = [58] := rfl
  have hclose : ascii "] " = [93, 32] := rfl
  rw [message, hopen, hcolon, hclose]
  simp

/-- The text tells the source and what was shown. -/
theorem message_inj {d d' : Datagram} (h : message d = message d') : shown d = shown d' := by
  have hhead : ∀ (b : UInt8) (r : Bytes), isdigit b = false →
      ∀ c ∈ (b :: r).head?, isdigit c = false := by
    intro b r hb c hc
    exact Option.some.inj hc ▸ hb
  rw [message_eq, message_eq] at h
  obtain ⟨haddr, h⟩ := inetNtop_append_inj (hhead 58 _ rfl) (hhead 58 _ rfl) (List.cons.inj h).2
  obtain ⟨hport, h⟩ := decimal_append_inj (hhead 93 _ rfl) (hhead 93 _ rfl) (List.cons.inj h).2
  have htext := (List.cons.inj (List.cons.inj h).2).2
  rw [shown, shown, SockaddrIn.source, SockaddrIn.source, haddr, UInt16.toNat_inj.mp hport, htext]

theorem map_shown_of_map_message {ds es : List Datagram}
    (h : ds.map message = es.map message) : ds.map shown = es.map shown := by
  induction ds generalizing es with
  | nil =>
    rw [List.map_nil] at h
    rw [List.map_eq_nil_iff.mp h.symm]
  | cons d ds ih =>
    cases es with
    | nil => cases h
    | cons e es =>
      obtain ⟨hhead, htail⟩ := List.cons.inj h
      rw [List.map_cons, List.map_cons, message_inj hhead, ih htail]

/-- The datagrams of everyone but `p`. -/
def saidByOthers (turns : List (Option Datagram)) (p : Source) : List Datagram :=
  (turns.filterMap id).filter fun d => d.clientAddr.source ≠ p

theorem events_append (turns turns' : List (Option Datagram)) :
    events (turns ++ turns') = events turns ++ events turns' := List.flatMap_append ..

theorem said_events (turns : List (Option Datagram)) (p : Source) :
    ((said (events turns)).filter fun m => m.1 ≠ p).map Prod.snd =
      (saidByOthers turns p).map message := by
  have hsaid : said (events turns) =
      (turns.filterMap id).map fun d => (d.clientAddr.source, message d) := by
    induction turns with
    | nil => rfl
    | cons received turns ih =>
      cases received with
      | none => exact ih
      | some d => exact congrArg ((d.clientAddr.source, message d) :: ·) ih
  rw [hsaid, List.filter_map, List.map_map]
  rfl

theorem join_mem_events {turns : List (Option Datagram)} {p : Source}
    (h : .join p ∈ events turns) : p ∈ sources turns := by
  obtain ⟨received, hreceived, hmem⟩ := List.mem_flatMap.mp h
  cases received with
  | none => cases hmem
  | some d =>
    have hp : p = d.clientAddr.source := by simpa using hmem
    exact List.mem_filterMap.mpr ⟨some d, hreceived, congrArg some hp.symm⟩

theorem leave_notMem_events (turns : List (Option Datagram)) (p : Source) :
    .leave p ∉ events turns := by
  intro h
  obtain ⟨received, -, hmem⟩ := List.mem_flatMap.mp h
  cases received with
  | none => cases hmem
  | some d => simp at hmem

/-- From its first datagram on, a client is sent what the others send, once each
and in order, and the texts tell it who sent what. -/
theorem newcomer_is_told (turns later : List (Option Datagram)) (d : Datagram)
    (hnew : d.clientAddr.source ∉ sources turns) :
    sentTo (sent (turns ++ some d :: later)) d.clientAddr.source =
        (saidByOthers later d.clientAddr.source).map message ∧
      ∀ ds : List Datagram,
        ds.map message = sentTo (sent (turns ++ some d :: later)) d.clientAddr.source →
          ds.map shown = (saidByOthers later d.clientAddr.source).map shown := by
  have hsent : sentTo (sent (turns ++ some d :: later)) d.clientAddr.source =
      (saidByOthers later d.clientAddr.source).map message := by
    rw [(udp_room_broadcasts _).2, ← List.singleton_append, ← List.append_assoc, events_append,
      events_concat, Room.after_append, Room.after_append]
    have hjoin : .join d.clientAddr.source ∉ events turns := fun h => hnew (join_mem_events h)
    obtain ⟨haway, hnothing⟩ := heard_of_away (r := Room.empty) id hjoin
    generalize Room.empty.after (events turns) = r at haway hnothing ⊢
    have hjoined : d.clientAddr.source ∈ (r.after [.join d.clientAddr.source,
        .say d.clientAddr.source (message d)]).members := Or.inl rfl
    have hquiet : (r.after [.join d.clientAddr.source,
        .say d.clientAddr.source (message d)]).heard d.clientAddr.source = [] :=
      (heard_say_of_not (fun h => h.2 rfl) _).trans hnothing
    rw [(heard_of_stays hjoined (leave_notMem_events later _)).2, hquiet, List.nil_append,
      said_events]
  exact ⟨hsent, fun ds hds => map_shown_of_map_message (hds.trans hsent)⟩

/-- A datagram from port 9 of `addr`. -/
def datagram (addr : UInt32) (data : Bytes) : Datagram where
  clientAddr := { sinFamily := 2, sinPort := 9, sAddr := addr, sinZero := 0 }
  data := data

/-- The second client speaks twice, and the first one before and after it. -/
theorem newcomer_is_told_second :
    sentTo (sent [some (datagram 1 [65]), some (datagram 2 [66]), none, some (datagram 1 [67]),
        some (datagram 2 [68])]) (datagram 2 [66]).clientAddr.source =
      (saidByOthers [none, some (datagram 1 [67]), some (datagram 2 [68])]
        (datagram 2 [66]).clientAddr.source).map message ∧
      (saidByOthers [none, some (datagram 1 [67]), some (datagram 2 [68])]
        (datagram 2 [66]).clientAddr.source).map shown =
          [((datagram 1 [67]).clientAddr.source, [67])] :=
  ⟨(newcomer_is_told [some (datagram 1 [65])] _ (datagram 2 [66]) (by decide)).1, by decide⟩

end UdpRoom

end Chat
end NetLab
