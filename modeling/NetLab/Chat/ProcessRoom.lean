import NetLab.Library.Descriptors
import NetLab.Library.History
import NetLab.Library.Transition

/-!
# The chat room with a process for each client

The parent accepts, writes the descriptor into the shared array, forks and
closes its own copy.  The number it closes is the lowest free one again when the
next client connects, so all clients are registered under one number, which in
every child names that child's own connection.
-/

namespace NetLab
namespace Chat
namespace ProcessRoom

open Transition Descriptors History

def maxClients : Nat := 1024

/-- What a descriptor of the server's processes may refer to.  Connections are
counted in the order in which they are accepted. -/
inductive File
  | other
  | listening
  | conn (client : Nat)
  deriving DecidableEq, Repr

/-- The process forked for a client. -/
structure Child where
  table : Table File
  mySocket : Nat
  alive : Bool
  deriving DecidableEq, Repr

/-- `sockets` is the used part of the shared array.  `corrupt` records that an
entry was written past its end. -/
structure RoomState where
  table : Table File
  sockets : List Int
  corrupt : Bool
  children : List Child
  deriving DecidableEq, Repr

/-- The parent's table when it enters its loop. -/
structure RoomConfig where
  table : Table File
  s : Nat
  listening : lookup table s = some .listening

inductive RoomAction
  | connect
  | message (client : Nat)
  | disconnect (client : Nat)
  deriving DecidableEq, Repr

/-- One turn of the parent's loop: accept, register, fork, close. -/
def RoomState.connect (k : RoomConfig) (r : RoomState) : RoomState :=
  let d := lowestFree r.table
  let table := install (.conn r.children.length) r.table
  let child := { table := close table k.s, mySocket := d, alive := true }
  { table := close table d
    sockets := if r.sockets.length < maxClients then r.sockets ++ [(d : Int)] else r.sockets
    corrupt := r.corrupt || decide (maxClients ≤ r.sockets.length)
    children := r.children ++ [child] }

/-- The connection that `send(v, ...)` writes to in a process, if any. -/
def sendTo (table : Table File) (v : Int) : Option Nat :=
  match lookup table v.toNat with
  | some (.conn c) => some c
  | _ => none

/-- The connections a child sends to when it has received a message. -/
def RoomState.broadcast (r : RoomState) (child : Child) : List Nat :=
  (r.sockets.filter fun v : Int => v ≠ child.mySocket ∧ 0 < v).filterMap (sendTo child.table)

/-- The array with the first entry equal to `my_socket` overwritten. -/
def clearFirst (mySocket : Int) : List Int → List Int
  | [] => []
  | v :: vs => if v = mySocket then -1 :: vs else v :: clearFirst mySocket vs

/-- A child reads from its client as long as it lives. -/
def roomStep (k : RoomConfig) (r : RoomState) : RoomAction → Option RoomState
  | .connect => some (r.connect k)
  | .message c =>
    match r.children[c]? with
    | none => none
    | some child =>
      if child.alive ∧ lookup child.table child.mySocket = some (.conn c) then some r else none
  | .disconnect c =>
    match r.children[c]? with
    | none => none
    | some child =>
      if child.alive then
        some { r with
          sockets := clearFirst child.mySocket r.sockets
          children := r.children.set c { child with alive := false } }
      else none

def RoomState.start (k : RoomConfig) : RoomState :=
  { table := k.table, sockets := [], corrupt := false, children := [] }

def room (k : RoomConfig) : System RoomState RoomAction where
  init r := r = .start k
  step := roomStep k

/-! ## One number for all clients -/

/-- Every client is registered under the descriptor that was free at the start,
and each child serves the client it was forked for. -/
structure Uniform (k : RoomConfig) (r : RoomState) : Prop where
  free : lowestFree r.table = lowestFree k.table
  open_s : lookup r.table k.s = some .listening
  sockets : ∀ v ∈ r.sockets, v = lowestFree k.table ∨ v = -1
  length : r.sockets.length = min r.children.length maxClients
  corrupt : r.corrupt = decide (maxClients < r.children.length)
  mySocket : ∀ child ∈ r.children, child.mySocket = lowestFree k.table
  serves : ∀ (c : Nat) (child : Child), r.children[c]? = some child →
    lookup child.table child.mySocket = some (.conn c)

theorem Uniform.start (k : RoomConfig) : Uniform k (.start k) := by
  constructor <;> simp [RoomState.start, k.listening]

theorem length_clearFirst (v : Int) (vs : List Int) : (clearFirst v vs).length = vs.length := by
  induction vs with
  | nil => rfl
  | cons w vs ih =>
    rw [clearFirst]
    split_ifs
    · rfl
    · rw [List.length_cons, ih, List.length_cons]

theorem mem_clearFirst {u v : Int} {vs : List Int} (h : u ∈ clearFirst v vs) : u ∈ vs ∨ u = -1 := by
  induction vs with
  | nil => exact .inl h
  | cons w vs ih =>
    rw [clearFirst] at h
    split_ifs at h
    · rcases List.mem_cons.mp h with h | h
      · exact .inr h
      · exact .inl (List.mem_cons_of_mem w h)
    · rcases List.mem_cons.mp h with h | h
      · exact .inl (h ▸ List.mem_cons_self)
      · exact (ih h).imp_left (List.mem_cons_of_mem w)

section

variable {k : RoomConfig} {r : RoomState}

theorem Uniform.connect (h : Uniform k r) : Uniform k (r.connect k) := by
  have hne : k.s ≠ lowestFree r.table := by
    intro he
    have hnone := lookup_lowestFree r.table
    rw [← he, h.open_s] at hnone
    cases hnone
  have hlen := h.length
  refine { free := ?_, open_s := ?_, sockets := ?_, length := ?_, corrupt := ?_,
           mySocket := ?_, serves := ?_ }
  · show lowestFree (close (install _ r.table) (lowestFree r.table)) = lowestFree k.table
    rw [lowestFree_close_install, h.free]
  · show lookup (close (install _ r.table) (lowestFree r.table)) k.s = some .listening
    rw [lookup_close_of_ne hne.symm, lookup_install_of_ne _ hne, h.open_s]
  · intro v hv
    by_cases hfull : r.sockets.length < maxClients
    · have hv' : v ∈ r.sockets ++ [(lowestFree r.table : Int)] := by
        simpa only [RoomState.connect, if_pos hfull] using hv
      rcases List.mem_append.mp hv' with hv' | hv'
      · exact h.sockets v hv'
      · rw [List.mem_singleton, h.free] at hv'
        exact .inl hv'
    · exact h.sockets v (by simpa only [RoomState.connect, if_neg hfull] using hv)
  · have hchildren : (r.connect k).children.length = r.children.length + 1 :=
      List.length_append
    rw [hchildren]
    by_cases hfull : r.sockets.length < maxClients
    · have hs : (r.connect k).sockets.length = r.sockets.length + 1 := by
        simp only [RoomState.connect, if_pos hfull]
        exact List.length_append
      omega
    · have hs : (r.connect k).sockets.length = r.sockets.length := by
        simp only [RoomState.connect, if_neg hfull]
      omega
  · show (r.corrupt || decide (maxClients ≤ r.sockets.length)) =
      decide (maxClients < (r.children ++ [_]).length)
    rw [h.corrupt, ← Bool.decide_or, List.length_append, List.length_singleton]
    apply decide_eq_decide.mpr
    omega
  · intro child hchild
    rcases List.mem_append.mp hchild with hchild | hchild
    · exact h.mySocket child hchild
    · rw [List.mem_singleton.mp hchild]
      exact h.free
  · refine forall_concat h.serves ?_
    show lookup (close (install _ r.table) k.s) (lowestFree r.table) = _
    rw [lookup_close_of_ne hne, lookup_install]

theorem Uniform.disconnect (h : Uniform k r) {c : Nat} {child : Child}
    (hc : r.children[c]? = some child) :
    Uniform k { r with
      sockets := clearFirst child.mySocket r.sockets
      children := r.children.set c { child with alive := false } } := by
  have hlt : c < r.children.length := (List.getElem?_eq_some_iff.mp hc).1
  refine { h with sockets := ?_, length := ?_, corrupt := ?_, mySocket := ?_, serves := ?_ }
  · intro v hv
    rcases mem_clearFirst hv with hv | hv
    · exact h.sockets v hv
    · exact .inr hv
  · show (clearFirst _ r.sockets).length = min (r.children.set c _).length maxClients
    rw [length_clearFirst, List.length_set, h.length]
  · show r.corrupt = decide (maxClients < (r.children.set c _).length)
    rw [List.length_set, h.corrupt]
  · intro ch hch
    rcases List.mem_or_eq_of_mem_set hch with hch | rfl
    · exact h.mySocket ch hch
    · exact h.mySocket child (List.mem_of_getElem? hc)
  · intro b ch hch
    by_cases hb : c = b
    · subst hb
      have hset : (r.children.set c { child with alive := false })[c]? = _ :=
        List.getElem?_set_self hlt
      rw [hset, Option.some.injEq] at hch
      rw [← hch]
      exact h.serves c child hc
    · have hset : (r.children.set c { child with alive := false })[b]? = r.children[b]? :=
        List.getElem?_set_ne hb
      exact h.serves b ch (hset ▸ hch)

theorem Uniform.step (h : Uniform k r) {a : RoomAction} {r' : RoomState}
    (hs : roomStep k r a = some r') : Uniform k r' := by
  cases a with
  | connect =>
    simp only [roomStep, Option.some.injEq] at hs
    exact hs ▸ h.connect
  | message c =>
    simp only [roomStep] at hs
    split at hs
    · cases hs
    · simp only [Option.ite_none_right_eq_some, Option.some.injEq] at hs
      exact hs.2 ▸ h
  | disconnect c =>
    simp only [roomStep] at hs
    split at hs
    · cases hs
    · rename_i child hc
      simp only [Option.ite_none_right_eq_some, Option.some.injEq] at hs
      exact hs.2 ▸ h.disconnect hc

theorem uniform (h : (room k).Reachable r) : Uniform k r := by
  apply System.Reachable.invariant (I := Uniform k) _ _ h
  · rintro r rfl
    exact Uniform.start k
  · intro r a r' hr hs
    exact hr.step hs

/-- No child ever sends to anyone. -/
theorem Uniform.broadcast_eq (h : Uniform k r) {child : Child} (hc : child ∈ r.children) :
    r.broadcast child = [] := by
  have hnone : (r.sockets.filter fun v : Int => v ≠ child.mySocket ∧ 0 < v) = [] := by
    rw [List.filter_eq_nil_iff]
    intro v hv hcond
    obtain ⟨hne, hpos⟩ := of_decide_eq_true hcond
    rw [h.mySocket child hc] at hne
    rcases h.sockets v hv with hv | hv
    · exact hne hv
    · omega
  rw [RoomState.broadcast, hnone]
  rfl

end

/-! ## Delivery -/

/-- The client has connected, and its child still reads from it. -/
def Connected (r : RoomState) (c : Nat) : Prop :=
  ∃ child, r.children[c]? = some child ∧ child.alive = true

/-- A message of client `c`, which `child` has received, goes out once to every
other connected client and not to `c`. -/
structure Delivered (r : RoomState) (c : Nat) (child : Child) : Prop where
  defined : r.corrupt = false
  others : ∀ b, Connected r b → b ≠ c → (r.broadcast child).count b = 1
  sender : c ∉ r.broadcast child

/-- Each message received in a step is delivered. -/
def Delivers (r : RoomState) : RoomAction → Prop
  | .message c => ∀ child, r.children[c]? = some child → child.alive = true → Delivered r c child
  | _ => True

/-- The sender of a message is the only client connected, and the array was
never full. -/
def OnlyClient (r : RoomState) : RoomAction → Prop
  | .message c => Connected r c →
      r.children.length ≤ maxClients ∧ ∀ b, Connected r b → b = c
  | _ => True

theorem delivers_iff {k : RoomConfig} {r : RoomState} (h : Uniform k r) (a : RoomAction) :
    Delivers r a ↔ OnlyClient r a := by
  cases a with
  | connect => exact Iff.rfl
  | disconnect c => exact Iff.rfl
  | message c =>
    constructor
    · intro hdel hcon
      obtain ⟨child, hchild, halive⟩ := hcon
      have hd := hdel child hchild halive
      have hcorrupt := h.corrupt
      rw [hd.defined, eq_comm, decide_eq_false_iff_not] at hcorrupt
      refine ⟨by omega, fun b hb => ?_⟩
      by_contra hne
      have hone := hd.others b hb hne
      rw [h.broadcast_eq (List.mem_of_getElem? hchild)] at hone
      cases hone
    · intro honly child hchild halive
      obtain ⟨hlen, hall⟩ := honly ⟨child, hchild, halive⟩
      refine { defined := ?_, others := ?_, sender := ?_ }
      · rw [h.corrupt, decide_eq_false_iff_not]
        omega
      · intro b hb hne
        exact absurd (hall b hb) hne
      · rw [h.broadcast_eq (List.mem_of_getElem? hchild)]
        exact List.not_mem_nil

/-- Messages are delivered along exactly those runs in which nobody but the
sender is there to receive them. -/
theorem process_room_delivery_iff (k : RoomConfig) (l : List RoomAction) :
    (room k).Along Delivers (.start k) l ↔ (room k).Along OnlyClient (.start k) l :=
  System.along_congr (fun _ a hr => delivers_iff (uniform hr) a) (.init rfl) l

/-- Two clients connect and the first one sends a message. -/
theorem process_room_message_lost :
    ¬ ∀ (k : RoomConfig) (l : List RoomAction), (room k).Along Delivers (.start k) l := by
  intro h
  let k : RoomConfig :=
    { table := [some .other, some .other, some .other, some .listening], s := 3
      listening := rfl }
  have hall := h k [.connect, .connect, .message 0]
  rw [System.along_cons rfl, System.along_cons rfl] at hall
  have hdel := hall.2.2.1 _ rfl rfl
  have hone := hdel.others 1 ⟨_, rfl, rfl⟩ (by decide)
  revert hone
  decide

end ProcessRoom
end Chat
end NetLab
