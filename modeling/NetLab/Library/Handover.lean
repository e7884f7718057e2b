import Mathlib.Logic.Function.Basic
import NetLab.Library.Transition

/-!
# Connections handed over to threads

An accept loop starts a thread for each connection and hands the descriptor over
in a cell of the heap that the thread frees.  Threads interleave freely with the
loop and with each other, and descriptors and cells are used again.

What a thread does on its connection is a `Worker`.  Whatever the interleaving,
the worker of each connection runs as it would alone.
-/

namespace NetLab
namespace Handover

open Transition

variable {σ κ ι : Type*}

/-- The local state of a thread with that of its connection, moved by the labels
`ι`.  The thread closes the connection where it is `done`. -/
structure Worker (σ κ ι : Type*) where
  start : σ
  step : σ × κ → ι → Option (σ × κ)
  done : σ → Bool

/-- The worker on one connection, with nobody else. -/
def Worker.alone (W : Worker σ κ ι) (k : κ) : System (σ × κ) ι where
  init s := s = (W.start, k)
  step := W.step

inductive ThreadPc (σ : Type*)
  | started (arg : Nat)
  | running (fd : Nat) (here : σ)
  | finished (here : σ)
  deriving DecidableEq

/-- Where the accept loop stands: in `accept`, before `malloc`, or before the
thread is created. -/
inductive MainPc
  | accepting
  | accepted (fd conn : Nat)
  | allocated (fd conn arg : Nat)
  deriving DecidableEq

/-- `fds` says which connection a descriptor is open for, and `cells` what is in
the cells that are not freed.  Connections are counted in the order in which they
are accepted: `opened` holds how each of them was then, `conns` how it is now, and
a thread is known by its connection. -/
structure State (σ κ : Type*) where
  fds : Nat → Option Nat
  cells : Nat → Option Nat
  opened : List κ
  conns : Nat → Option κ
  main : MainPc
  threads : Nat → Option (ThreadPc σ)

inductive Action (κ ι : Type*)
  | accept (fd : Nat) (k : κ)
  | acceptFails
  | malloc (addr : Nat)
  | spawn
  | spawnFails
  | take (conn : Nat)
  | act (conn : Nat) (i : ι)
  | close (conn : Nat)
  deriving DecidableEq

namespace State

def acceptStep (s : State σ κ) (fd : Nat) (k : κ) : State σ κ :=
  { s with
    fds := Function.update s.fds fd (some s.opened.length)
    opened := s.opened ++ [k]
    conns := Function.update s.conns s.opened.length (some k)
    main := .accepted fd s.opened.length }

/-- The cell is allocated and the descriptor written into it. -/
def mallocStep (s : State σ κ) (fd conn addr : Nat) : State σ κ :=
  { s with cells := Function.update s.cells addr (some fd), main := .allocated fd conn addr }

def spawnStep (s : State σ κ) (conn arg : Nat) : State σ κ :=
  { s with main := .accepting, threads := Function.update s.threads conn (some (.started arg)) }

/-- The thread reads the cell and frees it. -/
def takeStep (s : State σ κ) (conn arg fd : Nat) (here : σ) : State σ κ :=
  { s with
    cells := Function.update s.cells arg none
    threads := Function.update s.threads conn (some (.running fd here)) }

/-- The thread of one connection acts on the connection that its descriptor is
open for. -/
def actStep (s : State σ κ) (conn fd target : Nat) (here : σ) (k : κ) : State σ κ :=
  { s with
    conns := Function.update s.conns target (some k)
    threads := Function.update s.threads conn (some (.running fd here)) }

def closeStep (s : State σ κ) (conn fd : Nat) (here : σ) : State σ κ :=
  { s with
    fds := Function.update s.fds fd none
    threads := Function.update s.threads conn (some (.finished here)) }

end State

/-- A cell that is not allocated is not read: such a run ends. -/
def step (W : Worker σ κ ι) (s : State σ κ) : Action κ ι → Option (State σ κ)
  | .accept fd k =>
    if s.main = .accepting ∧ s.fds fd = none then some (s.acceptStep fd k) else none
  | .acceptFails => if s.main = .accepting then some s else none
  | .malloc addr =>
    match s.main with
    | .accepted fd conn => if s.cells addr = none then some (s.mallocStep fd conn addr) else none
    | _ => none
  | .spawn =>
    match s.main with
    | .allocated _ conn arg => some (s.spawnStep conn arg)
    | _ => none
  | .spawnFails =>
    match s.main with
    | .allocated _ _ _ => some { s with main := .accepting }
    | _ => none
  | .take conn =>
    match s.threads conn with
    | some (.started arg) => (s.cells arg).map fun fd => s.takeStep conn arg fd W.start
    | _ => none
  | .act conn i =>
    match s.threads conn with
    | some (.running fd here) =>
      (s.fds fd).bind fun target => (s.conns target).bind fun k =>
        (W.step (here, k) i).map fun next => s.actStep conn fd target next.1 next.2
    | _ => none
  | .close conn =>
    match s.threads conn with
    | some (.running fd here) => if W.done here then some (s.closeStep conn fd here) else none
    | _ => none

def start : State σ κ :=
  { fds := fun _ => none
    cells := fun _ => none
    opened := []
    conns := fun _ => none
    main := .accepting
    threads := fun _ => none }

def server (W : Worker σ κ ι) : System (State σ κ) (Action κ ι) where
  init s := s = start
  step := step W

/-- What the thread of one connection does on it along a run. -/
def labels (conn : Nat) (as : List (Action κ ι)) : List ι :=
  as.filterMap fun
    | .act c i => if c = conn then some i else none
    | _ => none

/-! ## What a step does -/

/-- The moves of the server. -/
inductive Move (W : Worker σ κ ι) (s : State σ κ) : Action κ ι → State σ κ → Prop
  | accept {fd : Nat} (k : κ) (hmain : s.main = .accepting) (hfree : s.fds fd = none) :
      Move W s (.accept fd k) (s.acceptStep fd k)
  | acceptFails : Move W s .acceptFails s
  | malloc {fd conn addr : Nat} (hmain : s.main = .accepted fd conn)
      (hfree : s.cells addr = none) : Move W s (.malloc addr) (s.mallocStep fd conn addr)
  | spawn {fd conn arg : Nat} (hmain : s.main = .allocated fd conn arg) :
      Move W s .spawn (s.spawnStep conn arg)
  | spawnFails : Move W s .spawnFails { s with main := .accepting }
  | take {conn arg fd : Nat} (hpc : s.threads conn = some (.started arg))
      (hcell : s.cells arg = some fd) : Move W s (.take conn) (s.takeStep conn arg fd W.start)
  | act {conn fd target : Nat} {here : σ} {k : κ} {i : ι} {next : σ × κ}
      (hpc : s.threads conn = some (.running fd here)) (hopen : s.fds fd = some target)
      (hconn : s.conns target = some k) (hstep : W.step (here, k) i = some next) :
      Move W s (.act conn i) (s.actStep conn fd target next.1 next.2)
  | close {conn fd : Nat} {here : σ} (hpc : s.threads conn = some (.running fd here))
      (hdone : W.done here = true) : Move W s (.close conn) (s.closeStep conn fd here)

theorem move_of_step {W : Worker σ κ ι} {s s' : State σ κ} {a : Action κ ι}
    (h : step W s a = some s') : Move W s a s' := by
  cases a with
  | accept fd k =>
    obtain ⟨hok, heq⟩ := Option.ite_none_right_eq_some.mp h
    exact Option.some.inj heq ▸ .accept k hok.1 hok.2
  | acceptFails =>
    obtain ⟨-, heq⟩ := Option.ite_none_right_eq_some.mp h
    exact Option.some.inj heq ▸ .acceptFails
  | malloc addr =>
    rw [step] at h
    split at h
    · obtain ⟨hfree, heq⟩ := Option.ite_none_right_eq_some.mp h
      exact Option.some.inj heq ▸ .malloc ‹_› hfree
    · cases h
  | spawn =>
    rw [step] at h
    split at h
    · exact Option.some.inj h ▸ .spawn ‹_›
    · cases h
  | spawnFails =>
    rw [step] at h
    split at h
    · exact Option.some.inj h ▸ .spawnFails
    · cases h
  | take conn =>
    rw [step] at h
    split at h
    · obtain ⟨fd, hcell, rfl⟩ := Option.map_eq_some_iff.mp h
      exact .take ‹_› hcell
    · cases h
  | act conn i =>
    rw [step] at h
    split at h
    · obtain ⟨target, hopen, h⟩ := Option.bind_eq_some_iff.mp h
      obtain ⟨k, hconn, h⟩ := Option.bind_eq_some_iff.mp h
      obtain ⟨next, hstep, rfl⟩ := Option.map_eq_some_iff.mp h
      exact .act ‹_› hopen hconn hstep
    · cases h
  | close conn =>
    rw [step] at h
    split at h
    · obtain ⟨hdone, heq⟩ := Option.ite_none_right_eq_some.mp h
      exact Option.some.inj heq ▸ .close ‹_› hdone
    · cases h

/-! ## Who holds which descriptor -/

/-- A descriptor that is open for a connection is held by the loop or by the
thread of that connection, and by nobody else. -/
structure Owned (s : State σ κ) : Prop where
  accepted : ∀ fd c, s.main = .accepted fd c → s.fds fd = some c ∧ s.threads c = none
  allocated : ∀ fd c arg, s.main = .allocated fd c arg →
    s.cells arg = some fd ∧ s.fds fd = some c ∧ s.threads c = none
  started : ∀ c arg, s.threads c = some (.started arg) →
    ∃ fd, s.cells arg = some fd ∧ s.fds fd = some c
  running : ∀ c fd here, s.threads c = some (.running fd here) → s.fds fd = some c
  finished : ∀ c fd here, s.threads c = some (.finished here) → s.fds fd ≠ some c
  unique : ∀ fd fd' c, s.fds fd = some c → s.fds fd' = some c → fd = fd'
  opened : ∀ fd c, s.fds fd = some c → c < s.opened.length
  threads : ∀ c pc, s.threads c = some pc → c < s.opened.length

theorem owned_start : Owned (start : State σ κ) where
  accepted _ _ h := by cases h
  allocated _ _ _ h := by cases h
  started _ _ h := by cases h
  running _ _ _ h := by cases h
  finished _ _ _ h := by cases h
  unique _ _ _ h := by cases h
  opened _ _ h := by cases h
  threads _ _ h := by cases h

section

variable {s s' : State σ κ} {W : Worker σ κ ι}

/-- The entry that was updated, or one of the others. -/
theorem update_eq_some {β : Type*} {f : Nat → Option β} {c c' : Nat} {v : Option β} {b : β}
    (h : Function.update f c v c' = some b) : c' = c ∧ v = some b ∨ c' ≠ c ∧ f c' = some b := by
  by_cases hc : c' = c
  · rw [hc, Function.update_self] at h
    exact .inl ⟨hc, h⟩
  · rw [Function.update_of_ne hc] at h
    exact .inr ⟨hc, h⟩

/-- A table keeps what it holds when a free entry is filled. -/
theorem update_free {β : Type*} {f : Nat → Option β} {c c' : Nat} {v : Option β} {b : β}
    (hfree : f c = none) (h : f c' = some b) : Function.update f c v c' = some b := by
  have hne : c' ≠ c := by
    rintro rfl
    rw [hfree] at h
    cases h
  rw [Function.update_of_ne hne, h]

theorem Owned.accept (h : Owned s) {fd : Nat} (hfree : s.fds fd = none) (k : κ) :
    Owned (s.acceptStep fd k) := by
  have hlen : (s.opened ++ [k]).length = s.opened.length + 1 := by
    rw [List.length_append, List.length_singleton]
  have hnew : s.threads s.opened.length = none := by
    rw [Option.eq_none_iff_forall_ne_some]
    intro pc hpc
    exact Nat.lt_irrefl _ (h.threads _ pc hpc)
  refine { accepted := ?_, allocated := ?_, started := ?_, running := ?_, finished := ?_,
           unique := ?_, opened := ?_, threads := ?_ }
  · rintro fd' c hmain
    obtain ⟨rfl, rfl⟩ := MainPc.accepted.inj hmain
    exact ⟨Function.update_self _ _ _, hnew⟩
  · rintro fd' c arg hmain
    cases hmain
  · intro c arg hpc
    obtain ⟨fd', hcell, hopen⟩ := h.started c arg hpc
    exact ⟨fd', hcell, update_free hfree hopen⟩
  · intro c fd' here hpc
    exact update_free hfree (h.running c fd' here hpc)
  · intro c fd' here hpc hopen
    rcases update_eq_some hopen with ⟨-, hc⟩ | ⟨-, hopen⟩
    · exact absurd (h.threads c _ hpc) (Option.some.inj hc ▸ Nat.lt_irrefl _)
    · exact h.finished c fd' here hpc hopen
  · intro fd₁ fd₂ c h₁ h₂
    rcases update_eq_some h₁ with ⟨rfl, hc₁⟩ | ⟨-, h₁⟩
    · rcases update_eq_some h₂ with ⟨rfl, -⟩ | ⟨-, h₂⟩
      · rfl
      · exact absurd (h.opened fd₂ c h₂) (Option.some.inj hc₁ ▸ Nat.lt_irrefl _)
    · rcases update_eq_some h₂ with ⟨-, hc₂⟩ | ⟨-, h₂⟩
      · exact absurd (h.opened fd₁ c h₁) (Option.some.inj hc₂ ▸ Nat.lt_irrefl _)
      · exact h.unique fd₁ fd₂ c h₁ h₂
  · intro fd' c hopen
    show c < (s.opened ++ [k]).length
    rcases update_eq_some hopen with ⟨-, hc⟩ | ⟨-, hopen⟩
    · rw [hlen, ← Option.some.inj hc]
      exact Nat.lt_succ_self _
    · rw [hlen]
      exact Nat.lt_succ_of_lt (h.opened fd' c hopen)
  · intro c pc hpc
    show c < (s.opened ++ [k]).length
    rw [hlen]
    exact Nat.lt_succ_of_lt (h.threads c pc hpc)

theorem Owned.malloc (h : Owned s) {fd conn addr : Nat} (hmain : s.main = .accepted fd conn)
    (hfree : s.cells addr = none) : Owned (s.mallocStep fd conn addr) := by
  obtain ⟨hopen, hnone⟩ := h.accepted fd conn hmain
  refine { h with accepted := ?_, allocated := ?_, started := ?_ }
  · rintro fd' c hmain'
    cases hmain'
  · rintro fd' c arg hmain'
    obtain ⟨rfl, rfl, rfl⟩ := MainPc.allocated.inj hmain'
    exact ⟨Function.update_self _ _ _, hopen, hnone⟩
  · intro c arg hpc
    obtain ⟨fd', hcell, hopen'⟩ := h.started c arg hpc
    exact ⟨fd', update_free hfree hcell, hopen'⟩

theorem Owned.accepting (h : Owned s) : Owned { s with main := .accepting } where
  accepted _ _ hmain := by cases hmain
  allocated _ _ _ hmain := by cases hmain
  started := h.started
  running := h.running
  finished := h.finished
  unique := h.unique
  opened := h.opened
  threads := h.threads

theorem Owned.spawn (h : Owned s) {fd conn arg : Nat} (hmain : s.main = .allocated fd conn arg) :
    Owned (s.spawnStep conn arg) := by
  obtain ⟨hcell, hopen, hnone⟩ := h.allocated fd conn arg hmain
  refine { h with accepted := fun _ _ hm => MainPc.noConfusion hm,
                  allocated := fun _ _ _ hm => MainPc.noConfusion hm,
                  started := ?_, running := ?_, finished := ?_, threads := ?_ }
  · intro c arg' hpc
    rcases update_eq_some hpc with ⟨rfl, hnew⟩ | ⟨-, hpc⟩
    · obtain rfl := ThreadPc.started.inj (Option.some.inj hnew)
      exact ⟨fd, hcell, hopen⟩
    · exact h.started c arg' hpc
  · intro c fd' here hpc
    rcases update_eq_some hpc with ⟨-, hpc⟩ | ⟨-, hpc⟩
    · cases hpc
    · exact h.running c fd' here hpc
  · intro c fd' here hpc
    rcases update_eq_some hpc with ⟨-, hpc⟩ | ⟨-, hpc⟩
    · cases hpc
    · exact h.finished c fd' here hpc
  · intro c pc hpc
    rcases update_eq_some hpc with ⟨rfl, -⟩ | ⟨-, hpc⟩
    · exact h.opened fd c hopen
    · exact h.threads c pc hpc

/-- The thread frees its own cell, which is nobody else's. -/
theorem Owned.take (h : Owned s) {conn arg fd : Nat} (here : σ)
    (hpc : s.threads conn = some (.started arg)) (hcell : s.cells arg = some fd) :
    Owned (s.takeStep conn arg fd here) := by
  have hopen : s.fds fd = some conn := by
    obtain ⟨fd', hcell', hopen⟩ := h.started conn arg hpc
    rw [hcell, Option.some.injEq] at hcell'
    exact hcell' ▸ hopen
  have hother : ∀ c arg' fd', c ≠ conn → s.cells arg' = some fd' → s.fds fd' = some c →
      Function.update s.cells arg none arg' = some fd' := by
    intro c arg' fd' hc hcell' hopen'
    have hne : arg' ≠ arg := by
      rintro rfl
      rw [hcell, Option.some.injEq] at hcell'
      rw [← hcell', hopen, Option.some.injEq] at hopen'
      exact hc hopen'.symm
    rw [Function.update_of_ne hne, hcell']
  have hnone : ∀ c, s.threads c = none → c ≠ conn := by
    rintro c hc rfl
    rw [hpc] at hc
    cases hc
  refine { h with accepted := ?_, allocated := ?_, started := ?_, running := ?_, finished := ?_,
                  threads := ?_ }
  · intro fd' c hmain
    obtain ⟨hopen', hc⟩ := h.accepted fd' c hmain
    exact ⟨hopen', (Function.update_of_ne (hnone c hc) _ _).trans hc⟩
  · intro fd' c arg' hmain
    obtain ⟨hcell', hopen', hc⟩ := h.allocated fd' c arg' hmain
    have hne := hnone c hc
    exact ⟨hother c arg' fd' hne hcell' hopen', hopen', (Function.update_of_ne hne _ _).trans hc⟩
  · intro c arg' hpc'
    rcases update_eq_some hpc' with ⟨-, hpc'⟩ | ⟨hc, hpc'⟩
    · cases hpc'
    · obtain ⟨fd', hcell', hopen'⟩ := h.started c arg' hpc'
      exact ⟨fd', hother c arg' fd' hc hcell' hopen', hopen'⟩
  · intro c fd' here' hpc'
    rcases update_eq_some hpc' with ⟨rfl, hnew⟩ | ⟨-, hpc'⟩
    · obtain ⟨rfl, -⟩ := ThreadPc.running.inj (Option.some.inj hnew)
      exact hopen
    · exact h.running c fd' here' hpc'
  · intro c fd' here' hpc'
    rcases update_eq_some hpc' with ⟨-, hpc'⟩ | ⟨-, hpc'⟩
    · cases hpc'
    · exact h.finished c fd' here' hpc'
  · intro c pc hpc'
    rcases update_eq_some hpc' with ⟨rfl, -⟩ | ⟨-, hpc'⟩
    · exact h.threads c _ hpc
    · exact h.threads c pc hpc'

theorem Owned.act (h : Owned s) {conn fd target : Nat} {here : σ} (here' : σ) (k : κ)
    (hpc : s.threads conn = some (.running fd here)) :
    Owned (s.actStep conn fd target here' k) := by
  have hnone : ∀ c, s.threads c = none → Function.update s.threads conn
      (some (.running fd here')) c = none := by
    intro c hc
    have hne : c ≠ conn := by
      rintro rfl
      rw [hpc] at hc
      cases hc
    rw [Function.update_of_ne hne, hc]
  refine { h with accepted := ?_, allocated := ?_, started := ?_, running := ?_, finished := ?_,
                  threads := ?_ }
  · intro fd' c hmain
    obtain ⟨hopen, hc⟩ := h.accepted fd' c hmain
    exact ⟨hopen, hnone c hc⟩
  · intro fd' c arg hmain
    obtain ⟨hcell, hopen, hc⟩ := h.allocated fd' c arg hmain
    exact ⟨hcell, hopen, hnone c hc⟩
  · intro c arg hpc'
    rcases update_eq_some hpc' with ⟨-, hpc'⟩ | ⟨-, hpc'⟩
    · cases hpc'
    · exact h.started c arg hpc'
  · intro c fd' here'' hpc'
    rcases update_eq_some hpc' with ⟨rfl, hnew⟩ | ⟨-, hpc'⟩
    · obtain ⟨rfl, -⟩ := ThreadPc.running.inj (Option.some.inj hnew)
      exact h.running c fd here hpc
    · exact h.running c fd' here'' hpc'
  · intro c fd' here'' hpc'
    rcases update_eq_some hpc' with ⟨-, hpc'⟩ | ⟨-, hpc'⟩
    · cases hpc'
    · exact h.finished c fd' here'' hpc'
  · intro c pc hpc'
    rcases update_eq_some hpc' with ⟨rfl, -⟩ | ⟨-, hpc'⟩
    · exact h.threads c _ hpc
    · exact h.threads c pc hpc'

/-- The thread closes its own descriptor, and no other is open for its connection. -/
theorem Owned.close (h : Owned s) {conn fd : Nat} {here : σ}
    (hpc : s.threads conn = some (.running fd here)) : Owned (s.closeStep conn fd here) := by
  have hopen := h.running conn fd here hpc
  have hother : ∀ c fd', c ≠ conn → s.fds fd' = some c →
      Function.update s.fds fd none fd' = some c := by
    intro c fd' hc hopen'
    have hne : fd' ≠ fd := by
      rintro rfl
      rw [hopen, Option.some.injEq] at hopen'
      exact hc hopen'.symm
    rw [Function.update_of_ne hne, hopen']
  have hkept : ∀ c fd', Function.update s.fds fd none fd' = some c → s.fds fd' = some c := by
    intro c fd' hopen'
    rcases update_eq_some hopen' with ⟨-, hopen'⟩ | ⟨-, hopen'⟩
    · cases hopen'
    · exact hopen'
  have hnone : ∀ c, s.threads c = none → c ≠ conn := by
    rintro c hc rfl
    rw [hpc] at hc
    cases hc
  refine { accepted := ?_, allocated := ?_, started := ?_, running := ?_, finished := ?_,
           unique := ?_, opened := ?_, threads := ?_ }
  · intro fd' c hmain
    obtain ⟨hopen', hc⟩ := h.accepted fd' c hmain
    have hne := hnone c hc
    exact ⟨hother c fd' hne hopen', (Function.update_of_ne hne _ _).trans hc⟩
  · intro fd' c arg hmain
    obtain ⟨hcell, hopen', hc⟩ := h.allocated fd' c arg hmain
    have hne := hnone c hc
    exact ⟨hcell, hother c fd' hne hopen', (Function.update_of_ne hne _ _).trans hc⟩
  · intro c arg hpc'
    rcases update_eq_some hpc' with ⟨-, hpc'⟩ | ⟨hc, hpc'⟩
    · cases hpc'
    · obtain ⟨fd', hcell, hopen'⟩ := h.started c arg hpc'
      exact ⟨fd', hcell, hother c fd' hc hopen'⟩
  · intro c fd' here' hpc'
    rcases update_eq_some hpc' with ⟨-, hpc'⟩ | ⟨hc, hpc'⟩
    · cases hpc'
    · exact hother c fd' hc (h.running c fd' here' hpc')
  · intro c fd' here' hpc' hopen'
    rcases update_eq_some hpc' with ⟨rfl, -⟩ | ⟨-, hpc'⟩
    · rcases update_eq_some hopen' with ⟨-, hopen'⟩ | ⟨hne, hopen'⟩
      · cases hopen'
      · exact hne (h.unique fd' fd c hopen' hopen)
    · exact h.finished c fd' here' hpc' (hkept c fd' hopen')
  · intro fd₁ fd₂ c h₁ h₂
    exact h.unique fd₁ fd₂ c (hkept c fd₁ h₁) (hkept c fd₂ h₂)
  · intro fd' c hopen'
    exact h.opened fd' c (hkept c fd' hopen')
  · intro c pc hpc'
    rcases update_eq_some hpc' with ⟨rfl, -⟩ | ⟨-, hpc'⟩
    · exact h.threads c _ hpc
    · exact h.threads c pc hpc'

theorem Owned.move (h : Owned s) {a : Action κ ι} (hm : Move W s a s') : Owned s' := by
  cases hm with
  | accept k hmain hfree => exact h.accept hfree k
  | acceptFails => exact h
  | malloc hmain hfree => exact h.malloc hmain hfree
  | spawn hmain => exact h.spawn hmain
  | spawnFails => exact h.accepting
  | take hpc hcell => exact h.take W.start hpc hcell
  | act hpc hopen hconn hstep => exact h.act _ _ hpc
  | close hpc hdone => exact h.close hpc

/-! ## Each worker runs as it would alone -/

/-- The local state of the worker, which starts when its thread has read the
cell. -/
def ThreadPc.here (W : Worker σ κ ι) : Option (ThreadPc σ) → σ
  | some (.running _ here) => here
  | some (.finished here) => here
  | _ => W.start

/-- The worker of one connection has gone through `ls`, alone on its connection. -/
structure Solo (W : Worker σ κ ι) (s : State σ κ) (c : Nat) (ls : List ι) : Prop where
  idle : s.threads c = none → ls = []
  ran : ∀ k, s.opened[c]? = some k → ∃ k', s.conns c = some k' ∧
    (W.alone k).run (W.start, k) ls = some (ThreadPc.here W (s.threads c), k')
  done : ∀ here, s.threads c = some (.finished here) → W.done here = true

theorem labels_concat (c : Nat) (as : List (Action κ ι)) (a : Action κ ι) :
    labels c (as ++ [a]) = labels c as ++ labels c [a] := List.filterMap_append

theorem labels_act_self (c : Nat) (i : ι) : labels c [(.act c i : Action κ ι)] = [i] := by
  simp [labels]

theorem labels_act_of_ne {c c' : Nat} (h : c' ≠ c) (i : ι) :
    labels c [(.act c' i : Action κ ι)] = [] := by
  simp [labels, h]

/-- What a move leaves alone. -/
theorem Solo.of_eq {c : Nat} {ls : List ι} (h : Solo W s c ls)
    (hopened : s'.opened[c]? = s.opened[c]?) (hconns : s'.conns c = s.conns c)
    (hthreads : s'.threads c = s.threads c) : Solo W s' c ls where
  idle hnone := h.idle (hthreads ▸ hnone)
  ran := by
    rw [hopened, hconns, hthreads]
    exact h.ran
  done here hpc := h.done here (hthreads ▸ hpc)

theorem Solo.accept (hown : Owned s) {c : Nat} {ls : List ι} (h : Solo W s c ls) (fd : Nat)
    (k : κ) : Solo W (s.acceptStep fd k) c ls := by
  rcases Nat.lt_trichotomy c s.opened.length with hlt | rfl | hgt
  · exact h.of_eq (List.getElem?_append_left hlt)
      (Function.update_of_ne (Nat.ne_of_lt hlt) _ _) rfl
  · have hnone : s.threads s.opened.length = none := by
      rw [Option.eq_none_iff_forall_ne_some]
      intro pc hpc
      exact Nat.lt_irrefl _ (hown.threads _ pc hpc)
    refine { h with ran := fun k' hk' => ?_ }
    rw [State.acceptStep, List.getElem?_concat_length, Option.some.injEq] at hk'
    subst hk'
    refine ⟨k, Function.update_self _ _ _, ?_⟩
    show (W.alone k).run (W.start, k) ls = some (ThreadPc.here W (s.threads s.opened.length), k)
    rw [hnone, h.idle hnone]
    rfl
  · refine { h with ran := fun k' hk' => ?_ }
    have hlen : (s.opened ++ [k]).length ≤ c := by
      rw [List.length_append, List.length_singleton]
      exact hgt
    have hnone : (s.opened ++ [k])[c]? = none := List.getElem?_eq_none hlen
    exact absurd (hnone.symm.trans hk') (Option.some_ne_none k').symm

/-- The thread moves on without a step of its worker. -/
theorem Solo.of_pc {conn : Nat} {pc' : ThreadPc σ} {c : Nat} {ls : List ι}
    (h : Solo W s c ls) (hopened : s'.opened = s.opened) (hconns : s'.conns = s.conns)
    (hthreads : s'.threads = Function.update s.threads conn (some pc'))
    (hpc : ThreadPc.here W (some pc') = ThreadPc.here W (s.threads conn))
    (hdone : ∀ here, pc' = .finished here → W.done here = true) : Solo W s' c ls := by
  by_cases hc : c = conn
  · subst hc
    have hself : s'.threads c = some pc' := by rw [hthreads, Function.update_self]
    refine { idle := fun hnone => ?_, ran := ?_, done := fun here hfin => ?_ }
    · rw [hself] at hnone
      cases hnone
    · rw [hopened, hconns, hself, hpc]
      exact h.ran
    · rw [hself, Option.some.injEq] at hfin
      exact hdone here hfin
  · exact h.of_eq (by rw [hopened]) (by rw [hconns])
      (by rw [hthreads, Function.update_of_ne hc])

theorem Solo.act (hown : Owned s) {conn fd target : Nat} {here : σ} {k : κ} {i : ι} {next : σ × κ}
    (hpc : s.threads conn = some (.running fd here)) (hopen : s.fds fd = some target)
    (hconn : s.conns target = some k) (hstep : W.step (here, k) i = some next) {c : Nat}
    {ls : List ι} (h : Solo W s c ls) :
    Solo W (s.actStep conn fd target next.1 next.2) c
      (ls ++ labels c [(.act conn i : Action κ ι)]) := by
  -- The descriptor is open for the thread's own connection.
  obtain rfl : conn = target := Option.some.inj ((hown.running conn fd here hpc).symm.trans hopen)
  by_cases hc : conn = c
  · subst hc
    rw [labels_act_self]
    have hself : (s.actStep conn fd conn next.1 next.2).threads conn =
        some (.running fd next.1) := Function.update_self _ _ _
    refine { idle := fun hnone => ?_, ran := fun k₀ hk₀ => ?_, done := fun here' hfin => ?_ }
    · rw [hself] at hnone
      cases hnone
    · obtain ⟨k', hk', hrun⟩ := h.ran k₀ hk₀
      obtain rfl : k = k' := Option.some.inj (hconn.symm.trans hk')
      rw [hpc] at hrun
      refine ⟨next.2, Function.update_self _ _ _, ?_⟩
      rw [hself]
      exact System.run_concat hrun hstep
    · rw [hself] at hfin
      cases hfin
  · rw [labels_act_of_ne hc, List.append_nil]
    exact h.of_eq rfl (Function.update_of_ne (Ne.symm hc) _ _)
      (Function.update_of_ne (Ne.symm hc) _ _)

theorem Solo.move (hown : Owned s) {a : Action κ ι} (hm : Move W s a s') {c : Nat} {ls : List ι}
    (h : Solo W s c ls) : Solo W s' c (ls ++ labels c [a]) := by
  cases hm with
  | @accept fd k hmain hfree =>
    rw [show labels c [Action.accept fd k] = ([] : List ι) from rfl, List.append_nil]
    exact h.accept hown fd k
  | acceptFails =>
    rw [show labels c [Action.acceptFails] = ([] : List ι) from rfl, List.append_nil]
    exact h
  | @malloc fd conn addr hmain hfree =>
    rw [show labels c [Action.malloc addr] = ([] : List ι) from rfl, List.append_nil]
    exact h.of_eq rfl rfl rfl
  | @spawn fd conn arg hmain =>
    rw [show labels c [Action.spawn] = ([] : List ι) from rfl, List.append_nil]
    refine h.of_pc rfl rfl rfl ?_ fun here hfin => by cases hfin
    rw [(hown.allocated fd conn arg hmain).2.2]
    rfl
  | spawnFails =>
    rw [show labels c [Action.spawnFails] = ([] : List ι) from rfl, List.append_nil]
    exact h.of_eq rfl rfl rfl
  | @take conn arg fd hpc hcell =>
    rw [show labels c [Action.take conn] = ([] : List ι) from rfl, List.append_nil]
    refine h.of_pc rfl rfl rfl ?_ fun here hfin => by cases hfin
    rw [hpc]
    rfl
  | act hpc hopen hconn hstep => exact h.act hown hpc hopen hconn hstep
  | @close conn fd here hpc hdone =>
    rw [show labels c [Action.close conn] = ([] : List ι) from rfl, List.append_nil]
    refine h.of_pc rfl rfl rfl ?_ fun here' hfin => ThreadPc.finished.inj hfin ▸ hdone
    rw [hpc]
    rfl

end

/-- Along every run the descriptors are where they belong, and the worker of each
connection has run as it would alone. -/
theorem run_solo {W : Worker σ κ ι} {as : List (Action κ ι)} {s : State σ κ}
    (h : (server W).run start as = some s) : Owned s ∧ ∀ c, Solo W s c (labels c as) := by
  have hstart : ∀ c, Solo W start c [] := fun c =>
    { idle := fun _ => rfl
      ran := fun k hk => absurd hk (by simp [start])
      done := fun here hfin => by cases hfin }
  have hempty : Owned (start : State σ κ) ∧
      ∀ c, Solo W start c (labels c ([] : List (Action κ ι))) :=
    ⟨owned_start, hstart⟩
  refine System.run_history (M := server W)
    (I := fun before s => Owned s ∧ ∀ c, Solo W s c (labels c before)) ?_ hempty h
  rintro before s a s' ⟨hown, hsolo⟩ hs
  have hm := move_of_step hs
  refine ⟨hown.move hm, fun c => ?_⟩
  rw [labels_concat]
  exact (hsolo c).move hown hm

end Handover
end NetLab
