import Mathlib.Data.List.Induction
import NetLab.Library.Bytes

/-!
# A text written piece by piece

The pieces are written with `snprintf`, which returns the length of the whole
text also when it writes a part of it.  A cursor is a position in the buffer and
an unsigned integer of the machine for the room that is left; after each call it
is advanced by what the call returned.
-/

namespace NetLab

structure Cursor (w : Nat) where
  offset : Nat
  remaining : BitVec w

/-- One call of `snprintf`: the cursor it is given, and the cursor afterwards. -/
structure Call (w : Nat) where
  given : Cursor w
  text : Bytes
  after : Cursor w

namespace Cursor

variable {w : Nat}

def start (size : BitVec w) : Cursor w := { offset := 0, remaining := size }

def advance (c : Cursor w) (written : Nat) : Cursor w where
  offset := c.offset + written
  remaining := c.remaining - BitVec.ofNat w written

/-- The position is in the buffer, and the room is what is left behind it. -/
structure Inside (size : BitVec w) (c : Cursor w) : Prop where
  offset_le : c.offset ≤ size.toNat
  remaining_eq : c.remaining.toNat = size.toNat - c.offset

/-- The calls that write the texts one after the other. -/
def calls : Cursor w → List Bytes → List (Call w)
  | _, [] => []
  | c, text :: texts =>
      { given := c, text := text, after := c.advance text.length } ::
        calls (c.advance text.length) texts

/-- The cursor after the texts. -/
def past (c : Cursor w) (texts : List Bytes) : Cursor w :=
  texts.foldl (fun c text => c.advance text.length) c

/-- The memory after a call, `none` where the call writes past the buffer.  A
text that does not fit is cut, and a call without room writes nothing. -/
def snprintf (c : Cursor w) (text buf : Bytes) : Option Bytes :=
  let data := text.take (c.remaining.toNat - 1) ++ [0]
  if c.remaining.toNat = 0 then some buf
  else if c.offset + data.length ≤ buf.length then
    some (buf.take c.offset ++ data ++ buf.drop (c.offset + data.length))
  else none

/-- The memory after a sequence of calls. -/
def perform (l : List (Call w)) (buf : Bytes) : Option Bytes :=
  l.foldlM (fun buf call => snprintf call.given call.text buf) buf

/-- The buffer after a text was written to its start: as much of it as fits, and
a NUL. -/
structure Written (size : BitVec w) (text buf : Bytes) : Prop where
  length_eq : buf.length = size.toNat
  prefix_of_ne : 0 < size.toNat → text ≠ [] → text.take (size.toNat - 1) ++ [0] <+: buf

variable {size : BitVec w} {c : Cursor w}

@[simp] theorem offset_start (size : BitVec w) : (start size).offset = 0 := rfl

theorem inside_start (size : BitVec w) : Inside size (start size) where
  offset_le := Nat.zero_le _
  remaining_eq := rfl

/-- A cursor that is inside stays inside as long as its position does. -/
theorem Inside.advance_iff (h : Inside size c) (n : Nat) :
    Inside size (c.advance n) ↔ c.offset + n ≤ size.toNat := by
  constructor
  · exact fun hnext => hnext.offset_le
  · intro hle
    have hroom : n ≤ c.remaining.toNat := by
      rw [h.remaining_eq]
      omega
    have hn : (BitVec.ofNat w n).toNat = n := by
      rw [BitVec.toNat_ofNat]
      exact Nat.mod_eq_of_lt (lt_of_le_of_lt hroom c.remaining.isLt)
    refine ⟨hle, ?_⟩
    have hsub : (c.remaining - BitVec.ofNat w n).toNat = c.remaining.toNat - n := by
      rw [BitVec.toNat_sub_of_le (by rw [BitVec.le_def, hn]; exact hroom), hn]
    simp only [advance, hsub, h.remaining_eq]
    omega

theorem map_text_calls (c : Cursor w) (texts : List Bytes) :
    (calls c texts).map Call.text = texts := by
  induction texts generalizing c with
  | nil => rfl
  | cons text texts ih => rw [calls, List.map_cons, ih]

theorem past_cons (c : Cursor w) (text : Bytes) (texts : List Bytes) :
    c.past (text :: texts) = (c.advance text.length).past texts := rfl

theorem offset_past (c : Cursor w) (texts : List Bytes) :
    (c.past texts).offset = c.offset + texts.flatten.length := by
  induction texts generalizing c with
  | nil => rfl
  | cons text texts ih =>
    rw [past_cons, ih, List.flatten_cons, List.length_append, ← Nat.add_assoc]
    rfl

/-- The induction is on the texts: the cursor of the first one is inside exactly
if the first text fits, and only then the rest is asked. -/
theorem Inside.calls_iff (h : Inside size c) (texts : List Bytes) :
    (∀ call ∈ calls c texts, Inside size call.after) ↔
      c.offset + texts.flatten.length ≤ size.toNat := by
  induction texts generalizing c with
  | nil =>
    rw [List.flatten_nil, List.length_nil, Nat.add_zero]
    exact iff_of_true nofun h.offset_le
  | cons text texts ih =>
    rw [calls, List.forall_mem_cons, List.flatten_cons, List.length_append, ← Nat.add_assoc]
    constructor
    · rintro ⟨hfirst, hrest⟩
      exact (ih hfirst).mp hrest
    · intro hle
      have hfirst : Inside size (c.advance text.length) :=
        (h.advance_iff _).mpr (Nat.le_of_add_right_le hle)
      exact ⟨hfirst, (ih hfirst).mpr hle⟩

theorem Inside.past (h : Inside size c) {texts : List Bytes}
    (hfit : c.offset + texts.flatten.length ≤ size.toNat) : Inside size (c.past texts) := by
  induction texts generalizing c with
  | nil => exact h
  | cons text texts ih =>
    rw [List.flatten_cons, List.length_append, ← Nat.add_assoc] at hfit
    rw [past_cons]
    exact ih ((h.advance_iff _).mpr (Nat.le_of_add_right_le hfit)) hfit

/-- Every call starts where an earlier one has left the cursor. -/
theorem Inside.given (h : Inside size c) {texts : List Bytes}
    (hfit : c.offset + texts.flatten.length ≤ size.toNat) :
    ∀ call ∈ calls c texts, Inside size call.given := by
  induction texts generalizing c with
  | nil => exact nofun
  | cons text texts ih =>
    rw [List.flatten_cons, List.length_append, ← Nat.add_assoc] at hfit
    rw [calls, List.forall_mem_cons]
    exact ⟨h, ih ((h.advance_iff _).mpr (Nat.le_of_add_right_le hfit)) hfit⟩

/-! ## What the calls write -/

theorem perform_concat (l : List (Call w)) (call : Call w) (buf : Bytes) :
    perform (l ++ [call]) buf = (perform l buf).bind (snprintf call.given call.text) := by
  simp only [perform, List.foldlM_append, List.foldlM_cons, List.foldlM_nil, bind_pure]
  rfl

theorem written_nil {buf : Bytes} (h : buf.length = size.toNat) : Written size [] buf where
  length_eq := h
  prefix_of_ne := fun _ hne => absurd rfl hne

/-- A call with room finds all of what was written so far in the buffer, since a
text that was cut leaves no room. -/
theorem Written.take_eq {text buf : Bytes} (h : Written size text buf)
    (hlt : text.length < size.toNat) : buf.take text.length = text := by
  by_cases hne : text = []
  · rw [hne]
    rfl
  · have hpre := h.prefix_of_ne (by omega) hne
    rw [List.take_of_length_le (by omega)] at hpre
    obtain ⟨rest, rfl⟩ := hpre
    rw [List.append_assoc, List.take_left]

theorem snprintf_written (h : Inside size c) (text : Bytes) {done buf : Bytes}
    (hdone : done.length = c.offset) (hbuf : Written size done buf) :
    ∃ buf', snprintf c text buf = some buf' ∧ Written size (done ++ text) buf' := by
  have hroom := h.remaining_eq
  by_cases hzero : c.remaining.toNat = 0
  · refine ⟨buf, by rw [snprintf, if_pos hzero], hbuf.length_eq, fun hpos hne => ?_⟩
    -- the buffer is full, so that nothing of the text is missing from what fits
    have hfull : size.toNat ≤ done.length := by omega
    rw [List.take_append_of_le_length (by omega)]
    exact hbuf.prefix_of_ne hpos (fun hnil => by simp [hnil] at hfull; omega)
  · obtain ⟨data, hdata⟩ : ∃ data, data = text.take (c.remaining.toNat - 1) ++ [0] := ⟨_, rfl⟩
    have hlength : data.length = min (c.remaining.toNat - 1) text.length + 1 := by
      rw [hdata, List.length_append, List.length_take, List.length_singleton]
    have hlt : done.length < size.toNat := by omega
    have hfits : c.offset + data.length ≤ buf.length := by
      have := hbuf.length_eq
      omega
    refine ⟨buf.take c.offset ++ data ++ buf.drop (c.offset + data.length), ?_, ?_, fun _ _ => ?_⟩
    · simp only [snprintf, ← hdata]
      rw [if_neg hzero, if_pos hfits]
    · rw [← hbuf.length_eq]
      simp only [List.length_append, List.length_take, List.length_drop]
      omega
    · have hkeep : buf.take c.offset = done := hdone ▸ hbuf.take_eq hlt
      have htake : (done ++ text).take (size.toNat - 1) ++ [0] = done ++ data := by
        rw [List.take_append, List.take_of_length_le (by omega), hdata, List.append_assoc]
        congr 3
        omega
      rw [htake, hkeep]
      exact List.prefix_append _ _

/-- As long as the texts fit, each call writes inside the buffer. -/
theorem perform_calls (h : Inside size c) {texts : List Bytes} {done buf : Bytes}
    (hdone : done.length = c.offset) (hbuf : Written size done buf)
    (hfit : c.offset + texts.flatten.length ≤ size.toNat) :
    ∃ buf', perform (calls c texts) buf = some buf' ∧
      Written size (done ++ texts.flatten) buf' := by
  induction texts generalizing c done buf with
  | nil => exact ⟨buf, rfl, by rwa [List.flatten_nil, List.append_nil]⟩
  | cons text texts ih =>
    rw [List.flatten_cons, List.length_append, ← Nat.add_assoc] at hfit
    obtain ⟨mid, hmid, hwritten⟩ := snprintf_written h text hdone hbuf
    have hnext : Inside size (c.advance text.length) :=
      (h.advance_iff _).mpr (Nat.le_of_add_right_le hfit)
    obtain ⟨buf', hrun, hlast⟩ :=
      ih hnext (by rw [List.length_append, hdone]; rfl) hwritten hfit
    refine ⟨buf', ?_, by rwa [List.flatten_cons, ← List.append_assoc]⟩
    rw [perform, calls, List.foldlM_cons, hmid]
    exact hrun

/-! ## Texts that do not fit -/

theorem length_of_snprintf {text buf buf' : Bytes} (h : snprintf c text buf = some buf') :
    buf'.length = buf.length := by
  rw [snprintf] at h
  generalize text.take (c.remaining.toNat - 1) ++ [0] = data at h
  split at h
  · rw [Option.some.inj h]
  · split at h
    · rw [← Option.some.inj h]
      simp only [List.length_append, List.length_take, List.length_drop]
      omega
    · cases h

/-- A call past the end of the buffer writes there. -/
theorem snprintf_outside {text buf : Bytes} (hoffset : buf.length < c.offset)
    (hroom : c.remaining.toNat ≠ 0) : snprintf c text buf = none := by
  rw [snprintf, if_neg hroom, if_neg (by omega)]

/-- Advanced past the end, a cursor has room all around the address space. -/
theorem remaining_advance_ne_zero (h : Inside size c) {n : Nat} (hover : size.toNat < c.offset + n)
    (hsmall : c.offset + n < 2 ^ w) : (c.advance n).remaining.toNat ≠ 0 := by
  have hroom := h.remaining_eq
  have hn : (BitVec.ofNat w n).toNat = n := by
    rw [BitVec.toNat_ofNat]
    exact Nat.mod_eq_of_lt (by omega)
  have hwrap : 2 ^ w - n + (size.toNat - c.offset) < 2 ^ w := by
    have := h.offset_le
    omega
  rw [advance, BitVec.toNat_sub, hn, hroom, Nat.mod_eq_of_lt hwrap]
  omega

/-- The call behind the first text that reaches past the buffer writes outside, and
there is always one more call. -/
theorem perform_calls_none (h : Inside size c) {texts : List Bytes} {buf : Bytes}
    (hbuf : buf.length = size.toNat) (hover : size.toNat < c.offset + texts.flatten.length)
    (hsmall : c.offset + texts.flatten.length < 2 ^ w) (last : Bytes) (after : Cursor w) :
    perform (calls c texts ++ [{ given := c.past texts, text := last, after := after }]) buf =
      none := by
  induction texts generalizing c buf with
  | nil =>
    have := h.offset_le
    rw [List.flatten_nil, List.length_nil] at hover
    omega
  | cons text texts ih =>
    rw [List.flatten_cons, List.length_append, ← Nat.add_assoc] at hover hsmall
    rw [calls, List.cons_append, perform, List.foldlM_cons]
    cases hfirst : snprintf c text buf with
    | none => rfl
    | some mid =>
      have hmid : mid.length = size.toNat := (length_of_snprintf hfirst).trans hbuf
      show perform (calls (c.advance text.length) texts ++ _) mid = none
      rcases Nat.lt_or_ge size.toNat (c.offset + text.length) with hout | hin
      · have hroom := remaining_advance_ne_zero h hout (by omega)
        have hpast : mid.length < (c.advance text.length).offset := by
          rw [hmid]
          exact hout
        have hnone : ∀ next, snprintf (c.advance text.length) next mid = none := fun next =>
          snprintf_outside hpast hroom
        cases texts with
        | nil =>
          show (snprintf (c.advance text.length) last mid).bind _ = none
          rw [hnone, Option.bind_none]
        | cons next texts =>
          show (snprintf (c.advance text.length) next mid).bind _ = none
          rw [hnone, Option.bind_none]
      · exact ih ((h.advance_iff _).mpr hin) hmid hover hsmall

end Cursor
end NetLab
