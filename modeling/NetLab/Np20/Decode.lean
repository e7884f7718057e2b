import NetLab.Library.Percent
import NetLab.Np20.Handler

/-!
# The loop of `url_decode`

The loop reads its text up to two bytes ahead and writes an array as it goes.
The reads stop at the NUL, the writes stay behind the reads, and what is written
is what the grammar of forms says.
-/

namespace NetLab
namespace Np20

open CString Percent

/-- What the loop must not come to: an access outside of an array, or more turns
than it was given. -/
inductive Stuck
  | outside
  | unfinished
  deriving DecidableEq, Repr

def inside {α : Type} : Option α → Except Stuck α
  | some a => .ok a
  | none => .error .outside

/-- `src[i]`.  Behind the NUL of the text there is nothing to read. -/
def charAt (src : Bytes) (i : Nat) : Except Stuck UInt8 := inside (src ++ [0])[i]?

/-- The digits of the escape at `i`.  The second byte behind the `%` is read only
when the first one is not the NUL. -/
def escapeAt (src : Bytes) (i : Nat) : Except Stuck (Option (UInt8 × UInt8)) := do
  let c ← charAt src i
  if c = 37 then
    let a ← charAt src (i + 1)
    if a = 0 then return none
    else
      let b ← charAt src (i + 2)
      if b ≠ 0 ∧ isxdigit a ∧ isxdigit b then return some (a, b) else return none
  else return none

/-- The loop, with a bound on its turns, from position `i` of the text and
position `pos` of the array on.  It returns how many bytes were written. -/
def decodeLoop (src : Bytes) : Nat → Nat → Nat → Bytes → Except Stuck (Nat × Bytes)
  | 0, _, _, _ => .error .unfinished
  | turns + 1, i, pos, dst => do
    let c ← charAt src i
    if c = 0 then
      let dst ← inside (writeAt dst pos 0)
      return (pos + 1, dst)
    else
      match ← escapeAt src i with
      | some (a, b) =>
        let dst ← inside (writeAt dst pos (16 * hexValue a + hexValue b))
        decodeLoop src turns (i + 3) (pos + 1) dst
      | none =>
        let dst ← inside (writeAt dst pos (if c = 43 then 32 else c))
        decodeLoop src turns (i + 1) (pos + 1) dst

def urlDecodeInto (turns : Nat) (src dst : Bytes) : Except Stuck (Nat × Bytes) :=
  decodeLoop src turns 0 0 dst

/-! ## One turn -/

/-- The digits of an escape at the start of a text. -/
def escapeHead : Bytes → Option (UInt8 × UInt8)
  | c :: a :: b :: _ => if c = 37 ∧ isxdigit a ∧ isxdigit b then some (a, b) else none
  | _ => none

section

variable {src rest mem done : Bytes} {i turns : Nat}

theorem charAt_drop (hi : i ≤ src.length) (hrest : src.drop i = rest) (k : Nat) :
    charAt src (i + k) = inside (rest ++ [0])[k]? := by
  rw [charAt, ← List.getElem?_drop, List.drop_append_of_le_length hi, hrest]

theorem escapeAt_drop (hi : i ≤ src.length) (hrest : src.drop i = rest) (hnul : 0 ∉ rest) :
    escapeAt src i = .ok (escapeHead rest) := by
  have hread := charAt_drop hi hrest
  rw [escapeAt, ← Nat.add_zero i, hread 0, Nat.add_zero, hread 1, hread 2]
  match rest with
  | [] => rfl
  | [c] =>
    by_cases hc : c = 37
    · subst hc
      rfl
    · simp [inside, hc, escapeHead, bind, Except.bind, pure, Except.pure]
  | [c, a] =>
    have ha : a ≠ 0 := fun h => hnul (by simp [h])
    by_cases hc : c = 37
    · simp [inside, hc, ha, escapeHead, bind, Except.bind, pure, Except.pure]
    · simp [inside, hc, escapeHead, bind, Except.bind, pure, Except.pure]
  | c :: a :: b :: rest =>
    have ha : a ≠ 0 := fun h => hnul (by simp [h])
    have hb : b ≠ 0 := fun h => hnul (by simp [h])
    by_cases hc : c = 37
    · by_cases hx : isxdigit a ∧ isxdigit b
      · simp [inside, hc, ha, hb, hx, escapeHead, bind, Except.bind, pure, Except.pure]
      · simp [inside, hc, ha, hb, hx, escapeHead, bind, Except.bind, pure, Except.pure]
    · simp [inside, hc, escapeHead, bind, Except.bind, pure, Except.pure]

/-- What stands `k` bytes further on. -/
theorem drop_further {t : Bytes} {k : Nat} (hi : i ≤ src.length) (hrest : src.drop i = rest)
    (hk : k ≤ rest.length) (ht : rest.drop k = t) :
    i + k ≤ src.length ∧ src.drop (i + k) = t := by
  have hlen := congrArg List.length hrest
  rw [List.length_drop] at hlen
  refine ⟨by omega, ?_⟩
  rw [← List.drop_drop, hrest, ht]

/-- At the end of the text the NUL is written. -/
theorem decodeLoop_end (hi : i ≤ src.length) (hrest : src.drop i = [])
    (hroom : done.length < mem.length) :
    decodeLoop src (turns + 1) i done.length (store done mem) =
      .ok (done.length + 1, store (done ++ [0]) mem) := by
  have hread := charAt_drop hi hrest 0
  rw [Nat.add_zero] at hread
  rw [decodeLoop, hread]
  show (inside (writeAt _ _ 0) >>= _) = _
  rw [writeAt_store hroom]
  rfl

/-- Before the end a byte is written, the one that the escape at the start
denotes or the first one. -/
theorem decodeLoop_next {c : UInt8} (hi : i ≤ src.length) (hrest : src.drop i = c :: rest)
    (hnul : 0 ∉ c :: rest) (hroom : done.length < mem.length) :
    decodeLoop src (turns + 1) i done.length (store done mem) =
      match escapeHead (c :: rest) with
      | some (a, b) => decodeLoop src turns (i + 3) (done.length + 1)
          (store (done ++ [16 * hexValue a + hexValue b]) mem)
      | none => decodeLoop src turns (i + 1) (done.length + 1)
          (store (done ++ [if c = 43 then 32 else c]) mem) := by
  have hread := charAt_drop hi hrest 0
  have hc : c ≠ 0 := fun h => hnul (h ▸ List.mem_cons_self)
  rw [Nat.add_zero] at hread
  rw [decodeLoop, hread]
  show (if c = 0 then _ else (escapeAt src i >>= _)) = _
  rw [if_neg hc, escapeAt_drop hi hrest hnul]
  cases escapeHead (c :: rest) with
  | none =>
    show (inside (writeAt _ _ _) >>= _) = _
    rw [writeAt_store hroom]
    rfl
  | some digits =>
    show (inside (writeAt _ _ _) >>= _) = _
    rw [writeAt_store hroom]
    rfl

/-- What the loop comes to from position `i` on, when `rest` stands there. -/
def DecodesRest (src mem rest : Bytes) : Prop :=
  ∀ (turns i : Nat) (done : Bytes), i ≤ src.length → src.drop i = rest → rest.length < turns →
    done.length + rest.length < mem.length →
    decodeLoop src turns i done.length (store done mem) =
      .ok (done.length + (urlDecode rest).length + 1,
        store (done ++ urlDecode rest ++ [0]) mem)

/-- A turn that writes `b` and goes `k` bytes on. -/
theorem DecodesRest.advance {t : Bytes} {k : Nat} {b : UInt8} (h : DecodesRest src mem t)
    (hi : i ≤ src.length) (hrest : src.drop i = rest) (ht : rest.drop k = t) (hpos : 0 < k)
    (hk : k ≤ rest.length) (hturns : rest.length < turns + 1)
    (hroom : done.length + rest.length < mem.length) :
    decodeLoop src turns (i + k) (done.length + 1) (store (done ++ [b]) mem) =
      .ok (done.length + (b :: urlDecode t).length + 1,
        store (done ++ (b :: urlDecode t) ++ [0]) mem) := by
  obtain ⟨hi', hrest'⟩ := drop_further hi hrest hk ht
  have hlen := congrArg List.length ht
  rw [List.length_drop] at hlen
  have hdone : (done ++ [b]).length = done.length + 1 := by
    rw [List.length_append, List.length_singleton]
  have hnext := h turns (i + k) (done ++ [b]) hi' hrest' (by omega) (by omega)
  rw [hdone] at hnext
  rw [hnext, List.length_cons, List.append_assoc done [b], List.singleton_append]
  congr 2
  omega

/-- The induction is on how `urlDecode` reads the rest of the text. -/
theorem decodesRest (src mem : Bytes) (hnul : 0 ∉ src) (rest : Bytes) :
    DecodesRest src mem rest := by
  have hrestNul : ∀ {i : Nat} {t : Bytes}, src.drop i = t → 0 ∉ t :=
    fun ht hmem => hnul (List.mem_of_mem_drop (ht ▸ hmem))
  fun_induction urlDecode rest with
  | case1 c a b rest hesc ih =>
    intro turns i done hi hrest hturns hroom
    obtain ⟨turns, rfl⟩ : ∃ n, turns = n + 1 := ⟨turns - 1, by omega⟩
    have hhead : escapeHead (c :: a :: b :: rest) = some (a, b) := if_pos hesc
    rw [decodeLoop_next hi hrest (hrestNul hrest) (by omega), hhead, urlDecode, if_pos hesc]
    exact ih.advance hi hrest rfl (by decide) (Nat.le_add_left 3 _) hturns hroom
  | case2 c a b rest hesc ih =>
    intro turns i done hi hrest hturns hroom
    obtain ⟨turns, rfl⟩ : ∃ n, turns = n + 1 := ⟨turns - 1, by omega⟩
    have hhead : escapeHead (c :: a :: b :: rest) = none := if_neg hesc
    rw [decodeLoop_next hi hrest (hrestNul hrest) (by omega), hhead, urlDecode, if_neg hesc]
    exact ih.advance hi hrest rfl (by decide) (Nat.le_add_left 1 _) hturns hroom
  | case3 c rest hshort ih =>
    intro turns i done hi hrest hturns hroom
    obtain ⟨turns, rfl⟩ : ∃ n, turns = n + 1 := ⟨turns - 1, by omega⟩
    have hhead : escapeHead (c :: rest) = none := by
      rcases rest with _ | ⟨a, _ | ⟨b, rest⟩⟩
      · rfl
      · rfl
      · exact (hshort a b rest rfl).elim
    rw [decodeLoop_next hi hrest (hrestNul hrest) (by omega), hhead, urlDecode]
    · exact ih.advance hi hrest rfl (by decide) (Nat.le_add_left 1 _) hturns hroom
    · exact hshort
  | case4 =>
    intro turns i done hi hrest hturns hroom
    obtain ⟨turns, rfl⟩ : ∃ n, turns = n + 1 := ⟨turns - 1, by omega⟩
    rw [decodeLoop_end hi hrest (by omega), urlDecode, List.append_nil]
    rfl

end

/-- With room for the text and its NUL the loop ends, and leaves the rest of the
array as it was. -/
theorem urlDecodeInto_eq {src dst : Bytes} {turns : Nat} (hnul : 0 ∉ src)
    (hturns : src.length < turns) (hroom : src.length < dst.length) :
    urlDecodeInto turns src dst =
      .ok ((urlDecode src).length + 1, store (urlDecode src ++ [0]) dst) := by
  have h := decodesRest src dst hnul src turns 0 [] (Nat.zero_le _) rfl hturns
    (by rw [List.length_nil]; omega)
  rw [List.length_nil, Nat.zero_add, List.nil_append] at h
  exact h

/-! ## The grammar -/

theorem hexValue_eq {digit : UInt8} (h : isxdigit digit = true) :
    hexValue digit = digitValue digit := by
  have hall : ∀ d : UInt8, isxdigit d = true → hexValue d = digitValue d := by
    refine forall_byte ?_
    decide +kernel
  exact hall digit h

/-- The arithmetic on the two digits gives the byte that they denote. -/
theorem escape_value {a b : UInt8} (ha : isxdigit a = true) (hb : isxdigit b = true) :
    16 * hexValue a + hexValue b =
      UInt8.ofNat (16 * (digitValue a).toNat + (digitValue b).toNat) := by
  rw [hexValue_eq ha, hexValue_eq hb, UInt8.ofNat_add, UInt8.ofNat_mul, UInt8.ofNat_toNat,
    UInt8.ofNat_toNat]
  rfl

/-- One byte that is copied or turned into a blank. -/
theorem formDecodes_byte {c : UInt8} {s t : Bytes} (hno : ¬ StartsEscape (c :: s))
    (h : FormDecodes s t) : FormDecodes (c :: s) ((if c = 43 then 32 else c) :: t) := by
  by_cases hc : c = 43
  · rw [if_pos hc, hc]
    exact .plus h
  · rw [if_neg hc]
    exact .copy hc hno h

theorem formDecodes_urlDecode (src : Bytes) : FormDecodes src (urlDecode src) := by
  fun_induction urlDecode src with
  | case1 c a b src hesc ih =>
    obtain ⟨rfl, ha, hb⟩ := hesc
    rw [escape_value ha hb]
    exact .escape ((denotes_iff a _).mpr ⟨ha, rfl⟩) ((denotes_iff b _).mpr ⟨hb, rfl⟩) ih
  | case2 c a b src hesc ih =>
    refine formDecodes_byte ?_ ih
    rintro ⟨a', b', v, w, rest, ha, hb, heq⟩
    rw [List.cons.injEq, List.cons.injEq, List.cons.injEq] at heq
    obtain ⟨hc, rfl, rfl, -⟩ := heq
    exact hesc ⟨hc, ((denotes_iff _ v).mp ha).1, ((denotes_iff _ w).mp hb).1⟩
  | case3 c src hshort ih =>
    refine formDecodes_byte ?_ ih
    rintro ⟨a, b, -, -, rest, -, -, heq⟩
    exact hshort a b rest (List.cons.inj heq).2
  | case4 => exact .nil

theorem formDecodes_iff (src out : Bytes) : FormDecodes src out ↔ out = urlDecode src := by
  constructor
  · exact fun h => h.unique (formDecodes_urlDecode src)
  · rintro rfl
    exact formDecodes_urlDecode src

/-- On every text the loop ends, reads no further than the NUL, and writes the one
text that the grammar reads there, and a NUL behind it. -/
theorem url_decode_grammar {src dst : Bytes} {turns : Nat} (hnul : 0 ∉ src)
    (hturns : src.length < turns) (hroom : src.length < dst.length) :
    ∃ out, (∀ t, FormDecodes src t ↔ t = out) ∧ out.length + 1 ≤ src.length + 1 ∧
      urlDecodeInto turns src dst = .ok (out.length + 1, store (out ++ [0]) dst) :=
  ⟨urlDecode src, formDecodes_iff src, Nat.succ_le_succ (length_urlDecode_le src),
    urlDecodeInto_eq hnul hturns hroom⟩

/-- A `%` before an escape is copied, and so is one that ends the text. -/
theorem malformed_decoded : 0 ∉ ascii "%%41+%4" ∧ (ascii "%%41+%4").length < 8 ∧
    (ascii "%%41+%4").length < (List.replicate 8 (7 : UInt8)).length ∧
    ∃ out, (∀ t, FormDecodes (ascii "%%41+%4") t ↔ t = out) ∧
      out.length + 1 ≤ (ascii "%%41+%4").length + 1 ∧
      urlDecodeInto 8 (ascii "%%41+%4") (List.replicate 8 7) =
        .ok (out.length + 1, store (out ++ [0]) (List.replicate 8 7)) := by
  have hnul : 0 ∉ ascii "%%41+%4" := by decide
  have hlen : (ascii "%%41+%4").length < 8 := by decide
  exact ⟨hnul, hlen, hlen, url_decode_grammar hnul hlen hlen⟩

/-- In `ClientThread` the text is a path that fits its array, and the array for
the decoded path is as long. -/
theorem urlDecodeInto_path {path decodedPath : Bytes} (hnul : 0 ∉ path)
    (hpath : path.length < Buffer.path.size)
    (hsize : decodedPath.length = Buffer.decodedPath.size) :
    ∃ n mem, urlDecodeInto Buffer.path.size path decodedPath = .ok (n, mem) ∧
      mem.length = decodedPath.length ∧ cstr mem = cstr (urlDecode path) := by
  have hlen := length_urlDecode_le path
  have hroom : path.length < decodedPath.length := hsize ▸ hpath
  refine ⟨_, _, urlDecodeInto_eq hnul hpath hroom, ?_, ?_⟩
  · rw [store, List.length_append, List.length_drop, List.length_append, List.length_singleton]
    omega
  · have hend : (0 : UInt8) ∈ urlDecode path ++ [0] := List.mem_append_right _ List.mem_cons_self
    rw [store, cstr_append_of_mem hend]
    by_cases hin : 0 ∈ urlDecode path
    · rw [cstr_append_of_mem hin]
    · rw [cstr_concat_nul hin, cstr_eq_self hin]

end Np20
end NetLab
