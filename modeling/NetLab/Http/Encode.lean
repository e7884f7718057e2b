import NetLab.Http.Links
import NetLab.Np20.Decode

/-!
# The loop of `url_encode`

The bound is tested once for each byte of the text, before up to three bytes are
written.  The four bytes it keeps free are enough for these and the NUL.
-/

namespace NetLab
namespace Http

open CString Percent

/-- The loop over the text before its NUL, with the array `dst` from `pos` on;
`none` where it writes outside of it. -/
def encodeInto (limit : Nat) : Bytes → Bytes → Nat → Option (Bytes × Nat)
  | [], dst, pos => some (dst, pos)
  | b :: src, dst, pos =>
    if pos < limit then
      if isPlain b then do
        let dst ← writeAt dst pos b
        encodeInto limit src dst (pos + 1)
      else do
        let dst ← writeAt dst pos 37
        let dst ← writeAt dst (pos + 1) (hex.getD ((b >>> 4) &&& 0x0F).toNat 0)
        let dst ← writeAt dst (pos + 2) (hex.getD (b &&& 0x0F).toNat 0)
        encodeInto limit src dst (pos + 3)
    else some (dst, pos)

def urlEncodeInto (src dst : Bytes) (dstSize : BitVec 64) : Option Bytes := do
  let (dst, pos) ← encodeInto (dstSize - 4).toNat src dst 0
  writeAt dst pos 0

/-- The array holds the code of the first `k` bytes of the text.  These are all of
them, or there was no room for more, and `url_decode` reads them back. -/
structure Encodes (src : Bytes) (dstSize : Nat) (dst : Bytes) (k : Nat) : Prop where
  le_length : k ≤ src.length
  code : cstr dst = encode isPlain (src.take k)
  nul : dst[(cstr dst).length]? = some 0
  full : k = src.length ∨ dstSize - 4 ≤ (cstr dst).length
  back : ∀ (turns : Nat) (decoded : Bytes), (cstr dst).length < turns →
    (cstr dst).length < decoded.length →
      Np20.urlDecodeInto turns (cstr dst) decoded = .ok (k + 1, store (src.take k ++ [0]) decoded)

/-- The shifts pick the digits of the byte. -/
theorem encodeByte_eq : ∀ b : UInt8, encodeByte b = codeOf isPlain b := by
  refine forall_byte ?_
  decide +kernel

theorem flatMap_encodeByte (s : Bytes) : s.flatMap encodeByte = encode isPlain s := by
  rw [encode, funext encodeByte_eq]

/-- One byte of the text, with room for its code. -/
theorem encodeInto_cons {limit : Nat} {mem done src : Bytes} (b : UInt8)
    (hmem : limit + 4 ≤ mem.length) (hpos : done.length < limit) :
    encodeInto limit (b :: src) (store done mem) done.length =
      encodeInto limit src (store (done ++ encodeByte b) mem) (done ++ encodeByte b).length := by
  rw [encodeInto, if_pos hpos, encodeByte]
  by_cases hb : isPlain b
  · rw [if_pos hb, if_pos hb, writeAt_store (by omega), List.length_append, List.length_singleton]
    rfl
  · obtain ⟨x, hx⟩ : ∃ x, x = hex.getD ((b >>> 4) &&& 0x0F).toNat 0 := ⟨_, rfl⟩
    obtain ⟨y, hy⟩ : ∃ y, y = hex.getD (b &&& 0x0F).toNat 0 := ⟨_, rfl⟩
    have hone : (done ++ [37]).length = done.length + 1 := by
      rw [List.length_append, List.length_singleton]
    have htwo : (done ++ [37] ++ [x]).length = done.length + 2 := by
      rw [List.length_append, hone, List.length_singleton]
    rw [if_neg hb, if_neg hb, ← hx, ← hy, writeAt_store (by omega)]
    show (writeAt _ _ _ >>= _) = _
    rw [← hone, writeAt_store (by omega)]
    show (writeAt _ _ _ >>= _) = _
    rw [← htwo, writeAt_store (by omega), List.append_assoc, List.append_assoc,
      List.length_append]
    rfl

/-- The loop writes what `encodeFrom` says behind what was written before. -/
theorem encodeInto_eq {limit : Nat} {mem : Bytes} (hmem : limit + 4 ≤ mem.length) (src : Bytes) :
    ∀ done : Bytes, encodeInto limit src (store done mem) done.length =
      some (store (done ++ encodeFrom limit src done.length) mem,
        (done ++ encodeFrom limit src done.length).length) := by
  induction src with
  | nil =>
    intro done
    rw [encodeInto, encodeFrom, List.append_nil]
  | cons b src ih =>
    intro done
    by_cases hpos : done.length < limit
    · rw [encodeInto_cons b hmem hpos, ih, encodeFrom, if_pos hpos, ← List.append_assoc,
        List.length_append]
    · rw [encodeInto, if_neg hpos, encodeFrom, if_neg hpos, List.append_nil]

theorem toNat_limit {dstSize : BitVec 64} (hsize : 4 ≤ dstSize.toNat) :
    (dstSize - 4).toNat = dstSize.toNat - 4 :=
  BitVec.toNat_sub_of_le (BitVec.le_def.mpr hsize)

theorem length_urlEncode_lt (src : Bytes) {dstSize : BitVec 64} (hsize : 4 ≤ dstSize.toNat) :
    (urlEncode src dstSize).length < dstSize.toNat := by
  have hle := length_encodeFrom_le (dstSize - 4).toNat src (Nat.zero_le _)
  rw [← urlEncode, toNat_limit hsize] at hle
  omega

/-- The loop and the final NUL stay inside of the array, and write the text that
`urlEncode` stands for. -/
theorem urlEncodeInto_eq {src dst : Bytes} {dstSize : BitVec 64}
    (hdst : dst.length = dstSize.toNat) (hsize : 4 ≤ dstSize.toNat) :
    urlEncodeInto src dst dstSize = some (store (urlEncode src dstSize ++ [0]) dst) := by
  have hlimit := toNat_limit hsize
  have hmem : (dstSize - 4).toNat + 4 ≤ dst.length := by omega
  have hroom := length_urlEncode_lt src hsize
  have hloop := encodeInto_eq hmem src []
  rw [List.length_nil, List.nil_append, ← urlEncode] at hloop
  rw [urlEncodeInto]
  show (encodeInto _ src (store [] dst) 0 >>= _) = _
  rw [hloop]
  exact writeAt_store (hdst ▸ hroom) 0

/-- For every text and every size of at least four, the loop stays inside of the
array, ends it with a NUL, and cuts the text between two of its bytes. -/
theorem url_encode_cut {src dst : Bytes} {dstSize : BitVec 64}
    (hdst : dst.length = dstSize.toNat) (hsize : 4 ≤ dstSize.toNat) :
    ∃ k dst', urlEncodeInto src dst dstSize = some dst' ∧ dst'.length = dst.length ∧
      Encodes src dstSize.toNat dst' k := by
  obtain ⟨k, hk⟩ := exists_cut (dstSize.toNat - 4) src 0
  obtain ⟨code, hcode⟩ : ∃ code, code = encode isPlain (src.take k) := ⟨_, rfl⟩
  have hfrom : urlEncode src dstSize = code := by
    rw [urlEncode, toNat_limit hsize, hk.code, flatMap_encodeByte, hcode]
  have hroom := length_urlEncode_lt src hsize
  rw [hfrom] at hroom
  have hreads : FormDecodes code (src.take k) :=
    hcode ▸ formDecodes_encode (by decide) (by decide) (src.take k)
  have hback : Np20.urlDecode code = src.take k :=
    ((Np20.formDecodes_iff code _).mp hreads).symm
  have hcodeNul : 0 ∉ code := by
    rw [hcode, ← flatMap_encodeByte]
    exact nul_notMem_flatMap _
  have hwritten : urlEncodeInto src dst dstSize = some (store (code ++ [0]) dst) := by
    rw [urlEncodeInto_eq hdst hsize, hfrom]
  have hend : (0 : UInt8) ∈ code ++ [0] := List.mem_append_right _ List.mem_cons_self
  have hcstr : cstr (store (code ++ [0]) dst) = code := by
    rw [store, cstr_append_of_mem hend, cstr_concat_nul hcodeNul]
  refine ⟨k, store (code ++ [0]) dst, hwritten, ?_, hk.le_length, hcstr.trans hcode, ?_, ?_, ?_⟩
  · rw [store, List.length_append, List.length_drop, List.length_append, List.length_singleton]
    omega
  · rw [hcstr, store, List.append_assoc, List.getElem?_append_right (Nat.le_refl _), Nat.sub_self]
    rfl
  · rw [hcstr, hcode, ← flatMap_encodeByte, length_flatMap_encodeByte]
    by_cases hall : k = src.length
    · exact .inl hall
    · have hfull := hk.full (Nat.lt_of_le_of_ne hk.le_length hall)
      rw [Nat.zero_add] at hfull
      exact .inr hfull
  · intro turns decoded hturns hdecoded
    rw [hcstr] at hturns hdecoded ⊢
    rw [Np20.urlDecodeInto_eq hcodeNul hturns hdecoded, hback,
      List.length_take_of_le hk.le_length]

/-- The seven bytes have room for one escape, and the next letter is cut off. -/
theorem cut_after_escape :
    (List.replicate 7 (1 : UInt8)).length = (7 : BitVec 64).toNat ∧ 4 ≤ (7 : BitVec 64).toNat ∧
    ∃ k dst', urlEncodeInto (ascii "#a") (List.replicate 7 1) 7 = some dst' ∧
      dst'.length = (List.replicate 7 (1 : UInt8)).length ∧
      Encodes (ascii "#a") (7 : BitVec 64).toNat dst' k := by
  have hdst : (List.replicate 7 (1 : UInt8)).length = (7 : BitVec 64).toNat := by decide
  have hsize : 4 ≤ (7 : BitVec 64).toNat := by decide
  exact ⟨hdst, hsize, url_encode_cut hdst hsize⟩

end Http
end NetLab
