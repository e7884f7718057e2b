import NetLab.Http.Page
import NetLab.Library.Percent

/-!
# The links of the page

Each entry is linked by its encoded name.  The encoder stops where its array is
nearly full, so a name that is long or has many bytes to escape is cut there.
-/

namespace NetLab
namespace Http

open CString Percent

/-- The address in the line of an entry. -/
def link (entry : FileEntry) : Bytes :=
  ascii "/files/" ++ encodedName entry.name ++ if entry.isDir then ascii "/" else []

/-- The line of each entry holds its link, the link decodes to its name, and so
entries with different names have different links.  A `/` at the end of a link
marks a folder, and is part of no name that the file system allows. -/
structure LinksName (found : List FindData) : Prop where
  shown : ∀ entry ∈ sortedEntries found,
    ascii "<a href=\"" ++ link entry ++ ascii "\">" <:+: entryText entry
  decodes : ∀ entry ∈ sortedEntries found, decode (encodedName entry.name) = entry.name
  distinct : ∀ entry ∈ sortedEntries found, ∀ other ∈ sortedEntries found,
    entry.name ≠ other.name → encodedName entry.name ≠ encodedName other.name ∧
      (47 ∉ entry.name → 47 ∉ other.name → link entry ≠ link other)

/-- The bytes of the code of a text. -/
def codeLength (src : Bytes) : Nat := src.length + 2 * src.countP fun b => !isPlain b

theorem length_flatMap_encodeByte (src : Bytes) :
    (src.flatMap encodeByte).length = codeLength src := by
  induction src with
  | nil => rfl
  | cons b src ih =>
    rw [List.flatMap_cons, List.length_append, ih, codeLength, codeLength, List.length_cons,
      List.countP_cons, encodeByte]
    by_cases hb : isPlain b
    · simp only [hb, if_true, List.length_singleton, Bool.not_true, Bool.false_eq_true, if_false]
      omega
    · simp only [hb, Bool.false_eq_true, if_false, List.length_cons, List.length_nil,
        Bool.not_false, if_true]
      omega

/-- The text at the address is part of the line. -/
theorem entryText_link (entry : FileEntry) :
    ascii "<a href=\"" ++ link entry ++ ascii "\">" <:+: entryText entry := by
  have hfolder : ascii "        <li class=\"folder\"><a href=\"/files/" =
      ascii "        <li class=\"folder\">" ++ (ascii "<a href=\"" ++ ascii "/files/") := rfl
  have hfile : ascii "        <li class=\"file\"><a href=\"/files/" =
      ascii "        <li class=\"file\">" ++ (ascii "<a href=\"" ++ ascii "/files/") := rfl
  have hslash : ascii "/\">" = ascii "/" ++ ascii "\">" := rfl
  rw [entryText, link, hfolder, hfile, hslash]
  cases entry.isDir with
  | true =>
    refine ⟨ascii "        <li class=\"folder\">", entry.name ++ ascii "/</a></li>\n", ?_⟩
    simp only [if_true, List.append_assoc]
  | false =>
    refine ⟨ascii "        <li class=\"file\">", entry.name ++ ascii "</a></li>\n", ?_⟩
    simp only [Bool.false_eq_true, if_false, List.append_assoc, List.append_nil]

/-! ## Reading a link -/

theorem hex_digits : ∀ b : UInt8,
    isxdigit (hex.getD ((b >>> 4) &&& 0x0F).toNat 0) = true ∧
      isxdigit (hex.getD (b &&& 0x0F).toNat 0) = true ∧
      (16 : UInt8) * digitValue (hex.getD ((b >>> 4) &&& 0x0F).toNat 0) +
        digitValue (hex.getD (b &&& 0x0F).toNat 0) = b := by
  refine forall_byte ?_
  decide +kernel

theorem isPlain_ne_percent {b : UInt8} (h : isPlain b = true) : b ≠ 37 := by
  rintro rfl
  exact absurd h (by decide)

theorem reads_encodeByte : Reads decode encodeByte := by
  intro b s
  rw [encodeByte]
  by_cases hb : isPlain b
  · rw [if_pos hb]
    exact decode_plain (isPlain_ne_percent hb) s
  · obtain ⟨hhi, hlo, hvalue⟩ := hex_digits b
    rw [if_neg hb]
    show decode (37 :: _ :: _ :: s) = _
    rw [decode_escape hhi hlo, hvalue]

/-! ## Where the encoder stops -/

/-- The loop encodes the first `k` bytes: before each of them there was room, and
there was none for another one. -/
structure Cut (limit pos : Nat) (src : Bytes) (k : Nat) : Prop where
  le_length : k ≤ src.length
  code : encodeFrom limit src pos = (src.take k).flatMap encodeByte
  room : ∀ j < k, pos + codeLength (src.take j) < limit
  full : k < src.length → limit ≤ pos + codeLength (src.take k)

theorem exists_cut (limit : Nat) (src : Bytes) : ∀ pos, ∃ k, Cut limit pos src k := by
  induction src with
  | nil => exact fun pos => ⟨0, Nat.le_refl 0, rfl, nofun, nofun⟩
  | cons b src ih =>
    intro pos
    by_cases hroom : pos < limit
    · obtain ⟨k, hk⟩ := ih (pos + (encodeByte b).length)
      have hlen : ∀ j, codeLength ((b :: src).take (j + 1)) =
          (encodeByte b).length + codeLength (src.take j) := by
        intro j
        rw [← length_flatMap_encodeByte, ← length_flatMap_encodeByte, List.take_succ_cons,
          List.flatMap_cons, List.length_append]
      refine ⟨k + 1, Nat.succ_le_succ hk.le_length, ?_, fun j hj => ?_, fun hlt => ?_⟩
      · rw [encodeFrom, if_pos hroom, hk.code, List.take_succ_cons, List.flatMap_cons]
      · cases j with
        | zero => exact hroom
        | succ j =>
          rw [hlen, ← Nat.add_assoc]
          exact hk.room j (Nat.lt_of_succ_lt_succ hj)
      · rw [hlen, ← Nat.add_assoc]
        exact hk.full (Nat.lt_of_succ_lt_succ hlt)
    · refine ⟨0, Nat.zero_le _, ?_, nofun, fun _ => Nat.le_of_not_lt hroom⟩
      rw [encodeFrom, if_neg hroom, List.take_zero, List.flatMap_nil]

theorem codeLength_take_le (src : Bytes) {j k : Nat} (h : j ≤ k) :
    codeLength (src.take j) ≤ codeLength (src.take k) := by
  have hsub : (src.take j).Sublist (src.take k) := (List.take_prefix_take_left h).sublist
  have hlen := hsub.length_le
  have hcount : (src.take j).countP (fun b => !isPlain b) ≤
      (src.take k).countP fun b => !isPlain b := hsub.countP_le
  rw [codeLength, codeLength]
  omega

/-- The whole text is encoded exactly if there is room before its last byte. -/
theorem Cut.eq_length_iff {limit pos k : Nat} {src : Bytes} (h : Cut limit pos src k)
    (hpos : pos < limit) : k = src.length ↔ pos + codeLength src.dropLast < limit := by
  rw [List.dropLast_eq_take]
  constructor
  · intro hk
    rcases Nat.eq_zero_or_pos src.length with hzero | hlen
    · rw [hzero, Nat.zero_sub, List.take_zero]
      exact hpos
    · exact h.room (src.length - 1) (by omega)
  · intro hlast
    by_contra hne
    have hlt : k < src.length := Nat.lt_of_le_of_ne h.le_length hne
    have hfull := h.full hlt
    have hle := codeLength_take_le src (show k ≤ src.length - 1 by omega)
    omega

theorem encodedName_eq (name : Bytes) :
    ∃ k, Cut 508 0 name k ∧ encodedName name = (name.take k).flatMap encodeByte := by
  have hlimit : ((512 : BitVec 64) - 4).toNat = 508 := rfl
  obtain ⟨k, hk⟩ := exists_cut 508 name 0
  refine ⟨k, hk, ?_⟩
  rw [encodedName, urlEncode, hlimit, hk.code]

theorem decode_encodedName_iff (name : Bytes) :
    decode (encodedName name) = name ↔ codeLength name.dropLast < 508 := by
  obtain ⟨k, hk, hcode⟩ := encodedName_eq name
  have hdecode : decode (encodedName name) = name.take k := by
    rw [hcode, reads_encodeByte.decode_flatMap rfl]
  have hlength := hk.eq_length_iff (by decide)
  rw [Nat.zero_add] at hlength
  rw [hdecode, ← hlength]
  constructor
  · intro htake
    have hle := hk.le_length
    have hlen := congrArg List.length htake
    rw [List.length_take] at hlen
    omega
  · intro heq
    rw [heq, List.take_length]

/-! ## Links of two entries -/

/-- The code of a byte is the byte, or an escape sequence. -/
theorem mem_encodeByte {b c : UInt8} (h : c ∈ encodeByte b) :
    isPlain b = true ∧ c = b ∨ c = 37 ∨ isxdigit c = true := by
  rw [encodeByte] at h
  by_cases hb : isPlain b
  · rw [if_pos hb] at h
    exact .inl ⟨hb, List.mem_singleton.mp h⟩
  · obtain ⟨hhi, hlo, -⟩ := hex_digits b
    rw [if_neg hb] at h
    simp only [List.mem_cons, List.not_mem_nil, or_false] at h
    rcases h with h | h | h
    · exact .inr (.inl h)
    · exact .inr (.inr (h ▸ hhi))
    · exact .inr (.inr (h ▸ hlo))

theorem slash_mem_encodeByte {b : UInt8} (h : 47 ∈ encodeByte b) : b = 47 := by
  rcases mem_encodeByte h with ⟨-, hb⟩ | hpercent | hdigit
  · exact hb.symm
  · exact absurd hpercent (by decide)
  · exact absurd hdigit (by decide)

theorem nul_notMem_flatMap (s : Bytes) : 0 ∉ s.flatMap encodeByte := by
  rw [List.mem_flatMap]
  rintro ⟨b, -, hnul⟩
  rcases mem_encodeByte hnul with ⟨hplain, hb⟩ | hpercent | hdigit
  · rw [← hb] at hplain
    exact absurd hplain (by decide)
  · exact absurd hpercent (by decide)
  · exact absurd hdigit (by decide)

theorem nul_notMem_encodedName (name : Bytes) : 0 ∉ encodedName name := by
  obtain ⟨k, -, hcode⟩ := encodedName_eq name
  rw [hcode]
  exact nul_notMem_flatMap _

theorem slash_notMem_encodedName {name : Bytes} (h : 47 ∉ name) : 47 ∉ encodedName name := by
  obtain ⟨k, -, hcode⟩ := encodedName_eq name
  rw [hcode, List.mem_flatMap]
  rintro ⟨b, hb, hslash⟩
  exact h (slash_mem_encodeByte hslash ▸ List.mem_of_mem_take hb)

/-- Two names that are read back from their codes differ in these, with or
without a slash behind them. -/
theorem link_ne {entry other : FileEntry} (hentry : decode (encodedName entry.name) = entry.name)
    (hother : decode (encodedName other.name) = other.name) (hne : entry.name ≠ other.name) :
    encodedName entry.name ≠ encodedName other.name ∧
      (47 ∉ entry.name → 47 ∉ other.name → link entry ≠ link other) := by
  have hcode : encodedName entry.name ≠ encodedName other.name := by
    intro heq
    exact hne (hentry.symm.trans ((congrArg decode heq).trans hother))
  refine ⟨hcode, fun hslash hslash' hlink => ?_⟩
  have hplain := slash_notMem_encodedName hslash
  have hplain' := slash_notMem_encodedName hslash'
  rw [link, link, List.append_assoc, List.append_assoc, List.append_cancel_left_eq] at hlink
  cases hdir : entry.isDir with
  | true =>
    cases hdir' : other.isDir with
    | true =>
      rw [hdir, hdir', List.append_cancel_right_eq] at hlink
      exact hcode hlink
    | false =>
      rw [hdir, hdir', if_neg Bool.false_ne_true, List.append_nil] at hlink
      exact hplain' (hlink ▸ List.mem_append_right _ List.mem_cons_self)
  | false =>
    cases hdir' : other.isDir with
    | true =>
      rw [hdir, hdir', if_neg Bool.false_ne_true, List.append_nil] at hlink
      exact hplain (hlink ▸ List.mem_append_right _ List.mem_cons_self)
    | false =>
      rw [hdir, hdir', List.append_cancel_right_eq] at hlink
      exact hcode hlink

/-- The links name their entries exactly if the code of each name, its last byte
aside, leaves room in the array. -/
theorem links_name_iff (found : List FindData) :
    LinksName found ↔
      ∀ entry ∈ sortedEntries found, codeLength entry.name.dropLast < 508 := by
  constructor
  · intro h entry hentry
    exact (decode_encodedName_iff entry.name).mp (h.decodes entry hentry)
  · intro h
    have hdecodes : ∀ entry ∈ sortedEntries found, decode (encodedName entry.name) = entry.name :=
      fun entry hentry => (decode_encodedName_iff entry.name).mpr (h entry hentry)
    exact ⟨fun entry _ => entryText_link entry, hdecodes, fun entry hentry other hother =>
      link_ne (hdecodes entry hentry) (hdecodes other hother)⟩

/-- A file whose name is two hundred hash signs. -/
def fileOfHashes : FindData where
  cFileName := List.replicate 200 35
  dwFileAttributes := 0
  length_le := by
    rw [List.length_replicate]
    omega
  nul_notMem := fun h => absurd (List.eq_of_mem_replicate h) (by decide)

/-- The link of such a file ends behind its hundred and seventieth. -/
theorem link_cut : ¬ ∀ found, LinksName found := by
  intro h
  have hname : fileOfHashes.entry.name = List.replicate 200 35 :=
    List.take_of_length_le (by rw [fileOfHashes, List.length_replicate]; omega)
  have hmem : fileOfHashes.entry ∈ sortedEntries [fileOfHashes] := by
    rw [(sortedEntries_perm _).mem_iff]
    exact List.mem_cons_self
  have hcode := (decode_encodedName_iff _).mp ((h [fileOfHashes]).decodes _ hmem)
  rw [hname, List.dropLast_replicate, codeLength, List.length_replicate, List.countP_replicate,
    if_pos (by decide)] at hcode
  omega

end Http
end NetLab
