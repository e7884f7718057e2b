import NetLab.Library.CString

/-!
# The entries of a directory

`scan_directory` keeps the entries that `FindFirstFile` and `FindNextFile` find,
sorts them, and encodes the name of each for its link.
-/

namespace NetLab
namespace Http

open CString

/-- `FILE_ATTRIBUTE_DIRECTORY`. -/
def fileAttributeDirectory : BitVec 32 := 0x10

/-- The fields of `WIN32_FIND_DATA` that are read.  The name and its NUL fit
`MAX_PATH`. -/
structure FindData where
  cFileName : Bytes
  dwFileAttributes : BitVec 32
  length_le : cFileName.length ≤ 259
  nul_notMem : 0 ∉ cFileName

/-- An entry as it is stored, in an array of 256 bytes for the name. -/
structure FileEntry where
  name : Bytes
  isDir : Bool
  length_le : name.length ≤ 255
  nul_notMem : 0 ∉ name

/-- The slots of `entries`. -/
def maxEntries : Nat := 1024

/-- Directories come first, and entries of one kind in the order of their
names. -/
def compareEntries (a b : FileEntry) : Int :=
  if a.isDir ≠ b.isDir then b.isDir.toInt - a.isDir.toInt else strcmp a.name b.name

/-- `.` and `..`. -/
def FindData.isDots (found : FindData) : Bool :=
  strcmp found.cFileName (ascii ".") = 0 ∨ strcmp found.cFileName (ascii "..") = 0

def FindData.isDir (found : FindData) : Bool :=
  found.dwFileAttributes &&& fileAttributeDirectory ≠ 0

/-- `strncpy` of 255 bytes, and a NUL behind them. -/
def FindData.entry (found : FindData) : FileEntry where
  name := found.cFileName.take 255
  isDir := found.isDir
  length_le := List.length_take_le _ _
  nul_notMem := fun h => found.nul_notMem (List.mem_of_mem_take h)

/-- One turn of the loop over the directory. -/
def readEntry (entries : List FileEntry) (found : FindData) : List FileEntry :=
  if found.isDots then entries
  else if entries.length < maxEntries then entries ++ [found.entry]
  else entries

/-- `entries` after the loop. -/
def readEntries (found : List FindData) : List FileEntry := found.foldl readEntry []

/-- `entries` after `qsort`. -/
def sortedEntries (found : List FindData) : List FileEntry :=
  (readEntries found).mergeSort fun a b => compareEntries a b ≤ 0

/-- The bytes that are not escaped in a link. -/
def isPlain (b : UInt8) : Bool :=
  (65 ≤ b ∧ b ≤ 90) ∨ (97 ≤ b ∧ b ≤ 122) ∨ (48 ≤ b ∧ b ≤ 57) ∨
    b = 45 ∨ b = 95 ∨ b = 46 ∨ b = 126 ∨ b = 47

def hex : Bytes := ascii "0123456789ABCDEF"

/-- What `url_encode` writes for one byte. -/
def encodeByte (b : UInt8) : Bytes :=
  if isPlain b then [b]
  else [37, hex.getD ((b >>> 4) &&& 0x0F).toNat 0, hex.getD (b &&& 0x0F).toNat 0]

/-- The loop of `url_encode` from `pos` on. -/
def encodeFrom (limit : Nat) : Bytes → Nat → Bytes
  | [], _ => []
  | b :: src, pos =>
      if pos < limit then encodeByte b ++ encodeFrom limit src (pos + (encodeByte b).length)
      else []

def urlEncode (src : Bytes) (dstSize : BitVec 64) : Bytes := encodeFrom (dstSize - 4).toNat src 0

/-- The entries that get a line, in the order in which they were found. -/
def listed (found : List FindData) : List FindData :=
  (found.filter fun f => !f.isDots).take maxEntries

/-- The loop adds the entries that it lists, as long as there are slots. -/
theorem foldl_readEntry (found : List FindData) {entries : List FileEntry}
    (h : entries.length ≤ maxEntries) :
    found.foldl readEntry entries =
      entries ++ ((found.filter fun f => !f.isDots).take (maxEntries - entries.length)).map
        FindData.entry := by
  induction found generalizing entries with
  | nil => simp
  | cons f found ih =>
    rw [List.foldl_cons]
    by_cases hdots : f.isDots
    · rw [readEntry, if_pos hdots, ih h, List.filter_cons_of_neg (by simp [hdots])]
    · rw [readEntry, if_neg hdots, List.filter_cons_of_pos (by simpa using hdots)]
      by_cases hlt : entries.length < maxEntries
      · have hnext : (entries ++ [f.entry]).length = entries.length + 1 := by
          rw [List.length_append, List.length_singleton]
        obtain ⟨k, hk⟩ : ∃ k, maxEntries - entries.length = k + 1 :=
          ⟨maxEntries - entries.length - 1, by omega⟩
        have hk' : maxEntries - (entries.length + 1) = k := by omega
        rw [if_pos hlt, ih (by omega), hnext, hk, hk', List.take_succ_cons, List.map_cons,
          List.append_assoc, List.singleton_append]
      · have hfull : maxEntries - entries.length = 0 := by omega
        rw [if_neg hlt, ih h, hfull, List.take_zero, List.take_zero]

theorem readEntries_eq (found : List FindData) :
    readEntries found = (listed found).map FindData.entry := by
  rw [readEntries, foldl_readEntry found (Nat.zero_le _), List.nil_append, listed]
  rfl

theorem sortedEntries_perm (found : List FindData) :
    (sortedEntries found).Perm ((listed found).map FindData.entry) :=
  readEntries_eq found ▸ List.mergeSort_perm _ _

theorem length_encodeByte_le (b : UInt8) : (encodeByte b).length ≤ 3 := by
  rw [encodeByte]
  split
  · exact Nat.le_of_ble_eq_true rfl
  · exact Nat.le_refl 3

/-- The last byte is written when there was room before it. -/
theorem length_encodeFrom_le (limit : Nat) (src : Bytes) {pos : Nat} (h : pos ≤ limit + 2) :
    pos + (encodeFrom limit src pos).length ≤ limit + 2 := by
  induction src generalizing pos with
  | nil => exact h
  | cons b src ih =>
    rw [encodeFrom]
    split
    · have hb := length_encodeByte_le b
      have := ih (show pos + (encodeByte b).length ≤ limit + 2 by omega)
      rw [List.length_append]
      omega
    · exact h

end Http
end NetLab
