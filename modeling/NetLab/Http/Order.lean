import NetLab.Http.Page
import NetLab.Library.Comparator

/-!
# The order of the page

`compare_entries` looks at two keys, the kind of an entry and its name.  Both of
them together are all of an entry, so the order that `qsort` finds is the only
one.
-/

namespace NetLab
namespace Http

open CString Comparator

/-- What `entries` holds after the sort: the entries that were collected, the
folders first, and each kind in the order of its names.  It does not depend on
the enumeration as long as there are slots for all. -/
structure Listing (found : List FindData) (entries : List FileEntry) : Prop where
  perm : entries.Perm
    (((found.filter fun f => !f.isDots).take maxEntries).map FindData.entry)
  dirsFirst : entries.Pairwise fun a b => b.isDir = true → a.isDir = true
  increasing : (entries.map FileEntry.name).Nodup → ∀ kind : Bool,
    (entries.filter fun e => e.isDir = kind).Pairwise fun a b => strcmp a.name b.name < 0
  same : ∀ (found' : List FindData) (entries' : List FileEntry), found'.Perm found →
    (found.filter fun f => !f.isDots).length ≤ maxEntries →
    Sorts compareEntries (readEntries found') entries' → entries' = entries

theorem FileEntry.eq_of {a b : FileEntry} (hname : a.name = b.name) (hdir : a.isDir = b.isDir) :
    a = b := by
  cases a
  cases b
  cases hname
  cases hdir
  rfl

theorem compareEntries_kind {a b : FileEntry} (h : a.isDir = b.isDir) :
    compareEntries a b = strcmp a.name b.name := if_neg (not_not.mpr h)

theorem compareEntries_folder {a b : FileEntry} (ha : a.isDir = true) (hb : b.isDir = false) :
    compareEntries a b = -1 := by
  rw [compareEntries, ha, hb]
  rfl

theorem compareEntries_file {a b : FileEntry} (ha : a.isDir = false) (hb : b.isDir = true) :
    compareEntries a b = 1 := by
  rw [compareEntries, ha, hb]
  rfl

/-- Either both are of one kind, or one of the two is a folder. -/
theorem FileEntry.kinds (a b : FileEntry) : a.isDir = b.isDir ∨
    a.isDir = true ∧ b.isDir = false ∨ a.isDir = false ∧ b.isDir = true := by
  cases a.isDir <;> cases b.isDir <;> decide

theorem compareEntries_neg_iff (a b : FileEntry) : compareEntries a b < 0 ↔
    a.isDir = b.isDir ∧ strcmp a.name b.name < 0 ∨ a.isDir = true ∧ b.isDir = false := by
  rcases a.kinds b with hkind | ⟨ha, hb⟩ | ⟨ha, hb⟩
  · rw [compareEntries_kind hkind, and_iff_right hkind, hkind]
    refine (or_iff_left ?_).symm
    rintro ⟨ha, hb⟩
    rw [ha] at hb
    cases hb
  · rw [compareEntries_folder ha hb]
    exact iff_of_true (by decide) (.inr ⟨ha, hb⟩)
  · rw [compareEntries_file ha hb, ha, hb]
    refine iff_of_false (by decide) ?_
    rintro (⟨hkind, -⟩ | ⟨hdir, -⟩)
    · cases hkind
    · cases hdir

theorem compareEntries_opposite {a b : FileEntry} (hne : a ≠ b) :
    compareEntries a b < 0 ∧ 0 < compareEntries b a ∨
      0 < compareEntries a b ∧ compareEntries b a < 0 := by
  rcases a.kinds b with hkind | ⟨ha, hb⟩ | ⟨ha, hb⟩
  · have hzero : strcmp a.name b.name ≠ 0 :=
      fun hz => hne (FileEntry.eq_of (eq_of_strcmp_eq_zero hz) hkind)
    rw [compareEntries_kind hkind, compareEntries_kind hkind.symm, strcmp_swap a.name b.name]
    omega
  · rw [compareEntries_folder ha hb, compareEntries_file hb ha]
    exact .inl ⟨by decide, by decide⟩
  · rw [compareEntries_file ha hb, compareEntries_folder hb ha]
    exact .inr ⟨by decide, by decide⟩

theorem compareEntries_trans {a b c : FileEntry} (hab : compareEntries a b < 0)
    (hbc : compareEntries b c < 0) : compareEntries a c < 0 := by
  rw [compareEntries_neg_iff] at hab hbc ⊢
  rcases hab with ⟨hkind, hlt⟩ | ⟨ha, hb⟩
  · rcases hbc with ⟨hkind', hlt'⟩ | ⟨hb, hc⟩
    · exact .inl ⟨hkind.trans hkind', strcmp_trans hlt hlt'⟩
    · exact .inr ⟨hkind.trans hb, hc⟩
  · rcases hbc with ⟨hkind', -⟩ | ⟨hb', -⟩
    · exact .inr ⟨ha, hkind'.symm.trans hb⟩
    · rw [hb] at hb'
      cases hb'

/-- The comparison is a strict total order, on all entries there can be. -/
theorem strictOn_compareEntries (l : List FileEntry) : StrictOn compareEntries l where
  self := fun a _ => by rw [compareEntries_kind rfl, strcmp_self]
  opposite := fun _ _ _ _ hne => compareEntries_opposite hne
  trans := fun _ _ _ _ _ _ => compareEntries_trans

theorem sorts_sortedEntries (found : List FindData) :
    Sorts compareEntries (readEntries found) (sortedEntries found) :=
  (strictOn_compareEntries _).sorts_mergeSort

/-- An entry that does not compare greater than a folder is one. -/
theorem dir_of_compareEntries_le {a b : FileEntry} (h : compareEntries a b ≤ 0)
    (hb : b.isDir = true) : a.isDir = true := by
  by_contra ha
  rw [compareEntries_file (Bool.eq_false_of_not_eq_true ha) hb] at h
  exact absurd h (by decide)

/-- With slots for all of them, the entries that are collected are the same ones
for every enumeration. -/
theorem readEntries_perm {found found' : List FindData} (hperm : found'.Perm found)
    (hslots : (found.filter fun f => !f.isDots).length ≤ maxEntries) :
    (readEntries found').Perm (readEntries found) := by
  have hfilter := hperm.filter fun f => !f.isDots
  rw [readEntries_eq, readEntries_eq, listed, listed,
    List.take_of_length_le (hfilter.length_eq ▸ hslots), List.take_of_length_le hslots]
  exact hfilter.map _

/-- Whatever permutation of the collected entries `qsort` returns, as long as it
is sorted by `compare_entries`, is the listing. -/
theorem listing_of_sorted (found : List FindData) {entries : List FileEntry}
    (sorted : Sorts compareEntries (readEntries found) entries) : Listing found entries where
  perm := readEntries_eq found ▸ sorted.perm
  dirsFirst := sorted.ordered.imp dir_of_compareEntries_le
  increasing := by
    intro hnames kind
    have hpair := sorted.ordered.and (List.pairwise_map.mp hnames)
    refine (hpair.filter _).imp_of_mem ?_
    rintro a b ha hb ⟨hle, hne⟩
    have hkind : a.isDir = b.isDir :=
      (of_decide_eq_true (List.mem_filter.mp ha).2).trans
        (of_decide_eq_true (List.mem_filter.mp hb).2).symm
    rw [compareEntries_kind hkind] at hle
    exact lt_of_le_of_ne hle fun hz => hne (eq_of_strcmp_eq_zero hz)
  same := by
    intro found' entries' hperm hslots hsorted
    exact (strictOn_compareEntries _).sorts_unique (readEntries_perm hperm hslots) (.refl _)
      hsorted sorted

/-- The page is then the same for every enumeration. -/
theorem pageText_perm {found found' : Found} (hperm : found'.all.Perm found.all)
    (hslots : (found.all.filter fun f => !f.isDots).length ≤ maxEntries) :
    pageText (some found') = pageText (some found) := by
  have hsorted : sortedEntries found'.all = sortedEntries found.all :=
    (listing_of_sorted found.all (sorts_sortedEntries _)).same found'.all _ hperm hslots
      (sorts_sortedEntries _)
  rw [pageText, pageText, pageTexts, pageTexts, hsorted]

/-- A file `c`. -/
def fileC : FindData where
  cFileName := [99]
  dwFileAttributes := 0
  length_le := by decide
  nul_notMem := by decide

/-- A folder `d`. -/
def folderD : FindData where
  cFileName := [100]
  dwFileAttributes := fileAttributeDirectory
  length_le := by decide
  nul_notMem := by decide

/-- The folder is listed before the file. -/
theorem folder_before_file :
    Sorts compareEntries (readEntries [fileC, folderD]) [folderD.entry, fileC.entry] ∧
      Listing [fileC, folderD] [folderD.entry, fileC.entry] := by
  have hsorted : Sorts compareEntries (readEntries [fileC, folderD])
      [folderD.entry, fileC.entry] := ⟨List.Perm.swap _ _ _, by decide⟩
  exact ⟨hsorted, listing_of_sorted [fileC, folderD] hsorted⟩

end Http
end NetLab
