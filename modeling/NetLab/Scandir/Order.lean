import NetLab.Library.Comparator
import NetLab.Np20.Listing

/-!
# The order of a listing

Three programs list a directory with `scandir` and give it a function `Compare`
of their own, which is the same in all of them.  Of two entries of different
types it asks only whether the first is a directory.
-/

namespace NetLab
namespace Scandir

open CString Comparator
open Np20 (Dirent dtDir)

/-- The programs with a function `Compare`. -/
inductive Program
  | np20
  | scandirMoRong
  | scandirUsage
  deriving DecidableEq, Repr

/-- `Compare` of each program. -/
def Program.compare : Program → Dirent → Dirent → Int
  | np20 => Np20.compare
  | scandirMoRong => Np20.compare
  | scandirUsage => Np20.compare

/-- What a directory holds, in the order in which the system enumerates it. -/
structure Content where
  entries : List Dirent
  names_nodup : (entries.map Dirent.name).Nodup

/-- The comparison is a strict total order.  So whatever the enumeration was,
there is one listing, which a sort finds, and the directories come first in
it. -/
structure ListingDefined (p : Program) (content : Content) : Prop where
  strict : StrictOn p.compare content.entries
  sorted : ∀ order : List Dirent, order.Perm content.entries →
    Sorts p.compare order (order.mergeSort fun e1 e2 => p.compare e1 e2 ≤ 0)
  same : ∀ order order' listing listing' : List Dirent, order.Perm content.entries →
    order'.Perm content.entries → Sorts p.compare order listing →
    Sorts p.compare order' listing' → listing = listing'
  dirsFirst : ∀ order listing : List Dirent, order.Perm content.entries →
    Sorts p.compare order listing →
    listing.Pairwise fun e1 e2 => e2.dType = dtDir → e1.dType = dtDir

theorem compare_same {e1 e2 : Dirent} (h : e1.dType = e2.dType) :
    Np20.compare e1 e2 = strcmp e1.name e2.name := if_pos h

theorem compare_dir {e1 e2 : Dirent} (h : e1.dType = dtDir) (hne : e2.dType ≠ dtDir) :
    Np20.compare e1 e2 = -1 := by
  rw [Np20.compare, if_neg (h ▸ hne.symm), if_pos h]

theorem compare_other {e1 e2 : Dirent} (h : e1.dType ≠ dtDir) (hne : e1.dType ≠ e2.dType) :
    Np20.compare e1 e2 = 1 := by
  rw [Np20.compare, if_neg hne, if_neg h]

/-- Two entries of a directory differ in their names. -/
theorem Content.name_ne (content : Content) {a b : Dirent} (ha : a ∈ content.entries)
    (hb : b ∈ content.entries) (hne : a ≠ b) : a.name ≠ b.name :=
  fun h => hne (List.inj_on_of_nodup_map content.names_nodup ha hb h)

/-- No two entries other than directories are of different types. -/
def OneOtherType (content : Content) : Prop :=
  ∀ a ∈ content.entries, ∀ b ∈ content.entries, a.dType ≠ dtDir → b.dType ≠ dtDir →
    a.dType = b.dType

/-- Either both are of one type, or one of the two is a directory. -/
theorem OneOtherType.cases {content : Content} (h : OneOtherType content) {a b : Dirent}
    (ha : a ∈ content.entries) (hb : b ∈ content.entries) :
    a.dType = b.dType ∨ a.dType = dtDir ∧ b.dType ≠ dtDir ∨ a.dType ≠ dtDir ∧ b.dType = dtDir := by
  by_cases hda : a.dType = dtDir
  · by_cases hdb : b.dType = dtDir
    · exact .inl (hda.trans hdb.symm)
    · exact .inr (.inl ⟨hda, hdb⟩)
  · by_cases hdb : b.dType = dtDir
    · exact .inr (.inr ⟨hda, hdb⟩)
    · exact .inl (h a ha b hb hda hdb)

theorem compare_self (e : Dirent) : Np20.compare e e = 0 := by
  rw [compare_same rfl, strcmp_self]

theorem OneOtherType.opposite {content : Content} (h : OneOtherType content) {a b : Dirent}
    (ha : a ∈ content.entries) (hb : b ∈ content.entries) (hne : a ≠ b) :
    Np20.compare a b < 0 ∧ 0 < Np20.compare b a ∨ 0 < Np20.compare a b ∧ Np20.compare b a < 0 := by
  rcases h.cases ha hb with hsame | ⟨hda, hdb⟩ | ⟨hda, hdb⟩
  · have hzero : strcmp a.name b.name ≠ 0 :=
      fun hz => content.name_ne ha hb hne (eq_of_strcmp_eq_zero hz)
    rw [compare_same hsame, compare_same hsame.symm, strcmp_swap a.name b.name]
    omega
  · rw [compare_dir hda hdb, compare_other hdb (hda ▸ hdb)]
    exact .inl ⟨by decide, by decide⟩
  · rw [compare_dir hdb hda, compare_other hda (hdb ▸ hda)]
    exact .inr ⟨by decide, by decide⟩

/-- An entry before another one is of its type with a smaller name, or a
directory before something else. -/
theorem OneOtherType.neg_iff {content : Content} (h : OneOtherType content) {a b : Dirent}
    (ha : a ∈ content.entries) (hb : b ∈ content.entries) :
    Np20.compare a b < 0 ↔
      a.dType = b.dType ∧ strcmp a.name b.name < 0 ∨ a.dType = dtDir ∧ b.dType ≠ dtDir := by
  rcases h.cases ha hb with hsame | ⟨hda, hdb⟩ | ⟨hda, hdb⟩
  · rw [compare_same hsame]
    constructor
    · exact fun hlt => .inl ⟨hsame, hlt⟩
    · rintro (⟨-, hlt⟩ | ⟨hda, hdb⟩)
      · exact hlt
      · exact absurd (hsame ▸ hda) hdb
  · rw [compare_dir hda hdb]
    exact iff_of_true (by decide) (.inr ⟨hda, hdb⟩)
  · rw [compare_other hda (hdb ▸ hda)]
    refine iff_of_false (by decide) ?_
    rintro (⟨hsame, -⟩ | ⟨hda', -⟩)
    · exact hda (hsame.trans hdb)
    · exact hda hda'

theorem OneOtherType.strictOn {content : Content} (h : OneOtherType content) :
    StrictOn Np20.compare content.entries where
  self := fun a _ => compare_self a
  opposite := fun _ ha _ hb hne => h.opposite ha hb hne
  trans := by
    intro a ha b hb c hc hab hbc
    rw [h.neg_iff ha hb] at hab
    rw [h.neg_iff hb hc] at hbc
    rw [h.neg_iff ha hc]
    rcases hab with ⟨hsame, hlt⟩ | ⟨hda, hdb⟩
    · rcases hbc with ⟨hsame', hlt'⟩ | ⟨hdb, hdc⟩
      · exact .inl ⟨hsame.trans hsame', strcmp_trans hlt hlt'⟩
      · exact .inr ⟨hsame.trans hdb, hdc⟩
    · rcases hbc with ⟨hsame', -⟩ | ⟨hdb', -⟩
      · exact .inr ⟨hda, hsame' ▸ hdb⟩
      · exact absurd hdb' hdb

/-- An entry that does not compare greater than a directory is one. -/
theorem dir_of_compare_le {a b : Dirent} (h : Np20.compare a b ≤ 0) (hb : b.dType = dtDir) :
    a.dType = dtDir := by
  by_contra hda
  rw [compare_other hda (hb ▸ hda)] at h
  exact absurd h (by decide)

theorem OneOtherType.listingDefined {content : Content} (h : OneOtherType content) :
    ListingDefined .np20 content where
  strict := h.strictOn
  sorted := fun _ hperm => (h.strictOn.perm hperm).sorts_mergeSort
  same := fun _ _ _ _ hperm hperm' hs hs' => h.strictOn.sorts_unique hperm hperm' hs hs'
  dirsFirst := fun _ _ _ hs => hs.ordered.imp dir_of_compare_le

/-- The listing of a directory is well defined exactly if all its entries that
are not directories are of one type. -/
theorem listing_defined_iff (p : Program) (content : Content) :
    ListingDefined p content ↔ OneOtherType content := by
  have hp : ListingDefined p content ↔ ListingDefined .np20 content := by
    cases p with
    | np20 => exact Iff.rfl
    | scandirMoRong => exact ⟨fun h => ⟨h.1, h.2, h.3, h.4⟩, fun h => ⟨h.1, h.2, h.3, h.4⟩⟩
    | scandirUsage => exact ⟨fun h => ⟨h.1, h.2, h.3, h.4⟩, fun h => ⟨h.1, h.2, h.3, h.4⟩⟩
  rw [hp]
  refine ⟨fun h a ha b hb hda hdb => ?_, OneOtherType.listingDefined⟩
  by_contra hne
  have hab : Np20.compare a b = 1 := compare_other hda hne
  have hba : Np20.compare b a = 1 := compare_other hdb (Ne.symm hne)
  have hopposite : Np20.compare a b < 0 ∧ 0 < Np20.compare b a ∨
      0 < Np20.compare a b ∧ Np20.compare b a < 0 :=
    h.strict.opposite a ha b hb fun heq => hne (congrArg Dirent.dType heq)
  omega

/-- The page of a directory is then the same for every enumeration of it and
however `scandir` sorts. -/
theorem pageTexts_sorts {content : Content} (h : OneOtherType content) (path : Bytes)
    {order order' listing listing' : List Dirent} (hperm : order.Perm content.entries)
    (hperm' : order'.Perm content.entries) (hs : Sorts Np20.compare order listing)
    (hs' : Sorts Np20.compare order' listing') :
    Np20.pageTexts path listing = Np20.pageTexts path listing' := by
  rw [h.strictOn.sorts_unique hperm hperm' hs hs']

/-- A regular file `a` and a symbolic link `b`. -/
def fileAndLink : Content where
  entries := [
    { name := [97], dType := 8, name_ne := by decide, nul_notMem := by decide,
      slash_notMem := by decide },
    { name := [98], dType := 10, name_ne := by decide, nul_notMem := by decide,
      slash_notMem := by decide }]
  names_nodup := by decide

/-- Each of the two compares greater than the other. -/
theorem listing_not_defined : ¬ ∀ p content, ListingDefined p content := by
  intro h
  have hopposite := (h .np20 fileAndLink).strict.opposite _ List.mem_cons_self _
    (List.mem_cons_of_mem _ List.mem_cons_self)
    fun heq => absurd (congrArg Dirent.dType heq) (by decide)
  exact absurd hopposite (by decide)

end Scandir
end NetLab
