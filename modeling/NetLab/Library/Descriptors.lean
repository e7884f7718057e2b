import Mathlib.Data.List.Basic

/-!
# Descriptor tables

The table of a process maps small numbers to open files.  A new file gets the
lowest number that is free in that process, and closing frees a number again.
-/

namespace NetLab
namespace Descriptors

variable {β : Type*}

/-- Entry `d` is what descriptor `d` refers to. -/
abbrev Table (β : Type*) := List (Option β)

def lookup (t : Table β) (d : Nat) : Option β := (t[d]?).join

def lowestFree : Table β → Nat
  | [] => 0
  | none :: _ => 0
  | some _ :: t => lowestFree t + 1

/-- The table with `f` open at the lowest free descriptor. -/
def install (f : β) : Table β → Table β
  | [] => [some f]
  | none :: t => some f :: t
  | some g :: t => some g :: install f t

def close (t : Table β) (d : Nat) : Table β := t.set d none

theorem lookup_lowestFree (t : Table β) : lookup t (lowestFree t) = none := by
  induction t with
  | nil => rfl
  | cons x t ih =>
    cases x with
    | none => rfl
    | some g => exact ih

theorem lookup_install (f : β) (t : Table β) : lookup (install f t) (lowestFree t) = some f := by
  induction t with
  | nil => rfl
  | cons x t ih =>
    cases x with
    | none => rfl
    | some g => exact ih

theorem lookup_install_of_ne (f : β) {t : Table β} {e : Nat} (h : e ≠ lowestFree t) :
    lookup (install f t) e = lookup t e := by
  induction t generalizing e with
  | nil =>
    cases e with
    | zero => exact absurd rfl h
    | succ e => rfl
  | cons x t ih =>
    cases x with
    | none =>
      cases e with
      | zero => exact absurd rfl h
      | succ e => rfl
    | some g =>
      cases e with
      | zero => rfl
      | succ e => exact ih fun he => h (congrArg (· + 1) he)

theorem lookup_close_of_ne {t : Table β} {d e : Nat} (h : d ≠ e) :
    lookup (close t d) e = lookup t e := by
  rw [lookup, close, List.getElem?_set_ne h, lookup]

/-- Closing what was opened last makes the same descriptor the lowest free one. -/
theorem lowestFree_close_install (f : β) (t : Table β) :
    lowestFree (close (install f t) (lowestFree t)) = lowestFree t := by
  induction t with
  | nil => rfl
  | cons x t ih =>
    cases x with
    | none => rfl
    | some g =>
      show lowestFree (close (install f t) (lowestFree t)) + 1 = lowestFree t + 1
      rw [ih]

end Descriptors
end NetLab
