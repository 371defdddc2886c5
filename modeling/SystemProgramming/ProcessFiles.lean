import Mathlib.Data.List.Basic
import Mathlib.Logic.Function.Basic
import Mathlib.Tactic.Common

/-!
# Descriptor tables and directories

A process names its open files by numbers and takes the lowest free one for a
new file. A directory binds places to files, and a place whose binding was
removed can only be bound to a new file afterwards.
-/

set_option autoImplicit false

namespace CSE344.ProcessFiles

section Descriptors

variable {α : Type*}

/-- The open files of a process by number; `none` is a free number. -/
abbrev Table (α : Type*) := List (Option α)

def lookup (t : Table α) (n : ℕ) : Option α := t[n]?.join

def free (t : Table α) : ℕ := t.findIdx Option.isNone

def install (t : Table α) (x : α) : Table α := t.take (free t) ++ some x :: t.drop (free t+1)

def close (t : Table α) (n : ℕ) : Table α := t.set n none

theorem lookup_free (t : Table α) : lookup t (free t) = none := by
  unfold lookup
  by_cases h : free t < t.length
  · have hnone : (t[free t]).isNone = true := List.findIdx_getElem (w := h)
    rw [List.getElem?_eq_getElem h, Option.isNone_iff_eq_none.mp hnone]
    rfl
  · rw [List.getElem?_eq_none (Nat.not_lt.mp h)]
    rfl

theorem take_free_length (t : Table α) : (t.take (free t)).length = free t := by
  have h : free t ≤ t.length := List.findIdx_le_length
  rw [List.length_take, Nat.min_eq_left h]

theorem lookup_install_free (t : Table α) (x : α) : lookup (install t x) (free t) = some x := by
  have hlen := take_free_length t
  rw [lookup, install, List.getElem?_append_right (by omega), hlen, Nat.sub_self]
  rfl

theorem lookup_install_ne (t : Table α) (x : α) {n : ℕ} (h : n ≠ free t) :
    lookup (install t x) n = lookup t n := by
  have hlen := take_free_length t
  unfold lookup install
  rcases Nat.lt_or_gt_of_ne h with h | h
  · rw [List.getElem?_append_left (by omega), List.getElem?_take_of_lt h]
  · obtain ⟨k, hk⟩ := Nat.exists_eq_add_of_lt h
    rw [List.getElem?_append_right (by omega), hlen, show n-free t = k+1 by omega,
      List.getElem?_cons_succ, List.getElem?_drop, hk]
    congr 2
    omega

theorem ne_free {t : Table α} {n : ℕ} {x : α} (h : lookup t n = some x) : n ≠ free t := by
  rintro rfl
  rw [lookup_free] at h
  cases h

theorem lookup_install {t : Table α} {n : ℕ} {x : α} (h : lookup t n = some x) (y : α) :
    lookup (install t y) n = some x :=
  (lookup_install_ne t y (ne_free h)).trans h

theorem lookup_close_ne (t : Table α) {n m : ℕ} (h : n ≠ m) :
    lookup (close t m) n = lookup t n := by
  rw [lookup, close, List.getElem?_set_ne (Ne.symm h), lookup]

theorem lookup_close (t : Table α) (n : ℕ) : lookup (close t n) n = none := by
  rw [lookup, close, List.getElem?_set_self']
  cases t[n]? <;> rfl

end Descriptors

section Directories

variable {L : Type*} [DecidableEq L]

/-- `unlinked` is a history: the places whose binding has been removed. -/
structure Directory (L : Type*) where
  files : L → Option ℕ
  next : ℕ
  unlinked : List L

/-- A file is made where there is none. -/
def Directory.create (d : Directory L) (l : L) : Directory L :=
  match d.files l with
  | none => { d with files := Function.update d.files l (some d.next), next := d.next+1 }
  | some _ => d

def Directory.unlink (d : Directory L) (l : L) : Directory L :=
  { d with files := Function.update d.files l none, unlinked := l :: d.unlinked }

/-- The place was bound to the file, and is exactly as long as it was never unlinked. -/
def Kept (d : Directory L) (l : L) (x : ℕ) : Prop :=
  x < d.next ∧ (d.files l = some x ↔ l ∉ d.unlinked)

theorem Kept.create {d : Directory L} {l : L} {x : ℕ} (h : Kept d l x) (m : L) :
    Kept (d.create m) l x := by
  unfold Directory.create
  split
  · rename_i hm
    refine ⟨Nat.lt_succ_of_lt h.1, ?_⟩
    by_cases hlm : l = m
    · have hgone : ¬ l ∉ d.unlinked := fun hl => by simp [hlm ▸ h.2.mpr hl] at hm
      simp only [hlm, Function.update_self, Option.some.injEq]
      constructor
      · intro hx
        exact absurd hx (Nat.ne_of_gt h.1)
      · intro hl
        exact absurd (hlm ▸ hl) hgone
    · simp only [Function.update_of_ne hlm]
      exact h.2
  · exact h

theorem Kept.unlink {d : Directory L} {l : L} {x : ℕ} (h : Kept d l x) (m : L) :
    Kept (d.unlink m) l x := by
  refine ⟨h.1, ?_⟩
  by_cases hlm : l = m
  · simp [Directory.unlink, hlm]
  · simp only [Directory.unlink, Function.update_of_ne hlm, List.mem_cons, hlm, false_or]
    exact h.2

end Directories

end CSE344.ProcessFiles
