import Mathlib.Logic.Function.Basic

/-!
# Sequences of file calls

The calls a program makes on a store of files, each given a path. The store is
kept under keys: the paths themselves, or the places they denote, where two
paths may share one.
-/

set_option autoImplicit false

namespace CSE344.FileCalls

inductive Call (P C : Type*) where
  | create (path : P)
  | append (path : P) (data : List C)
  | remove (path : P)

def Call.path {P C : Type*} : Call P C → P
  | .create path => path
  | .append path _ => path
  | .remove path => path

section Perform

variable {P C K : Type*} [DecidableEq K] (key : P → K)

def perform (files : K → Option (List C)) : Call P C → K → Option (List C)
  | .create path => Function.update files (key path) (some [])
  | .append path data =>
    Function.update files (key path) (some ((files (key path)).getD [] ++ data))
  | .remove path => Function.update files (key path) none

def performAll (calls : List (Call P C)) (files : K → Option (List C)) : K → Option (List C) :=
  calls.foldl (perform key) files

theorem perform_frame (files : K → Option (List C)) (c : Call P C) {k : K} (h : k ≠ key c.path) :
    perform key files c k = files k := by
  cases c <;> exact Function.update_of_ne h _ _

/-- What a call leaves under one key, given what was there. -/
def leftAt (k : K) (x : Option (List C)) : Call P C → Option (List C)
  | .create path => if key path = k then some [] else x
  | .append path data => if key path = k then some (x.getD [] ++ data) else x
  | .remove path => if key path = k then none else x

theorem performAll_pieces (path : P) (pieces : List (List C)) (files : K → Option (List C))
    {content : List C} (h : files (key path) = some content) :
    performAll key (pieces.map (Call.append path)) files =
      Function.update files (key path) (some (content ++ pieces.flatten)) := by
  induction pieces generalizing files content with
  | nil =>
    rw [List.flatten_nil, List.append_nil, ← h, Function.update_eq_self]
    rfl
  | cons piece pieces ih =>
    have hone : perform key files (Call.append path piece) (key path) = some (content++piece) := by
      simp [perform, h]
    calc performAll key ((piece::pieces).map (Call.append path)) files
        = performAll key (pieces.map (Call.append path))
            (perform key files (Call.append path piece)) := rfl
      _ = _ := ih _ hone
      _ = _ := by simp [perform]

end Perform

end CSE344.FileCalls
