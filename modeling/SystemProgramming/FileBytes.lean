import Mathlib.Logic.Function.Basic
import SystemProgramming.CString

/-!
# Writing into files and copying them

A file system is a map from locations to contents. `write` at an offset puts
bytes over what is there, and a read-and-write loop copies by chunks.
-/

set_option autoImplicit false

namespace CSE344.FileBytes
open CString

/-- `write` at an offset; a gap is filled with NUL bytes. -/
def writeAt (pos : ℕ) (data content : Bytes) : Bytes :=
  content.take pos ++ List.replicate (pos-content.length) 0 ++ data ++
    content.drop (pos+data.length)

variable {Loc : Type*}

/-- What is read at a location; a location without a file reads as empty. -/
def readable (files : Loc → Option Bytes) (l : Loc) : Bytes := (files l).getD []

theorem writeAt_end (content data : Bytes) :
    writeAt content.length data content = content ++ data := by
  rw [writeAt, List.take_length, Nat.sub_self, List.drop_eq_nil_of_le (by omega)]
  simp

theorem writeAt_length (pos : ℕ) (data content : Bytes) :
    content.length ≤ (writeAt pos data content).length := by
  simp only [writeAt, List.length_append, List.length_take, List.length_replicate,
    List.length_drop]
  omega

theorem writeAt_append (before data content : Bytes) (pos : ℕ) :
    writeAt (before.length+pos) data (before++content) = before ++ writeAt pos data content := by
  simp only [writeAt, List.length_append, List.append_assoc]
  rw [List.take_length_add_append, Nat.add_sub_add_left, Nat.add_assoc,
    List.drop_length_add_append, List.append_assoc]

theorem writeAt_start (data content : Bytes) :
    writeAt 0 data content = data ++ content.drop data.length := by
  simp [writeAt]

section Copy

variable [DecidableEq Loc]

/-- `while ((n = read(src, ..)) > 0) write(dst, .., n)`, both at the offset `pos`. -/
def copyLoop (size : ℕ) (src dst : Loc) :
    ℕ → ℕ → (Loc → Option Bytes) → (Loc → Option Bytes)
  | 0, _, files => files
  | n+1, pos, files =>
    let chunk := ((readable files src).drop pos).take size
    if chunk = [] then files
    else copyLoop size src dst n (pos+chunk.length)
      (Function.update files dst (some (writeAt pos chunk (readable files dst))))

/-- The loop from the start, with a turn for every byte and one more. -/
def copy (size : ℕ) (src dst : Loc) (files : Loc → Option Bytes) : Loc → Option Bytes :=
  copyLoop size src dst ((readable files src).length+1) 0 files

theorem copyLoop_frame (size : ℕ) (src dst l : Loc) (h : l ≠ dst) (n pos : ℕ)
    (files : Loc → Option Bytes) : copyLoop size src dst n pos files l = files l := by
  induction n generalizing pos files with
  | zero => rfl
  | succ n ih =>
    rw [copyLoop]
    split_ifs
    · rfl
    · rw [ih, Function.update_of_ne h]

theorem copy_frame (size : ℕ) (src dst l : Loc) (h : l ≠ dst) (files : Loc → Option Bytes) :
    copy size src dst files l = files l := copyLoop_frame size src dst l h _ _ files

theorem copy_empty (size : ℕ) (src dst : Loc) (files : Loc → Option Bytes)
    (h : readable files src = []) : copy size src dst files = files := by
  rw [copy, copyLoop, h]
  simp

/-- From a prefix of the source, the loop goes on to the whole source. -/
theorem copyLoop_prefix (size : ℕ) (hsize : 0 < size) (src dst : Loc) (hne : src ≠ dst)
    (content : Bytes) (n pos : ℕ) (files : Loc → Option Bytes)
    (hsrc : readable files src = content) (hpos : pos ≤ content.length)
    (hn : content.length-pos < n) (hdst : files dst = some (content.take pos)) :
    copyLoop size src dst n pos files dst = some content := by
  induction n generalizing pos files with
  | zero => omega
  | succ n ih =>
    rw [copyLoop, hsrc]
    have hlen : ((content.drop pos).take size).length = min size (content.length-pos) := by
      rw [List.length_take, List.length_drop]
    split_ifs with hend
    · have := congrArg List.length hend
      rw [hlen, List.length_nil] at this
      rw [hdst, List.take_of_length_le (by omega)]
    · have hpos' := List.length_pos_iff.mpr hend
      rw [hlen] at hpos'
      have hread : readable files dst = content.take pos := by rw [readable, hdst]; rfl
      have hplace : (content.take pos).length = pos := by rw [List.length_take]; omega
      apply ih
      · rw [readable, Function.update_of_ne hne]
        exact hsrc
      · omega
      · omega
      · rw [Function.update_self, hread]
        nth_rewrite 1 [← hplace]
        have hcut : (content.drop pos).take size =
            (content.drop pos).take (min size (content.length-pos)) := by
          rw [List.take_eq_take_iff, List.length_drop]
          omega
        rw [writeAt_end, List.take_add, hlen, ← hcut]

theorem copy_content (size : ℕ) (hsize : 0 < size) (src dst : Loc) (hne : src ≠ dst)
    (files : Loc → Option Bytes) (hdst : files dst = some []) :
    copy size src dst files dst = some (readable files src) :=
  copyLoop_prefix size hsize src dst hne _ _ 0 files rfl (Nat.zero_le _) (by omega)
    (by rw [hdst, List.take_zero])

theorem copyLoop_update (size : ℕ) (src dst l : Loc) (hsrc : l ≠ src) (hdst : l ≠ dst)
    (v : Option Bytes) (n pos : ℕ) (files : Loc → Option Bytes) :
    copyLoop size src dst n pos (Function.update files l v) =
      Function.update (copyLoop size src dst n pos files) l v := by
  induction n generalizing pos files with
  | zero => rfl
  | succ n ih =>
    have hread (k : Loc) (hk : l ≠ k) :
        readable (Function.update files l v) k = readable files k := by
      rw [readable, Function.update_of_ne hk.symm, readable]
    simp only [copyLoop, hread src hsrc, hread dst hdst]
    split_ifs
    · rfl
    · rw [Function.update_comm hdst, ih]

theorem copy_update (size : ℕ) (src dst l : Loc) (hsrc : l ≠ src) (hdst : l ≠ dst)
    (v : Option Bytes) (files : Loc → Option Bytes) :
    copy size src dst (Function.update files l v) =
      Function.update (copy size src dst files) l v := by
  have hread : readable (Function.update files l v) src = readable files src := by
    rw [readable, Function.update_of_ne hsrc.symm, readable]
  rw [copy, hread, copyLoop_update size src dst l hsrc hdst, copy]

end Copy

end CSE344.FileBytes
