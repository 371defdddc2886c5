import Mathlib.Data.Int.Order.Basic
import SystemProgramming.AppendMeMore

/-!
# How long appendMeMore writes

The loop variable is an `int`, the number of bytes a `long`. The loop ends
where the variable comes to the limit, and an `int` never comes to a limit of
2^31 or more: it wraps around, and the process writes on.
-/

set_option autoImplicit false

namespace CSE344.AppendLoop
open AppendMeMore TransitionRun

inductive SysCall where
  | lseek
  | write
  deriving DecidableEq, Repr

/-- The body of the loop. -/
def body : Mode → List SysCall
  | .append => [.write]
  | .x => [.lseek, .write]

/-- The calls of the loop from `i` on, if it ends within `n` tests. -/
def loop (mode : Mode) (numBytes : Int64) : ℕ → Int32 → Option (List SysCall)
  | 0, _ => none
  | n+1, i =>
    if i.toInt64 < numBytes then (loop mode numBytes n (i+1)).map (body mode ++ ·) else some []

/-- The loop ends, after as many writes as bytes were asked for. -/
def WritesAll (mode : Mode) (numBytes : Int64) : Prop :=
  ∃ n calls, loop mode numBytes n 0 = some calls ∧
    (calls.count .write : ℤ) = max 0 numBytes.toInt

section Loop

variable {mode : Mode} {numBytes : Int64}

theorem test_iff (i : Int32) : i.toInt64 < numBytes ↔ i.toInt < numBytes.toInt := by
  rw [Int64.lt_iff_toInt_lt, Int32.toInt_toInt64]

theorem toInt_succ (i : Int32) : (i+1).toInt = increment i.toInt := Int32.toInt_add i 1

theorem body_writes (mode : Mode) : (body mode).count .write = 1 := by cases mode <;> rfl

theorem loop_ends (mode : Mode) (hn : numBytes.toInt < 2^31) (k : ℕ) (i : Int32) (hi : 0 ≤ i.toInt)
    (hk : i.toInt+k = numBytes.toInt) :
    ∃ calls, loop mode numBytes (k+1) i = some calls ∧ calls.count .write = k := by
  induction k generalizing i with
  | zero =>
    refine ⟨[], ?_, rfl⟩
    rw [loop, if_neg (by rw [test_iff]; omega)]
  | succ k ih =>
    have hnext : (i+1).toInt = i.toInt+1 := by
      rw [toInt_succ, increment]
      apply Int.bmod_eq_of_le <;> omega
    obtain ⟨calls, hcalls, hcount⟩ := ih (i+1) (by omega) (by omega)
    refine ⟨body mode ++ calls, ?_, ?_⟩
    · rw [loop, if_pos (by rw [test_iff]; omega), hcalls]
      rfl
    · rw [List.count_append, body_writes, hcount, Nat.add_comm]

theorem loop_endless (hn : 2^31 ≤ numBytes.toInt) (n : ℕ) (i : Int32) :
    loop mode numBytes n i = none := by
  induction n generalizing i with
  | zero => rfl
  | succ n ih =>
    have hi : i.toInt < 2^31 := i.toInt_lt
    rw [loop, if_pos (by rw [test_iff]; omega), ih]
    rfl

/-- As many bytes are written as were asked for just if the number is an `int`. -/
theorem writes_all_iff (mode : Mode) (numBytes : Int64) :
    WritesAll mode numBytes ↔ numBytes.toInt < 2^31 := by
  constructor
  · rintro ⟨n, calls, hcalls, -⟩
    by_contra hn
    rw [loop_endless (by omega)] at hcalls
    cases hcalls
  · intro hn
    have hzero : (0 : Int32).toInt = 0 := rfl
    rcases lt_or_ge numBytes.toInt 0 with hneg | hpos
    · refine ⟨1, [], ?_, ?_⟩
      · rw [loop, if_neg (by rw [test_iff]; omega)]
      · rw [max_eq_left (le_of_lt hneg)]
        rfl
    · obtain ⟨k, hk⟩ := Int.eq_ofNat_of_zero_le hpos
      obtain ⟨calls, hcalls, hcount⟩ := loop_ends mode hn k 0 (le_refl _) (by omega)
      exact ⟨k+1, calls, hcalls, by rw [hcount, max_eq_right hpos, hk]⟩

/-- The first limit that is no `int`. -/
theorem two_gibibytes_endless : ¬ WritesAll .append 2147483648 ∧ ¬ WritesAll .x 2147483648 := by
  have hnever (mode : Mode) : ¬ WritesAll mode 2147483648 := by
    rintro ⟨n, calls, hcalls, -⟩
    rw [loop_endless (by decide)] at hcalls
    cases hcalls
  exact ⟨hnever .append, hnever .x⟩

end Loop

section Run

/-- The calls of one process among those of all processes. -/
def act : SysCall → Act 1
  | .lseek => .lseek 0
  | .write => .write 0

def config (mode : Mode) (numBytes : Int64) : Config 1 :=
  ⟨fun _ => mode, fun _ => numBytes.toInt.toNat⟩

theorem guard_iff {numBytes : Int64} (hpos : 0 ≤ numBytes.toInt) (mode : Mode) {i : Int32}
    {s : State 1} (hi : (s.procs 0).i = i.toInt) :
    (s.procs 0).i < (config mode numBytes).numBytes 0 ↔ i.toInt64 < numBytes := by
  rw [test_iff, hi]
  show i.toInt < (numBytes.toInt.toNat : ℤ) ↔ _
  rw [Int.toNat_of_nonneg hpos]

theorem body_run {numBytes : Int64} {mode : Mode} {s : State 1}
    (hlt : (s.procs 0).i < (config mode numBytes).numBytes 0) (hs : (s.procs 0).sought = false) :
    ∃ t, run (step (config mode numBytes)) ((body mode).map act) s = some t ∧
      (t.procs 0).i = increment (s.procs 0).i ∧ (t.procs 0).sought = false := by
  have hmode : (config mode numBytes).mode 0 = mode := rfl
  generalize config mode numBytes = cfg at *
  cases mode with
  | append =>
    refine ⟨writeOne 0 s.file.length s, ?_, by simp [writeOne], by simp [writeOne]⟩
    show run _ [Act.write 0] s = _
    simp [run, step, hlt, hmode]
  | x =>
    refine ⟨writeOne 0 s.file.length
      (s.set 0 { s.procs 0 with offset := s.file.length, sought := true }), ?_,
      by simp [writeOne, State.set], by simp [writeOne]⟩
    show run _ [Act.lseek 0, Act.write 0] s = _
    simp [run, step, hlt, hs, hmode, State.set]

theorem loop_run {mode : Mode} {numBytes : Int64} (hpos : 0 ≤ numBytes.toInt) (n : ℕ) (i : Int32)
    (calls : List SysCall) (h : loop mode numBytes n i = some calls) (s : State 1)
    (hi : (s.procs 0).i = i.toInt) (hs : (s.procs 0).sought = false) :
    ∃ t, run (step (config mode numBytes)) (calls.map act) s = some t ∧
      Finished (config mode numBytes) t := by
  induction n generalizing i calls s with
  | zero => cases h
  | succ n ih =>
    have hguard := guard_iff hpos mode hi
    rw [loop] at h
    split_ifs at h with hlt
    · obtain ⟨rest, hrest, rfl⟩ := Option.map_eq_some_iff.mp h
      obtain ⟨u, hu, hui, hus⟩ := body_run (hguard.mpr hlt) hs
      obtain ⟨t, ht, hfinished⟩ := ih (i+1) rest hrest u (by rw [hui, hi, toInt_succ]) hus
      refine ⟨t, ?_, hfinished⟩
      rw [List.map_append]
      exact (run_append_iff _ _ _ _ _).mpr ⟨u, hu, ht⟩
    · cases h
      refine ⟨s, rfl, fun p => ?_⟩
      rw [Subsingleton.elim p 0, hguard]
      exact hlt

end Run

end CSE344.AppendLoop
