import Mathlib.Algebra.Ring.Nat
import SystemProgramming.ShellSegments

/-!
# The indices of the HW2 shell

A token stores one entry of `command_tokens` and the end of a segment one more;
a fork stores one entry of the global `child_pids`, of which the counter is
never reset; and the exit command reads as many entries of the `child_pids` of
`main` as the token loop has had turns since the shell was started.
-/

set_option autoImplicit false

namespace CSE344.ShellIndices
open CString Words ProcessFiles ShellProcess ShellSegments TransitionRun
open Shell (Line maxCommands maxChildren)

/-- The stores into `command_tokens` for a segment, with the NULL behind it. -/
def slots (seg : Segment) : ℕ :=
  (wordsOf seg.items).length + if seg.ending = .quit then 0 else 1

/-- The turns of the token loop for a segment. -/
def turns (seg : Segment) : ℕ := seg.items.length + if seg.ending = .bar then 1 else 0

/-- The children among the segments, of which the first has the k-th call. -/
def children (env : Env) (k : ℕ) (segs : List Segment) : ℕ :=
  (segs.zipIdx k).countP (fun p => p.1.ending ≠ .quit ∧ env.outcome p.2 ≠ .forkFailed)

/-- The exit command comes to the loop over the local `child_pids`. -/
def Waits (env : Env) (seg : Segment) : Prop :=
  seg.ending = .quit ∧ (env.logFile = true ∨ wordsOf seg.items = [])

instance Waits.decidable (env : Env) (seg : Segment) : Decidable (Waits env seg) :=
  inferInstanceAs (Decidable (_ ∧ _))

/-- The segments that a session comes to fit the three arrays. -/
structure Fits (env : Env) (segs : List Segment) : Prop where
  tokens : ∀ seg ∈ segs, slots seg ≤ maxCommands
  children : children env 0 segs ≤ maxChildren
  waited : ∀ seg ∈ segs, Waits env seg → (segs.map turns).sum ≤ maxCommands

section Counts

variable {env : Env}

theorem children_cons (k : ℕ) (seg : Segment) (segs : List Segment) :
    children env k (seg::segs) = children env (k+1) segs +
      if seg.ending ≠ .quit ∧ env.outcome k ≠ .forkFailed then 1 else 0 := by
  rw [children, List.zipIdx_cons, List.countP_cons, children]
  simp

end Counts

section Accesses

variable {env : Env} {v : Vars Bytes}

def Within (accesses : List Access) : Prop := ∀ a ∈ accesses, a.InRange

theorem within_append (as bs : List Access) : Within (as++bs) ↔ Within as ∧ Within bs :=
  List.forall_mem_append

theorem within_singleton (a : Access) : Within [a] ↔ a.InRange := by simp [Within]

theorem within_words (its : List Item) (htokens : v.tokens = []) :
    Within (items env its v).accesses ↔
      Within v.accesses ∧ (wordsOf its).length ≤ maxCommands := by
  rw [(items_stored env its v).accesses, within_append, htokens, List.length_nil]
  apply and_congr_right
  intro _
  simp only [Within, List.forall_mem_map, List.mem_range'_1, Nat.zero_le, true_and, Nat.zero_add,
    Access.InRange]
  exact forall_lt_iff_le

theorem within_called (env : Env) (its : List Item) (htokens : v.tokens = []) :
    Within ((items env its v).called id).accesses ↔
      Within v.accesses ∧ (wordsOf its).length+1 ≤ maxCommands := by
  have hlen : (items env its v).tokens.length = (wordsOf its).length := by
    rw [(items_stored env its v).tokens, htokens, List.nil_append]
  rw [Vars.called, within_append, within_words its htokens, within_singleton, hlen, and_assoc]
  apply and_congr_right
  intro _
  show _ ∧ (wordsOf its).length < maxCommands ↔ _
  omega

theorem within_forked (u : Vars Bytes) :
    Within u.forked.accesses ↔ Within u.accesses ∧ u.numChildren < maxChildren := by
  rw [Vars.forked, within_append, within_singleton]
  rfl

theorem within_waited (n : ℕ) :
    Within ((List.range n).map .waitedPids) ↔ n ≤ maxCommands := by
  simp only [Within, List.forall_mem_map, List.mem_range, Access.InRange]
  exact forall_lt_iff_le

theorem within_quit {seg : Segment} (hquit : seg.ending = .quit) (htokens : v.tokens = []) :
    Within ((items env seg.items v).quit env).accesses ↔ Within v.accesses ∧
      slots seg ≤ maxCommands ∧ (Waits env seg → v.localChildren+turns seg ≤ maxCommands) := by
  obtain ⟨hwords, hlocal, -⟩ := items_stored env seg.items v
  have hslots : slots seg = (wordsOf seg.items).length := by simp [slots, hquit]
  have hturns : turns seg = seg.items.length := by simp [turns, hquit]
  have hiff : (env.logFile = true ∨ (items env seg.items v).tokens = []) ↔ Waits env seg := by
    rw [hwords, htokens, List.nil_append, Waits]
    simp [hquit]
  unfold Vars.quit
  simp only [hiff]
  split_ifs with hwaits
  · rw [within_append, within_words _ htokens, within_waited, hlocal, hslots, hturns, and_assoc]
    simp [hwaits]
  · rw [within_words _ htokens, hslots]
    simp [hwaits]

end Accesses

section Runs

variable {env : Env}

theorem run_within_iff (env : Env) (segs : List Segment) (v : Vars Bytes)
    (htokens : v.tokens = []) :
    Within (runSegments env segs v).vars.accesses ↔ Within v.accesses ∧
      (∀ seg ∈ reached env v.calls.length segs, slots seg ≤ maxCommands) ∧
      (∀ i < children env v.calls.length (reached env v.calls.length segs),
        v.numChildren+i < maxChildren) ∧
      ∀ seg ∈ reached env v.calls.length segs, Waits env seg →
        v.localChildren + ((reached env v.calls.length segs).map turns).sum ≤ maxCommands := by
  induction segs generalizing v with
  | nil => simp [runSegments, Result.vars, reached, children]
  | cons seg segs ih =>
    have hcalled := within_called env seg.items htokens
    obtain ⟨-, hlocal, hnum, -⟩ := items_stored env seg.items v
    have hslots (h : seg.ending ≠ .quit) : slots seg = (wordsOf seg.items).length+1 := by
      simp [slots, h]
    have hwaits (h : seg.ending ≠ .quit) : ¬ Waits env seg := fun hw => h hw.1
    rw [runSegments, reached]
    by_cases hquit : seg.ending = .quit
    · rw [runSegment_quit hquit, if_neg (by simp [hquit])]
      show Within ((items env seg.items v).quit env).accesses ↔ _
      rw [within_quit hquit htokens]
      simp [children, hquit]
    · rw [runSegment_call hquit]
      cases hout : env.outcome v.calls.length with
      | forkFailed =>
        show Within ((items env seg.items v).called id).accesses ↔ _
        rw [hcalled, if_neg (by simp), children_cons]
        simp [children, hout, hslots hquit, hwaits hquit]
      | waitFailed =>
        show Within ((items env seg.items v).called id).forked.accesses ↔ _
        rw [within_forked, hcalled, if_neg (by simp), children_cons]
        simp [children, hout, hslots hquit, hwaits hquit, hquit, Vars.called, hnum, and_assoc]
      | returned =>
        have hchildren : (behind env seg v).numChildren = v.numChildren+1 :=
          congrArg Nat.succ hnum
        have hturns : (behind env seg v).localChildren = v.localChildren+turns seg := by
          rw [turns, ← Nat.add_assoc, ← hlocal]
          rfl
        have hfirst : Within (behind env seg v).accesses ↔
            (Within v.accesses ∧ slots seg ≤ maxCommands) ∧ v.numChildren < maxChildren := by
          rw [hslots hquit, ← hcalled, ← hnum]
          exact within_forked _
        show Within (runSegments env segs (behind env seg v)).vars.accesses ↔ _
        rw [ih _ rfl, hfirst, behind_calls_length, hchildren, hturns, if_pos ⟨hquit, rfl⟩,
          children_cons, if_pos ⟨hquit, by rw [hout]; decide⟩, Nat.forall_lt_succ_left, List.forall_mem_cons,
          List.forall_mem_cons, List.map_cons, List.sum_cons]
        simp only [hwaits hquit, false_implies, true_and, Nat.add_zero, Nat.add_assoc,
          Nat.add_comm 1, and_assoc]
        constructor
        · rintro ⟨hv, hseg, hnext, hsegs, hrest⟩
          exact ⟨hv, hseg, hsegs, hnext, hrest⟩
        · rintro ⟨hv, hseg, hsegs, hnext, hrest⟩
          exact ⟨hv, hseg, hnext, hsegs, hrest⟩

/-- Every access of a session is in range just if its segments fit the arrays. -/
theorem session_in_range_iff (env : Env) (inherited : Table File) (ls : List Line) :
    ∃ s, run (turn env) (ls.map entered) (start inherited) = some s ∧
      ((∀ a ∈ s.vars.accesses, a.InRange) ↔ Fits env (reached env 0 (session ls))) := by
  obtain ⟨s, hrun, hran⟩ := start_runs env inherited ls
  refine ⟨s, hrun, ?_⟩
  have haccesses : s.vars.accesses =
      (runSegments env (session ls) (initVars inherited)).vars.accesses := by
    obtain ⟨f, hf⟩ := hran.vars
    rw [hf]
    split_ifs <;> rfl
  have hiff := run_within_iff env (session ls) (initVars inherited) rfl
  rw [haccesses]
  refine hiff.trans ?_
  show Within [] ∧ _ ∧ (∀ i < children env 0 (reached env 0 (session ls)), 0+i < maxChildren) ∧
    (∀ seg ∈ reached env 0 (session ls), _ → 0+_ ≤ maxCommands) ↔ _
  simp only [Nat.zero_add]
  constructor
  · rintro ⟨-, htokens, hchildren, hwaited⟩
    exact ⟨htokens, forall_lt_iff_le.mp hchildren, hwaited⟩
  · rintro ⟨htokens, hchildren, hwaited⟩
    exact ⟨fun a ha => (by cases ha), htokens, forall_lt_iff_le.mpr hchildren, hwaited⟩

def emptyLine : Line := ⟨ascii "", by decide, by decide, by decide⟩

/-- Each empty line is a command; the 21st child is stored behind the array. -/
theorem empty_lines_overflow : ∃ s,
    run (turn steady) ((List.replicate 21 emptyLine).map entered) (start []) = some s ∧
      Access.childPids 20 ∈ s.vars.accesses ∧ ¬ (Access.childPids 20).InRange :=
  ⟨_, rfl, by decide, by decide⟩

end Runs

end CSE344.ShellIndices
