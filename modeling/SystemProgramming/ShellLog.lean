import SystemProgramming.ShellSegments

/-!
# The log of the HW2 shell

The exit command writes a log with a process number and a word in each line,
and then waits for the children. Both come from the `child_pids` of `main`,
which hides the array that the children's numbers are stored in: nothing is
ever stored in it but the zeros of the `memset` behind each line.
-/

set_option autoImplicit false

namespace CSE344.ShellLog
open CString Words ProcessFiles ShellProcess ShellSegments TransitionRun
open Shell (Line space chomp exitCommand maxCommands)

/-- A line of the log; `none` is whatever the memory holds there. -/
structure Entry where
  pid : Option ℤ
  command : Bytes
  deriving DecidableEq, Repr

structure State where
  shell : ShellProcess.State
  childPids : List (Option ℤ)
  log : Option (List Entry)

def start (inherited : Table File) : State :=
  ⟨ShellProcess.start inherited, List.replicate maxCommands none, none⟩

/-- `child_pids[i]`, behind the end of the array as well. -/
def pidAt (childPids : List (Option ℤ)) (i : ℕ) : Option ℤ := childPids.getD i none

/-- The loop of `fprintf` over the words. -/
def entries (childPids : List (Option ℤ)) (words : List Bytes) : List Entry :=
  words.mapIdx (fun i w => ⟨pidAt childPids i, w⟩)

def cleared : List (Option ℤ) := List.replicate maxCommands (some 0)

/-- What follows the token loop, with the log at the exit command and the
`memset` behind any other line. -/
def finish (env : Env) (m : Bytes) (v : Vars ℕ) (s : State) : State :=
  let r := ShellProcess.finish env m v
  if cstr m = exitCommand then
    { s with
      shell := r.state m
      log := if env.logFile then some (entries s.childPids (v.tokens.map (cstrAt m))) else none }
  else { s with
    shell := r.state m
    childPids := match r with
      | .exit _ => s.childPids
      | .done _ => cleared }

def turn (env : Env) (read : Option Bytes) (s : State) : Option State :=
  if s.shell.exited then some s
  else (ShellLines.fgets read s.shell.input).bind (fun m =>
    let m := chomp m
    (tokenLoop env (m.length+1) (strtok space m 0) s.shell.vars).map (fun r =>
      match r with
      | (m, .exit v) => { s with shell := (Result.exit v).state m }
      | (m, .done v) => finish env m v s))

/-- The words behind the last bar of a line. -/
def lastWords (text : Bytes) : List Bytes :=
  wordsOf ((piecesFrom (words space text) []).getLastD [])

/-- Every call so far has waited for its child. -/
def Reaped (env : Env) {τ : Type} (v : Vars τ) : Prop :=
  ∀ k < v.calls.length, env.outcome k = .returned

section Segments

variable {env : Env}

theorem endings_concat (last : Ending) (ps : List (List Item)) (p : List Item) :
    endings last (ps ++ [p]) = ps.map (⟨·, .bar⟩) ++ [⟨p, last⟩] := by
  induction ps with
  | nil => rfl
  | cons q ps ih =>
    rw [List.cons_append, endings, if_neg (by simp), ih]
    rfl

theorem runSegments_through {segs : List Segment} {v w : Vars Bytes} (htokens : v.tokens = [])
    (hreaped : Reaped env v) (h : runSegments env segs v = .done w) :
    w.tokens = [] ∧ Reaped env w := by
  induction segs generalizing v with
  | nil =>
    cases h
    exact ⟨htokens, hreaped⟩
  | cons seg segs ih =>
    obtain ⟨-, hout, hrest⟩ := runSegments_done_iff.mp h
    refine ih rfl (fun k hk => ?_) hrest
    rw [behind_calls_length] at hk
    rcases Nat.lt_succ_iff_lt_or_eq.mp hk with hk | rfl
    · exact hreaped k hk
    · exact hout

/-- A loop that came to the end of its line holds the words behind the last bar.
It does not know yet what the line ends in. -/
theorem loop_tokens {ps : List (List Item)} {p : List Item} {v0 V : Vars Bytes}
    (htokens : v0.tokens = []) (hreaped : Reaped env v0)
    (h : ∀ last, runSegments env (endings last (ps ++ [p])) v0 = conclude env last V) :
    V.tokens = wordsOf p ∧ Reaped env V := by
  have hsplit (last : Ending) : Result.bind (runSegments env (ps.map (⟨·, .bar⟩)) v0)
      (fun w => conclude env last (items env p w)) = conclude env last V := by
    rw [← h last, endings_concat, runSegments_append]
    congr 1
    funext w
    exact (Result.bind_done _).symm
  have hquit := hsplit .quit
  cases hbars : runSegments env (ps.map (⟨·, .bar⟩)) v0 with
  | exit w =>
    -- an exit before the last segment would not depend on how the line ends
    have hline := hsplit .line
    rw [hbars] at hquit hline
    have hw : w.calls = V.calls := by
      rw [Result.exit.inj hquit, Vars.quit]
      split_ifs <;> rfl
    simp only [Result.bind, conclude, runCommand] at hline
    cases hout : env.outcome V.calls.length <;> rw [hout] at hline
    · have := congrArg (List.length ∘ Vars.calls) (Result.exit.inj hline)
      simp [Vars.called, hw] at this
    · have := congrArg (List.length ∘ Vars.calls) (Result.exit.inj hline)
      simp [Vars.called, Vars.forked, hw] at this
    · cases hline
  | done w =>
    rw [hbars] at hquit
    obtain ⟨hw, hkept⟩ := runSegments_through htokens hreaped hbars
    have hstored := items_stored env p w
    have hsame := Result.exit.inj hquit
    have htok : (items env p w).tokens = V.tokens := by
      have := congrArg Vars.tokens hsame
      unfold Vars.quit at this
      split_ifs at this <;> exact this
    have hcalls : (items env p w).calls = V.calls := by
      have := congrArg Vars.calls hsame
      unfold Vars.quit at this
      split_ifs at this <;> exact this
    refine ⟨?_, fun k hk => hkept k ?_⟩
    · rw [← htok, hstored.tokens, hw, List.nil_append]
    · rwa [← hcalls, hstored.calls] at hk

end Segments

section Session

/-- A turn at a prompt: what it leaves for the next one, or the log. -/
structure Turned (env : Env) (l : Line) (s t : State) : Prop where
  prompt : t.shell.exited = false → ¬ Quits l.bytes ∧ t.shell.vars.tokens = [] ∧
    Reaped env t.shell.vars ∧ t.log = none ∧ t.childPids = cleared
  logged : ∀ log, t.log = some log → Quits l.bytes ∧
    log = entries s.childPids (lastWords l.bytes) ∧ Reaped env t.shell.vars

theorem runCommand_reaped {env : Env} {read : ℕ → Bytes} {v u : Vars ℕ} (hv : Reaped env v)
    (h : runCommand env read v = .done u) : Reaped env u := by
  unfold runCommand at h
  split at h
  · cases h
  · cases h
  · next hout =>
    cases h
    intro k hk
    have hlen : (v.called read).forked.calls.length = v.calls.length+1 := by
      simp [Vars.called, Vars.forked]
    rcases Nat.lt_succ_iff_lt_or_eq.mp (hlen ▸ hk) with hk | rfl
    · exact hv k hk
    · exact hout

theorem quit_reaped {env : Env} {v : Vars ℕ} (hv : Reaped env v) : Reaped env (v.quit env) := by
  have hcalls : (v.quit env).calls = v.calls := by
    unfold Vars.quit
    split_ifs <;> rfl
  intro k hk
  rw [hcalls] at hk
  exact hv k hk

theorem turn_turned (env : Env) (l : Line) (s : State) (hs : s.shell.exited = false)
    (htokens : s.shell.vars.tokens = []) (hreaped : Reaped env s.shell.vars) (hlog : s.log = none) :
    ∃ t, turn env (entered l) s = some t ∧ Turned env l s t := by
  obtain ⟨m, hm, htext⟩ := fgets_entered l s.shell.input
  have hloops (last : Ending) := tokenLoop_segments env last ((chomp m).length+1) (chomp m) 0
    s.shell.vars [] (Vars.map (fun _ => []) s.shell.vars)
    (Nat.lt_succ_of_le (List.takeWhile_sublist _).length_le)
    (by rw [htokens]; exact fun q hq => by cases hq) (by
      rw [Vars.map, htokens, items, List.foldl_nil, Vars.map, htokens]
      rfl)
  rw [show cstrAt (chomp m) 0 = l.bytes from htext] at hloops
  obtain ⟨m', r, hloop, -, hkeep⟩ := (hloops .line).ends
  have hresult (last : Ending) : runSegments env
      (endings last (piecesFrom (words space l.bytes) [])) (Vars.map (fun _ => []) s.shell.vars) =
        Result.bind (Result.map (cstrAt m') r) (conclude env last) := by
    obtain ⟨m2, r2, hloop2, hrun, -⟩ := (hloops last).ends
    rw [hloop] at hloop2
    cases hloop2
    exact hrun
  have hfront : cstr m' = exitCommand ↔ Quits l.bytes := by
    rw [← quits_iff, ← htext]
    have hsame := (hkeep 0 (front_behind _ _)).trans (strtok_front _ _).1
    exact ⟨fun h => hsame.symm.trans h, fun h => hsame.trans h⟩
  rw [turn, if_neg (by simp [hs]), hm, Option.bind_some]
  dsimp only
  rw [hloop, Option.map_some]
  cases r with
  | exit v =>
    refine ⟨_, rfl, (fun hprompt => by cases hprompt), fun log h => ?_⟩
    rw [hlog] at h
    cases h
  | done v =>
    obtain ⟨ps, p, hps⟩ := (List.eq_nil_or_concat
      (piecesFrom (words space l.bytes) [])).resolve_left (piecesFrom_ne_nil _ _)
    rw [List.concat_eq_append] at hps
    rw [hps] at hresult
    obtain ⟨hwords, hv⟩ := loop_tokens (by rw [Vars.map, htokens]; rfl) hreaped hresult
    have hlast : v.tokens.map (cstrAt m') = lastWords l.bytes := by
      rw [lastWords, hps, List.getLastD_concat]
      exact hwords
    refine ⟨_, rfl, ?_⟩
    by_cases hq : Quits l.bytes
    · have hexit := hfront.mpr hq
      simp only [finish, ShellProcess.finish, if_pos hexit]
      refine ⟨(fun hprompt => by cases hprompt), fun log h => ?_⟩
      obtain ⟨-, rfl⟩ := guarded_iff.mp h
      exact ⟨hq, by rw [hlast], quit_reaped hv⟩
    · have hexit := fun h => hq (hfront.mp h)
      simp only [finish, ShellProcess.finish, if_neg hexit]
      refine ⟨fun hprompt => ?_, fun log h => ?_⟩
      · cases hrun : runCommand env (cstrAt m') v with
        | exit u =>
          rw [hrun] at hprompt
          cases hprompt
        | done u => exact ⟨hq, runCommand_tokens hrun, runCommand_reaped hv hrun, hlog, rfl⟩
      · rw [hlog] at h
        cases h

theorem run_exited (env : Env) (reads : List (Option Bytes)) {s : State}
    (hs : s.shell.exited = true) : run (turn env) reads s = some s := by
  induction reads with
  | nil => rfl
  | cons read reads ih =>
    rw [run, turn, if_pos hs]
    exact ih

/-- The line of the exit command, and what the log then says. -/
structure Logged (env : Env) (childPids : List (Option ℤ)) (ls : List Line) (log : List Entry)
    (t : State) : Prop where
  line : ∃ before l after, ls = before ++ l::after ∧ (∀ x ∈ before, ¬ Quits x.bytes) ∧
    Quits l.bytes ∧
    log = entries (if before = [] then childPids else cleared) (lastWords l.bytes)
  reaped : Reaped env t.shell.vars

theorem session_logged (env : Env) (ls : List Line) (s : State) (hs : s.shell.exited = false)
    (htokens : s.shell.vars.tokens = []) (hreaped : Reaped env s.shell.vars)
    (hlog : s.log = none) : ∃ t, run (turn env) (ls.map entered) s = some t ∧
      ∀ log, t.log = some log → Logged env s.childPids ls log t := by
  induction ls generalizing s with
  | nil =>
    refine ⟨s, rfl, fun log h => ?_⟩
    rw [hlog] at h
    cases h
  | cons l ls ih =>
    obtain ⟨u, hu, hturned⟩ := turn_turned env l s hs htokens hreaped hlog
    rw [List.map_cons, run, hu, Option.bind_some]
    cases hexit : u.shell.exited with
    | true =>
      refine ⟨u, run_exited env _ hexit, fun log h => ?_⟩
      obtain ⟨hq, hentries, hkept⟩ := hturned.logged log h
      exact ⟨⟨[], l, ls, rfl, by simp, hq, hentries⟩, hkept⟩
    | false =>
      obtain ⟨hq, htokens', hreaped', hlog', hpids⟩ := hturned.prompt hexit
      obtain ⟨t, ht, hlogged⟩ := ih u hexit htokens' hreaped' hlog'
      refine ⟨t, ht, fun log h => ?_⟩
      obtain ⟨⟨before, l', after, rfl, hbefore, hq', hentries⟩, hkept⟩ := hlogged log h
      refine ⟨⟨l::before, l', after, rfl, by simpa [hq] using hbefore, hq', ?_⟩, hkept⟩
      rw [hentries, hpids, if_neg (List.cons_ne_nil l before), ite_self]

/-- The log is written beside what the shell does anyway. -/
theorem turn_shell (env : Env) (read : Option Bytes) (s t : State) (h : turn env read s = some t) :
    ShellProcess.turn env read s.shell = some t.shell := by
  unfold turn at h
  unfold ShellProcess.turn
  split_ifs at h ⊢ with hexit
  · cases h
    rfl
  · obtain ⟨m, hm, h⟩ := Option.bind_eq_some_iff.mp h
    obtain ⟨⟨m', r⟩, hloop, rfl⟩ := Option.map_eq_some_iff.mp h
    rw [hm, Option.bind_some]
    dsimp only
    rw [hloop, Option.map_some]
    cases r with
    | exit v => rfl
    | done v =>
      dsimp only [finish]
      split_ifs <;> rfl

theorem entries_commands (childPids : List (Option ℤ)) (words : List Bytes) :
    (entries childPids words).map Entry.command = words := by
  refine List.ext_getElem (by simp [entries]) (fun i hi hi' => ?_)
  simp [entries]

theorem entries_pids {childPids : List (Option ℤ)} (h : ∀ x ∈ childPids, x = none ∨ x = some 0)
    (words : List Bytes) : ∀ e ∈ entries childPids words, ∀ pid, e.pid = some pid → pid = 0 := by
  intro e he pid hpid
  rw [entries, List.mem_mapIdx] at he
  obtain ⟨i, hi, rfl⟩ := he
  change pidAt childPids i = some pid at hpid
  rw [pidAt, List.getD_eq_getElem?_getD] at hpid
  cases hget : childPids[i]? with
  | none =>
    rw [hget] at hpid
    cases hpid
  | some x =>
    rw [hget, Option.getD_some] at hpid
    rcases h x (List.mem_of_getElem? hget) with rfl | rfl
    · cases hpid
    · exact (Option.some.inj hpid).symm

/-- Whatever was typed and run, the log is about the line of the exit command
alone: its words behind the last bar, none of them with the number of a process.
By then every child has been waited for, so that the loop of `waitpid` finds none. -/
theorem log_names (env : Env) (inherited : Table File) (lines : List Line) :
    ∃ s, run (turn env) (lines.map entered) (start inherited) = some s ∧
      run (ShellProcess.turn env) (lines.map entered) (ShellProcess.start inherited) =
        some s.shell ∧
      ∀ log, s.log = some log →
        (∃ before l after, lines = before ++ l::after ∧ (∀ x ∈ before, ¬ Quits x.bytes) ∧
          Quits l.bytes ∧ log.map Entry.command = lastWords l.bytes) ∧
        (∀ e ∈ log, ∀ pid, e.pid = some pid → pid = 0) ∧ Reaped env s.shell.vars := by
  obtain ⟨s, hs, hlogged⟩ := session_logged env lines (start inherited) rfl rfl
    (fun k hk => absurd hk (Nat.not_lt_zero k)) rfl
  refine ⟨s, hs, run_view (turn env) (ShellProcess.turn env) State.shell (turn_shell env) _ _ _ hs,
    fun log h => ?_⟩
  obtain ⟨⟨before, l, after, hlines, hbefore, hq, rfl⟩, hreaped⟩ := hlogged log h
  refine ⟨⟨before, l, after, hlines, hbefore, hq, entries_commands _ _⟩, entries_pids ?_ _, hreaped⟩
  intro x hx
  split_ifs at hx
  · exact .inl (List.eq_of_mem_replicate hx)
  · exact .inr (List.eq_of_mem_replicate hx)

/-- `ls` and then `:q | x`. -/
example : ((run (turn steady) ([⟨ascii "ls", by decide, by decide, by decide⟩,
    ⟨ascii ":q | x", by decide, by decide, by decide⟩].map entered) (start [])).bind State.log) =
      some [⟨some 0, ascii "x"⟩] := by
  decide

end Session

end CSE344.ShellLog
