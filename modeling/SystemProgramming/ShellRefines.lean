import Mathlib.Data.List.Forall2
import SystemProgramming.ShellLines

/-!
# Two models of the HW2 shell

`Shell` records the commands by the names of their files and has the limit of
`child_pids` and the standard input; `ShellLines` keeps the variables that
outlive a line, and the descriptors. Whatever the first does the second does
too, turn by turn, on the bytes that `fgets` read.
-/

set_option autoImplicit false

namespace CSE344.ShellRefines
open BufferedInput CString Words Shell ShellLines

/-- A descriptor is the one that `open` returned for a redirection, or the default. -/
def Gets (env : ShellLines.Env) (opened : List (Mode × Option Bytes)) (mode : Mode) (default : ℤ) :
    Redirect → ℤ → Prop
  | none, fd => fd = default
  | some path, fd => ∃ k, opened[k]? = some (mode, path) ∧ fd = env.openFile k

theorem Gets.later {env : ShellLines.Env} {opened : List (Mode × Option Bytes)} {mode : Mode}
    {default fd : ℤ}
    {r : Redirect} (h : Gets env opened mode default r fd) (more : List (Mode × Option Bytes)) :
    Gets env (opened++more) mode default r fd := by
  cases r with
  | none => exact h
  | some path =>
    obtain ⟨k, hk, hfd⟩ := h
    exact ⟨k, by rw [List.getElem?_append_left (List.getElem?_eq_some_iff.mp hk).1, hk], hfd⟩

theorem gets_last (env : ShellLines.Env) (opened : List (Mode × Option Bytes)) (mode : Mode)
    (default : ℤ)
    (path : Option Bytes) :
    Gets env (opened ++ [(mode, path)]) mode default (some path) (env.openFile opened.length) :=
  ⟨opened.length, List.getElem?_concat_length, rfl⟩

structure Matches (env : ShellLines.Env) (opened : List (Mode × Option Bytes)) (c : Command)
    (call : Call) :
    Prop where
  argv : call.argv = c.argv
  input : Gets env opened .read stdinFileno c.input call.inputFd
  output : Gets env opened .write stdoutFileno c.output call.outputFd

/-- The commands so far, and the one that was begun. -/
structure Agrees (env : ShellLines.Env) (job : Job) (executed : List Command) (v : Vars) :
    Prop where
  count : v.numCommands = job.tokens.length
  tokens : ∀ i q, job.tokens[i]? = some q → v.commandTokens i = some q
  input : Gets env v.opened .read stdinFileno job.input v.inputFd
  output : Gets env v.opened .write stdoutFileno job.output v.outputFd
  calls : List.Forall₂ (Matches env v.opened) executed v.calls

variable {env : ShellLines.Env}

theorem matches_later {opened : List (Mode × Option Bytes)} {executed : List Command}
    {calls : List Call} (h : List.Forall₂ (Matches env opened) executed calls)
    (more : List (Mode × Option Bytes)) :
    List.Forall₂ (Matches env (opened++more)) executed calls :=
  h.imp (fun _ _ hm => ⟨hm.argv, hm.input.later more, hm.output.later more⟩)

theorem Agrees.openOutput {job : Job} {executed : List Command} {v : Vars}
    (h : Agrees env job executed v) (path : Option Bytes) :
    Agrees env { job with output := some path } executed (v.openOutput env path) where
  count := h.count
  tokens := h.tokens
  input := h.input.later _
  output := gets_last env v.opened .write stdoutFileno path
  calls := matches_later h.calls _

theorem Agrees.openInput {job : Job} {executed : List Command} {v : Vars}
    (h : Agrees env job executed v) (path : Option Bytes) :
    Agrees env { job with input := some path } executed (v.openInput env path) where
  count := h.count
  tokens := h.tokens
  input := gets_last env v.opened .read stdinFileno path
  output := h.output.later _
  calls := matches_later h.calls _

theorem Agrees.word {job : Job} {executed : List Command} {v : Vars}
    (h : Agrees env job executed v) (p : ℕ) :
    Agrees env { job with tokens := job.tokens ++ [p] } executed { v with
      commandTokens := Function.update v.commandTokens v.numCommands (some p)
      numCommands := v.numCommands+1 } where
  count := by simp [h.count]
  tokens i q hq := by
    rcases lt_or_ge i job.tokens.length with hi | hi
    · rw [List.getElem?_append_left hi] at hq
      rw [← h.tokens i q hq]
      exact Function.update_of_ne (by rw [h.count]; omega) _ _
    · have hlt := (List.getElem?_eq_some_iff.mp hq).1
      rw [List.length_append, List.length_singleton] at hlt
      obtain rfl : i = job.tokens.length := by omega
      rw [List.getElem?_concat_length] at hq
      cases hq
      rw [← h.count]
      exact Function.update_self _ _ _
  input := h.input
  output := h.output
  calls := h.calls

/-- What a finished piece of the turn leaves, in the two models. -/
def Leaves (env : ShellLines.Env) (m : Bytes) (job : Job) (r : Run) (result : Result) : Prop :=
  ∃ v, if r.exited then result = .exit v ∧ ∃ job, Agrees env job r.executed v
    else result = .done m v ∧ Agrees env job r.executed v

variable {sh : Shell.Env}

theorem runCommand_agrees (hreturns : ∀ k, env.returns k = (sh.outcome k).returns) {m : Bytes}
    {job : Job} {r r' : Run} {v : Vars} (h : Agrees env job r.executed v)
    (hroom : job.tokens.length < maxCommands)
    (hexec : executeCommand sh (job.command m) r = some r') :
    Leaves env m noJob r' (runCommand env m v) := by
  obtain ⟨-, hmore, -, hexited⟩ := ShellRun.executeCommand_some hexec
  have hargv : argv m (Function.update v.commandTokens v.numCommands none) maxCommands 0 =
      some (job.command m).argv := by
    have hlen : (job.command m).argv.length = job.tokens.length := List.length_map _
    apply argv_from m _ _ 0 maxCommands (by rw [hlen]; exact hroom)
    · intro j a ha
      rw [Job.command, List.getElem?_map, Option.map_eq_some_iff] at ha
      obtain ⟨q, hq, rfl⟩ := ha
      have hj := (List.getElem?_eq_some_iff.mp hq).1
      refine ⟨q, ?_, rfl⟩
      rw [Nat.zero_add, Function.update_of_ne (by rw [h.count]; omega), h.tokens j q hq]
    · rw [Nat.zero_add, hlen, ← h.count, Function.update_self]
  have hcalls : List.Forall₂ (Matches env v.opened) r'.executed
      (v.calls ++ [⟨(job.command m).argv, v.inputFd, v.outputFd⟩]) := by
    rw [hmore]
    exact List.rel_append h.calls (.cons ⟨rfl, h.input, h.output⟩ .nil)
  have hcount : v.calls.length = r.executed.length := h.calls.length_eq.symm
  rw [Leaves, hexited, runCommand, Vars.store, if_pos (by rw [h.count]; exact hroom)]
  dsimp only
  rw [hargv]
  dsimp only
  rw [hreturns, hcount]
  cases (sh.outcome r.executed.length).returns with
  | true => exact ⟨_, rfl, rfl, fun i q hq => by simp [noJob] at hq, rfl, rfl, hcalls⟩
  | false =>
    refine ⟨_, rfl, job, h.count, fun i q hq => ?_, h.input, h.output, hcalls⟩
    have hi := (List.getElem?_eq_some_iff.mp hq).1
    rw [← h.tokens i q hq]
    exact Function.update_of_ne (by rw [h.count]; omega) _ _

theorem tokenLoop_agrees (hreturns : ∀ k, env.returns k = (sh.outcome k).returns) (n : ℕ)
    (t : Strtok) (job : Job) (r : Run) (v : Vars) (hr : r.exited = false)
    (h : Agrees env job r.executed v) (m : Bytes) (job' : Job) (r' : Run)
    (hrun : Shell.tokenLoop sh n t job r = some (m, job', r')) :
    Leaves env m job' r' (ShellLines.tokenLoop env n t v) := by
  induction n generalizing t job r v with
  | zero => cases hrun
  | succ n ih =>
    unfold Shell.tokenLoop at hrun
    unfold ShellLines.tokenLoop
    cases hst : t.start with
    | none =>
      rw [hst] at hrun
      cases hrun
      exact ⟨v, by rw [hr]; exact ⟨rfl, h⟩⟩
    | some p =>
      rw [hst] at hrun
      dsimp only at hrun ⊢
      split_ifs at hrun ⊢ with hgt hlt hbar hroom hroom
      · exact ih _ _ _ _ hr (h.openOutput _) hrun
      · exact ih _ _ _ _ hr (h.openInput _) hrun
      · obtain ⟨u, hexec, hrun⟩ := Option.bind_eq_some_iff.mp hrun
        obtain ⟨w, hw⟩ := runCommand_agrees hreturns h hroom hexec
        split_ifs at hrun hw with hexited
        · cases hrun
          exact ⟨w, by rw [hw.1, if_pos hexited]; exact ⟨rfl, hw.2⟩⟩
        · rw [hw.1]
          exact ih _ _ _ _ (by simpa using hexited) hw.2 hrun
      · rw [Vars.store, if_pos (by rw [h.count]; exact hroom)]
        exact ih _ _ _ _ hr (h.word p) hrun

/-- Between two turns. -/
structure Same (env : ShellLines.Env) (s : Shell.State) (t : ShellLines.State) : Prop where
  exited : t.exited = s.exited
  agrees : ∃ job, Agrees env job s.executed t.vars ∧
    (s.exited = false → job = noJob ∧ t.input = s.input)

theorem same_start (env : ShellLines.Env) (tokens : ℕ → Option ℕ) :
    Same env Shell.start (ShellLines.start tokens) where
  exited := rfl
  agrees := ⟨noJob, ⟨rfl, fun i q hq => by simp [noJob] at hq, rfl, rfl, .nil⟩,
    fun _ => ⟨rfl, rfl⟩⟩

/-- The bytes that `fgets` read, none at end of file. -/
def delivered (read : Bytes) : Option Bytes := if read = [] then none else some read

theorem fgets_same {read : Bytes} (hread : read.length ≤ maxCommandLength-1)
    (input : Option Bytes) :
    ShellLines.fgets (delivered read) input = Shell.fgets read input := by
  rw [delivered, Shell.fgets]
  split_ifs with hnone
  · rfl
  · rw [ShellLines.fgets, if_pos ⟨hnone, Nat.lt_of_le_of_lt hread (by decide)⟩]

theorem turn_same (hreturns : ∀ k, env.returns k = (sh.outcome k).returns) (text : Bytes)
    (s : Shell.State) (t : ShellLines.State) (h : Same env s t) (hs : s.exited = false)
    (s' : Shell.State) (hturn : Shell.turn sh text s = some s') :
    ∃ read t', ShellLines.turn env read t = some t' ∧ Same env s' t' := by
  obtain ⟨job, hagrees, hrunning⟩ := h.agrees
  obtain ⟨rfl, hinput⟩ := hrunning hs
  have hlen := getLine_length sh.size text 10
    (maxCommandLength-1) s.stdin
  rw [Shell.turn, if_neg (by simp [hs])] at hturn
  cases hread : getLine sh.size text 10 (maxCommandLength-1) s.stdin with | mk read stdin =>
  rw [hread] at hturn hlen
  obtain ⟨m, hm, hturn⟩ := Option.bind_eq_some_iff.mp hturn
  obtain ⟨⟨m', job', r⟩, hloop, hfinish⟩ := Option.bind_eq_some_iff.mp hturn
  refine ⟨delivered read, ?_⟩
  obtain ⟨u, hu⟩ := tokenLoop_agrees hreturns _ _ _ (ShellRun.ready s stdin) t.vars hs hagrees
    _ _ _ hloop
  rw [ShellLines.turn, if_neg (by simp [h.exited, hs]), hinput, fgets_same hlen, hm,
    Option.bind_some]
  dsimp only at hfinish ⊢
  unfold Shell.finish at hfinish
  split_ifs at hfinish hu with hexited hexit hroom
  · cases hfinish
    obtain ⟨hu, job, hlast⟩ := hu
    rw [hu]
    exact ⟨_, rfl, hexited.symm, job, hlast, fun hgo => by simp [hexited] at hgo⟩
  · cases hfinish
    rw [hu.1]
    dsimp only
    rw [ShellLines.finish, if_pos hexit]
    exact ⟨_, rfl, rfl, job', hu.2, fun hgo => by cases hgo⟩
  · obtain ⟨r', hexec, rfl⟩ := Option.map_eq_some_iff.mp hfinish
    obtain ⟨w, hw⟩ := runCommand_agrees hreturns hu.2 hroom hexec
    rw [hu.1]
    dsimp only
    rw [ShellLines.finish, if_neg hexit]
    split_ifs at hw with hover
    · obtain ⟨hw, job, hlast⟩ := hw
      rw [hw]
      exact ⟨_, rfl, hover.symm, job, hlast, fun hgo => by simp [hover] at hgo⟩
    · rw [hw.1]
      exact ⟨_, rfl, (by simpa using hover : r'.exited = false).symm, noJob, hw.2,
        fun _ => ⟨rfl, rfl⟩⟩

/-- Every run of the first model is one of the second; after the exit there are
no more turns. -/
theorem turns_same (hreturns : ∀ k, env.returns k = (sh.outcome k).returns) (text : Bytes) (n : ℕ)
    (s : Shell.State) (t : ShellLines.State) (h : Same env s t) (s' : Shell.State)
    (hturns : turns sh text n s = some s') :
    ∃ reads t', TransitionRun.run (ShellLines.turn env) reads t = some t' ∧ Same env s' t' := by
  induction n generalizing s t with
  | zero =>
    cases hturns
    exact ⟨[], t, rfl, h⟩
  | succ n ih =>
    obtain ⟨u, hu, hrest⟩ := Option.bind_eq_some_iff.mp hturns
    cases hs : s.exited with
    | true =>
      rw [Shell.turn, if_pos hs] at hu
      cases hu
      exact ih s t h hrest
    | false =>
      obtain ⟨read, v, hv, hsame⟩ := turn_same hreturns text s t h hs u hu
      obtain ⟨reads, t', hrun, hlast⟩ := ih u v hsame hrest
      exact ⟨read::reads, t', (TransitionRun.run_cons_iff _ _ _ _ _).mpr ⟨v, hv, hrun⟩, hlast⟩

end CSE344.ShellRefines
