import SystemProgramming.ShellRun
import SystemProgramming.TransitionRun

/-!
# How the HW2 shell reads a line

The variables of `main` that outlive a line: the token array, its counter and
the two descriptors. The store into `child_pids` is left out, with the
limit that it sets on the number of commands; what `open` returns, and whether
the `fork` and the `waitpid` of `execute_command` succeed, is the
environment's. The same line is then read as a list of words, segment by
segment, and the two readings agree.
-/

set_option autoImplicit false

namespace CSE344.ShellLines
open CString Words Shell TransitionRun

/-- What the n-th call of `open` returns, and whether the n-th call of
`execute_command` returns: `exit(1)` follows a failed `fork` or `waitpid`. -/
structure Env where
  openFile : ℕ → ℤ
  returns : ℕ → Bool

inductive Mode where
  | read
  | write
  deriving DecidableEq, Repr

structure Call where
  argv : List Bytes
  inputFd : ℤ
  outputFd : ℤ
  deriving DecidableEq, Repr

/-- `opened` and `calls` are histories: the arguments of `open` and of
`execute_command`. -/
structure Vars where
  commandTokens : ℕ → Option ℕ
  numCommands : ℕ
  inputFd : ℤ
  outputFd : ℤ
  opened : List (Mode × Option Bytes)
  calls : List Call

def stdinFileno : ℤ := 0

def stdoutFileno : ℤ := 1

/-- The token array is not initialised. -/
def initVars (commandTokens : ℕ → Option ℕ) : Vars :=
  ⟨commandTokens, 0, stdinFileno, stdoutFileno, [], []⟩

structure State where
  input : Option Bytes
  vars : Vars
  exited : Bool

def start (commandTokens : ℕ → Option ℕ) : State := ⟨none, initVars commandTokens, false⟩

inductive Result where
  | undefined
  | exit (v : Vars)
  | done (m : Bytes) (v : Vars)

/-- `command_tokens[i] = p`, undefined past the array. -/
def Vars.store (v : Vars) (i : ℕ) (p : Option ℕ) : Option Vars :=
  if i < maxCommands then some { v with commandTokens := Function.update v.commandTokens i p }
  else none

def Vars.openInput (env : Env) (path : Option Bytes) (v : Vars) : Vars :=
  { v with inputFd := env.openFile v.opened.length, opened := v.opened ++ [(.read, path)] }

def Vars.openOutput (env : Env) (path : Option Bytes) (v : Vars) : Vars :=
  { v with outputFd := env.openFile v.opened.length, opened := v.opened ++ [(.write, path)] }

/-- The strings of a token array from entry `i` up to its NULL, if that comes
among the next `n` entries. -/
def argv (m : Bytes) (commandTokens : ℕ → Option ℕ) : ℕ → ℕ → Option (List Bytes)
  | 0, _ => none
  | n+1, i => match commandTokens i with
    | none => some []
    | some p => (argv m commandTokens n (i+1)).map (fun rest => cstrAt m p :: rest)

/-- The NULL behind the tokens, the call of `execute_command` with them, and
the three assignments after it. -/
def runCommand (env : Env) (m : Bytes) (v : Vars) : Result :=
  match v.store v.numCommands none with
  | none => .undefined
  | some v => match argv m v.commandTokens maxCommands 0 with
    | none => .undefined
    | some args =>
      let called := { v with calls := v.calls ++ [⟨args, v.inputFd, v.outputFd⟩] }
      if env.returns v.calls.length then
        .done m { called with inputFd := stdinFileno, outputFd := stdoutFileno, numCommands := 0 }
      else .exit called

/-- The loop over the tokens of a line, at most `n` turns of it. -/
def tokenLoop (env : Env) : ℕ → Strtok → Vars → Result
  | 0, _, _ => .undefined
  | n+1, t, v => match t.start with
    | none => .done t.mem v
    | some p =>
      let token := cstrAt t.mem p
      if token = ascii ">" then
        let file := next t
        tokenLoop env n (next file) (v.openOutput env (file.start.map (cstrAt file.mem)))
      else if token = ascii "<" then
        let file := next t
        tokenLoop env n (next file) (v.openInput env (file.start.map (cstrAt file.mem)))
      else if token = ascii "|" then
        match runCommand env t.mem v with
        | .done _ v => tokenLoop env n (next t) v
        | r => r
      else match v.store v.numCommands (some p) with
        | none => .undefined
        | some v => tokenLoop env n (next t) { v with numCommands := v.numCommands+1 }

/-- `fgets(input, MAX_COMMAND_LENGTH, stdin)`: the bytes it reads, or nothing
at end of file. -/
def fgets (read input : Option Bytes) : Option Bytes :=
  match read with
  | none => input
  | some b =>
    if b ≠ [] ∧ b.length < maxCommandLength then
      some (b ++ [0] ++ (input.getD []).drop (b.length+1))
    else none

/-- What follows the token loop: the exit test, then the last command. -/
def finish (env : Env) (m : Bytes) (v : Vars) : Result :=
  if cstr m = exitCommand then .exit v else runCommand env m v

/-- One turn of the loop of `main`. -/
def turn (env : Env) (read : Option Bytes) (s : State) : Option State :=
  if s.exited then none
  else (fgets read s.input).bind (fun m =>
    let m := chomp m
    match tokenLoop env (m.length+1) (strtok space m 0) s.vars with
    | .undefined => none
    | .exit v => some ⟨some m, v, true⟩
    | .done m v => match finish env m v with
      | .undefined => none
      | .exit v => some ⟨some m, v, true⟩
      | .done m v => some ⟨some m, v, false⟩)

section Reference

/-- A redirection operator. -/
def isRedirect (w : Bytes) : Bool := w = ascii "<" ∨ w = ascii ">"

def bar : Bytes := ascii "|"

def segments (ws : List Bytes) : List (List Bytes) := ws.splitOn bar

/-- The words that are neither operators nor come right after one, behind the
word `prev`. -/
def argumentsAfter (prev : Option Bytes) (seg : List Bytes) : List Bytes :=
  ((seg.zip (prev :: seg.map some)).filter (fun p =>
    !isRedirect p.1 && !p.2.any isRedirect)).map Prod.fst

def arguments (seg : List Bytes) : List Bytes := argumentsAfter none seg

/-- The operators of a segment in order. -/
def redirects (seg : List Bytes) : List Bytes := seg.filter isRedirect

/-- The descriptor that the last `op` of a segment got, when `k` files had
been opened before the segment. -/
def lastOpened (env : Env) (op : Bytes) (k : ℕ) (seg : List Bytes) : Option ℤ :=
  ((((redirects seg).zipIdx k).filter (fun p => p.1 = op)).getLast?).map
    (fun p => env.openFile p.2)

def segmentCall (env : Env) (k : ℕ) (seg : List Bytes) : Call where
  argv := arguments seg
  inputFd := (lastOpened env (ascii "<") k seg).getD stdinFileno
  outputFd := (lastOpened env (ascii ">") k seg).getD stdoutFileno

/-- One call for each segment. -/
def segmentCalls (env : Env) : ℕ → List (List Bytes) → List Call
  | _, [] => []
  | k, seg::segs => segmentCall env k seg :: segmentCalls env (k+(redirects seg).length) segs

def modeOf (op : Bytes) : Mode := if op = ascii "<" then .read else .write

/-- The arguments of `open`: each operator's mode with the word behind it. -/
def openings (ws : List Bytes) : List (Mode × Option Bytes) :=
  ((ws.zip ws.tail).filter (fun p => isRedirect p.1)).map (fun p => (modeOf p.1, some p.2))

/-- Every operator has its file name behind it. -/
def Targeted : List Bytes → Prop
  | [] => True
  | w::ws => (isRedirect w = true → ∃ f ∈ ws.head?, isRedirect f = false ∧ f ≠ bar) ∧ Targeted ws

instance Targeted.decidable : ∀ ws, Decidable (Targeted ws)
  | [] => isTrue trivial
  | w::ws =>
    have := Targeted.decidable ws
    decidable_of_iff ((isRedirect w = true → ∃ f ∈ ws.head?, isRedirect f = false ∧ f ≠ bar) ∧
      Targeted ws) Iff.rfl

/-- The calls up to the first that does not return, when `k` came before. -/
def reached (returns : ℕ → Bool) : ℕ → List Call → List Call
  | _, [] => []
  | k, c::cs => c :: if returns k then reached returns (k+1) cs else []

def AllReturn (returns : ℕ → Bool) (k : ℕ) (cs : List Call) : Prop :=
  ∀ j < cs.length, returns (k+j) = true

end Reference

section Segments

variable {env : Env}

theorem segments_cons (w : Bytes) (ws : List Bytes) :
    segments (w::ws) = if w = bar then [] :: segments ws
      else (segments ws).modifyHead (List.cons w) := by
  rw [segments, List.splitOn_eq_splitOnP, List.splitOnP_cons_eq_if_modifyHead, segments,
    List.splitOn_eq_splitOnP]
  simp

theorem segments_ne_nil (ws : List Bytes) : segments ws ≠ [] := by
  rw [segments, List.splitOn_eq_splitOnP]
  exact List.splitOnP_ne_nil _ _

theorem argumentsAfter_plain (prev : Option Bytes) (h : prev.any isRedirect = false)
    (seg : List Bytes) : argumentsAfter prev seg = arguments seg := by
  cases seg with
  | nil => rfl
  | cons w seg =>
    simp only [arguments, argumentsAfter, List.zip_cons_cons, List.map_cons, List.filter_cons, h,
      Option.any_none]
    split_ifs <;> rfl

theorem arguments_word {w : Bytes} (hw : isRedirect w = false) (seg : List Bytes) :
    arguments (w::seg) = w :: arguments seg := by
  rw [← argumentsAfter_plain (some w) (by simpa using hw) seg]
  simp [arguments, argumentsAfter, hw]

theorem arguments_redirect {op f : Bytes} (hop : isRedirect op = true) (hf : isRedirect f = false)
    (seg : List Bytes) : arguments (op::f::seg) = arguments seg := by
  rw [← argumentsAfter_plain (some f) (by simpa using hf) seg]
  simp [arguments, argumentsAfter, hop]

theorem redirects_word {w : Bytes} (hw : isRedirect w = false) (seg : List Bytes) :
    redirects (w::seg) = redirects seg := by simp [redirects, hw]

theorem redirects_redirect {op f : Bytes} (hop : isRedirect op = true)
    (hf : isRedirect f = false) (seg : List Bytes) :
    redirects (op::f::seg) = op :: redirects seg := by simp [redirects, hop, hf]

theorem lastOpened_same {op f : Bytes} (hop : isRedirect op = true) (hf : isRedirect f = false)
    (k : ℕ) (seg : List Bytes) (d : ℤ) :
    (lastOpened env op k (op::f::seg)).getD d =
      (lastOpened env op (k+1) seg).getD (env.openFile k) := by
  rw [lastOpened, redirects_redirect hop hf, List.zipIdx_cons]
  simp only [decide_true, List.filter_cons_of_pos, List.getLast?_cons, lastOpened,
    Option.map_some, Option.getD_some]
  cases ((((redirects seg).zipIdx (k+1)).filter (fun p => p.1 = op)).getLast?) <;> rfl

theorem lastOpened_other {op op' f : Bytes} (hop : isRedirect op = true)
    (hf : isRedirect f = false) (hne : op ≠ op') (k : ℕ) (seg : List Bytes) :
    lastOpened env op' k (op::f::seg) = lastOpened env op' (k+1) seg := by
  rw [lastOpened, redirects_redirect hop hf, List.zipIdx_cons]
  simp [hne, lastOpened]

theorem lastOpened_word {w : Bytes} (hw : isRedirect w = false) (op : Bytes) (k : ℕ)
    (seg : List Bytes) : lastOpened env op k (w::seg) = lastOpened env op k seg := by
  rw [lastOpened, redirects_word hw, lastOpened]

theorem openings_word {w : Bytes} (hw : isRedirect w = false) (ws : List Bytes) :
    openings (w::ws) = openings ws := by
  cases ws <;> simp [openings, hw]

theorem openings_redirect {op f : Bytes} (hop : isRedirect op = true)
    (hf : isRedirect f = false) (ws : List Bytes) :
    openings (op::f::ws) = (modeOf op, some f) :: openings ws := by
  rw [← openings_word hf ws]
  simp [openings, hop]

/-- The call of a segment of which some words have been read. -/
def callFrom (env : Env) (begun : Call) (k : ℕ) (seg : List Bytes) : Call where
  argv := begun.argv ++ arguments seg
  inputFd := (lastOpened env (ascii "<") k seg).getD begun.inputFd
  outputFd := (lastOpened env (ascii ">") k seg).getD begun.outputFd

def callsFrom (env : Env) (begun : Call) (k : ℕ) : List (List Bytes) → List Call
  | [] => []
  | seg::segs => callFrom env begun k seg :: segmentCalls env (k+(redirects seg).length) segs

def fresh : Call := ⟨[], stdinFileno, stdoutFileno⟩

theorem callsFrom_fresh (k : ℕ) (segs : List (List Bytes)) :
    callsFrom env fresh k segs = segmentCalls env k segs := by
  cases segs <;> rfl

theorem segmentCalls_argv {k n : ℕ} {segs : List (List Bytes)}
    (h : ∀ seg ∈ segs, (arguments seg).length ≤ n) (c : Call) (hc : c ∈ segmentCalls env k segs) :
    c.argv.length ≤ n := by
  induction segs generalizing k with
  | nil => cases hc
  | cons seg segs ih =>
    rcases List.mem_cons.mp hc with rfl | hc
    · exact h seg List.mem_cons_self
    · exact ih (fun seg hseg => h seg (List.mem_cons_of_mem _ hseg)) hc

theorem callsFrom_bar (begun : Call) (k : ℕ) (ws : List Bytes) :
    callsFrom env begun k (segments (bar::ws)) =
      begun :: segmentCalls env k (segments ws) := by
  rw [segments_cons, if_pos rfl, callsFrom]
  simp [callFrom, arguments, argumentsAfter, lastOpened, redirects]

theorem callsFrom_word {w : Bytes} (hw : isRedirect w = false) (hbar : w ≠ bar) (begun : Call)
    (k : ℕ) (ws : List Bytes) :
    callsFrom env begun k (segments (w::ws)) =
      callsFrom env { begun with argv := begun.argv ++ [w] } k (segments ws) := by
  obtain ⟨seg, segs, hs⟩ := List.exists_cons_of_ne_nil (segments_ne_nil ws)
  rw [segments_cons, if_neg hbar, hs, List.modifyHead_cons, callsFrom, callsFrom,
    redirects_word hw, callFrom, callFrom, arguments_word hw, lastOpened_word hw,
    lastOpened_word hw, List.append_assoc, List.singleton_append]

theorem begun_length {begun : Call} {k n : ℕ} {ws : List Bytes}
    (h : ∀ c ∈ callsFrom env begun k (segments ws), c.argv.length < n) : begun.argv.length < n := by
  obtain ⟨seg, segs, hs⟩ := List.exists_cons_of_ne_nil (segments_ne_nil ws)
  rw [hs, callsFrom] at h
  have hlong := h _ List.mem_cons_self
  rw [callFrom, List.length_append] at hlong
  omega

theorem redirect_cases {op : Bytes} (h : isRedirect op = true) :
    op = ascii "<" ∨ op = ascii ">" := by simpa [isRedirect] using h

/-- The descriptor that an operator sets. -/
def Call.redirect (op : Bytes) (fd : ℤ) (c : Call) : Call :=
  if op = ascii ">" then { c with outputFd := fd } else { c with inputFd := fd }

theorem callFrom_redirect {op f : Bytes} (hop : isRedirect op = true) (hf : isRedirect f = false)
    (begun : Call) (k : ℕ) (seg : List Bytes) : callFrom env begun k (op::f::seg) =
      callFrom env (begun.redirect op (env.openFile k)) (k+1) seg := by
  rw [callFrom, callFrom, arguments_redirect hop hf, Call.redirect]
  rcases redirect_cases hop with rfl | rfl
  · rw [lastOpened_same hop hf, lastOpened_other hop hf (by decide), if_neg (by decide)]
  · rw [lastOpened_same hop hf, lastOpened_other hop hf (by decide), if_pos rfl]

theorem callsFrom_redirect {op f : Bytes} (hop : isRedirect op = true) (hf : isRedirect f = false)
    (hbar : f ≠ bar) (begun : Call) (k : ℕ) (ws : List Bytes) :
    callsFrom env begun k (segments (op::f::ws)) =
      callsFrom env (begun.redirect op (env.openFile k)) (k+1) (segments ws) := by
  obtain ⟨seg, segs, hs⟩ := List.exists_cons_of_ne_nil (segments_ne_nil ws)
  have hne : op ≠ bar := by
    rintro rfl
    exact absurd hop (by decide)
  rw [segments_cons, if_neg hne, segments_cons, if_neg hbar, hs, List.modifyHead_cons,
    List.modifyHead_cons, callsFrom, callsFrom, redirects_redirect hop hf,
    callFrom_redirect hop hf, List.length_cons, Nat.add_assoc, Nat.add_comm 1]

end Segments

section Loop

variable {env : Env}

/-- The words read so far stand in the token array, and end before `p`. -/
structure Holds (m : Bytes) (p : ℕ) (v : Vars) (args : List Bytes) : Prop where
  count : v.numCommands = args.length
  tokens : ∀ i a, args[i]? = some a →
    ∃ q, v.commandTokens i = some q ∧ Behind m p q ∧ cstrAt m q = a

theorem Holds.strtok {m : Bytes} {p : ℕ} {v : Vars} {args : List Bytes} (h : Holds m p v args) :
    Holds (strtok space m p).mem (strtok space m p).save v args := by
  refine ⟨h.count, fun i a ha => ?_⟩
  obtain ⟨q, hq, hb, hs⟩ := h.tokens i a ha
  exact ⟨q, hq, hb.strtok.2, hb.strtok.1.trans hs⟩

theorem Holds.congr {m : Bytes} {p : ℕ} {v u : Vars} {args : List Bytes} (h : Holds m p v args)
    (ht : u.commandTokens = v.commandTokens) (hn : u.numCommands = v.numCommands) :
    Holds m p u args :=
  ⟨hn.trans h.count, fun i a ha => ht ▸ h.tokens i a ha⟩

theorem argv_from (m : Bytes) (tokens : ℕ → Option ℕ) (args : List Bytes) (i n : ℕ)
    (hn : args.length < n)
    (htokens : ∀ j a, args[j]? = some a → ∃ q, tokens (i+j) = some q ∧ cstrAt m q = a)
    (hnull : tokens (i+args.length) = none) : argv m tokens n i = some args := by
  induction args generalizing i n with
  | nil =>
    cases n with
    | zero => simp at hn
    | succ n =>
      rw [List.length_nil, Nat.add_zero] at hnull
      rw [argv, hnull]
  | cons a args ih =>
    cases n with
    | zero => simp at hn
    | succ n =>
      obtain ⟨q, hq, hs⟩ := htokens 0 a rfl
      rw [Nat.add_zero] at hq
      rw [List.length_cons] at hn
      have hrest := ih (i+1) n (by omega) (fun j b hb => ?_) ?_
      · rw [argv, hq]
        simp only [hrest, Option.map_some, hs]
      · obtain ⟨r, hr, hrs⟩ := htokens (j+1) b hb
        exact ⟨r, by rw [← hr]; congr 1; omega, hrs⟩
      · rw [← hnull, List.length_cons]
        congr 1
        omega

structure AtPrompt (v : Vars) : Prop where
  numCommands : v.numCommands = 0
  inputFd : v.inputFd = stdinFileno
  outputFd : v.outputFd = stdoutFileno

/-- The calls `cs` were made, up to the first that does not return; when all
do, the files `os` were opened too, and the variables are reset. -/
def Made (env : Env) (v : Vars) (cs : List Call) (os : List (Mode × Option Bytes)) :
    Result → Prop
  | .undefined => False
  | .exit u => u.calls = v.calls ++ reached env.returns v.calls.length cs ∧
      ¬ AllReturn env.returns v.calls.length cs
  | .done _ u => u.calls = v.calls ++ cs ∧ u.opened = v.opened ++ os ∧
      AllReturn env.returns v.calls.length cs ∧ AtPrompt u

theorem reached_all {returns : ℕ → Bool} {k : ℕ} {cs : List Call} (h : AllReturn returns k cs) :
    reached returns k cs = cs := by
  induction cs generalizing k with
  | nil => rfl
  | cons c cs ih =>
    have h0 := h 0 (by simp)
    rw [Nat.add_zero] at h0
    rw [reached, if_pos h0, ih (fun j hj => ?_)]
    have := h (j+1) (by simpa using hj)
    rwa [show k+1+j = k+(j+1) by omega]

theorem allReturn_cons {returns : ℕ → Bool} {k : ℕ} {c : Call} {cs : List Call} :
    AllReturn returns k (c::cs) ↔ returns k = true ∧ AllReturn returns (k+1) cs := by
  constructor
  · intro h
    refine ⟨by simpa using h 0 (by simp), fun j hj => ?_⟩
    have := h (j+1) (by simpa using hj)
    rwa [show k+1+j = k+(j+1) by omega]
  · rintro ⟨h0, h⟩ j hj
    cases j with
    | zero => simpa using h0
    | succ j =>
      have := h j (by simpa using hj)
      rwa [show k+(j+1) = k+1+j by omega]

theorem runCommand_made (env : Env) {m : Bytes} {p : ℕ} {v : Vars} {args : List Bytes}
    (h : Holds m p v args) (hfit : args.length < maxCommands) :
    Made env v [⟨args, v.inputFd, v.outputFd⟩] [] (runCommand env m v) := by
  have hstore : v.store v.numCommands none =
      some { v with commandTokens := Function.update v.commandTokens v.numCommands none } := by
    rw [Vars.store, if_pos (by rw [h.count]; exact hfit)]
  have hargv : argv m (Function.update v.commandTokens v.numCommands none) maxCommands 0 =
      some args := by
    apply argv_from m _ args 0 maxCommands hfit
    · intro j a ha
      obtain ⟨q, hq, -, hs⟩ := h.tokens j a ha
      have hj : j < args.length := (List.getElem?_eq_some_iff.mp ha).1
      refine ⟨q, ?_, hs⟩
      rw [Nat.zero_add, Function.update_of_ne (by rw [h.count]; omega), hq]
    · rw [Nat.zero_add, ← h.count, Function.update_self]
  unfold runCommand
  rw [hstore]
  dsimp only
  rw [hargv]
  dsimp only
  cases hr : env.returns v.calls.length with
  | true =>
    rw [if_pos rfl]
    exact ⟨rfl, (List.append_nil _).symm, allReturn_cons.mpr ⟨hr, fun j hj => by simp at hj⟩,
      rfl, rfl, rfl⟩
  | false =>
    rw [if_neg (by simp)]
    refine ⟨by simp [reached, hr], fun hall => ?_⟩
    rw [(allReturn_cons.mp hall).1] at hr
    cases hr

/-- The token loop and the command that is run after it. -/
def loopRun (env : Env) (n : ℕ) (t : Strtok) (v : Vars) : Result :=
  match tokenLoop env n t v with
  | .done m v => runCommand env m v
  | r => r

theorem Made.cons {v u : Vars} {c : Call} {cs : List Call} {os : List (Mode × Option Bytes)}
    {r : Result} (hcalls : u.calls = v.calls ++ [c]) (hopened : u.opened = v.opened)
    (hreturn : env.returns v.calls.length = true) (h : Made env u cs os r) :
    Made env v (c::cs) os r := by
  have hlen : u.calls.length = v.calls.length+1 := by rw [hcalls]; simp
  cases r with
  | undefined => exact h
  | exit w =>
    obtain ⟨hw, hnot⟩ := h
    rw [hlen] at hw hnot
    refine ⟨?_, fun hall => hnot (allReturn_cons.mp hall).2⟩
    rw [hw, hcalls, reached, if_pos hreturn, List.append_assoc, List.singleton_append]
  | done m w =>
    obtain ⟨hw, how, hall, hprompt⟩ := h
    rw [hlen] at hall
    refine ⟨?_, hopened ▸ how, allReturn_cons.mpr ⟨hreturn, hall⟩, hprompt⟩
    rw [hw, hcalls, List.append_assoc, List.singleton_append]

theorem Made.exited {v u : Vars} {c : Call} (h : Made env v [c] [] (.exit u)) (cs : List Call)
    (os : List (Mode × Option Bytes)) : Made env v (c::cs) os (.exit u) := by
  obtain ⟨hcalls, hnot⟩ := h
  have hstop : ¬ env.returns v.calls.length = true := fun hret =>
    hnot (allReturn_cons.mpr ⟨hret, fun j hj => by simp at hj⟩)
  refine ⟨?_, fun hall => hstop (allReturn_cons.mp hall).1⟩
  simp only [hcalls, reached, if_neg hstop]

theorem Made.open {v u : Vars} {o : Mode × Option Bytes} {cs : List Call}
    {os : List (Mode × Option Bytes)} {r : Result} (hcalls : u.calls = v.calls)
    (hopened : u.opened = v.opened ++ [o]) (h : Made env u cs os r) :
    Made env v cs (o::os) r := by
  cases r with
  | undefined => exact h
  | exit w =>
    simp only [Made, hcalls] at h ⊢
    exact h
  | done m w =>
    obtain ⟨hw, how, hall, hprompt⟩ := h
    rw [hcalls] at hw hall
    refine ⟨hw, ?_, hall, hprompt⟩
    rw [how, hopened, List.append_assoc, List.singleton_append]

/-- What an operator does with the name behind it. -/
def Vars.redirect (env : Env) (op : Bytes) (path : Option Bytes) (v : Vars) : Vars :=
  if op = ascii ">" then v.openOutput env path else v.openInput env path

theorem redirect_call (env : Env) (op : Bytes) (path : Option Bytes) (v : Vars)
    (args : List Bytes) :
    (⟨args, (v.redirect env op path).inputFd, (v.redirect env op path).outputFd⟩ : Call) =
      Call.redirect op (env.openFile v.opened.length) ⟨args, v.inputFd, v.outputFd⟩ := by
  unfold Vars.redirect Call.redirect
  split_ifs <;> rfl

theorem redirect_opened {op : Bytes} (hop : isRedirect op = true) (path : Option Bytes)
    (v : Vars) : (v.redirect env op path).opened = v.opened ++ [(modeOf op, path)] := by
  rcases redirect_cases hop with rfl | rfl
  · rw [Vars.redirect, if_neg (by decide), Vars.openInput, modeOf, if_pos rfl]
  · rw [Vars.redirect, if_pos rfl, Vars.openOutput, modeOf, if_neg (by decide)]

theorem redirect_frame (env : Env) (op : Bytes) (path : Option Bytes) (v : Vars) :
    (v.redirect env op path).commandTokens = v.commandTokens ∧
      (v.redirect env op path).numCommands = v.numCommands ∧
      (v.redirect env op path).calls = v.calls := by
  unfold Vars.redirect
  split_ifs <;> exact ⟨rfl, rfl, rfl⟩

section Tokens

variable {n : ℕ} {t : Strtok} {q : ℕ} (v : Vars) (hst : t.start = some q)
include hst

theorem loopRun_redirect (hop : isRedirect (cstrAt t.mem q) = true) : loopRun env (n+1) t v =
    loopRun env n (next (next t))
      (v.redirect env (cstrAt t.mem q) ((next t).start.map (cstrAt (next t).mem))) := by
  rw [loopRun, tokenLoop, hst]
  dsimp only
  rcases redirect_cases hop with hlt | hgt
  · rw [hlt, if_neg (by decide), if_pos rfl, loopRun, Vars.redirect, if_neg (by decide)]
  · rw [hgt, if_pos rfl, loopRun, Vars.redirect, if_pos rfl]

theorem loopRun_bar (hbar : cstrAt t.mem q = bar) : loopRun env (n+1) t v =
    match runCommand env t.mem v with
    | .done _ u => loopRun env n (next t) u
    | r => r := by
  rw [bar] at hbar
  rw [loopRun, tokenLoop, hst]
  dsimp only
  rw [if_neg (by rw [hbar]; decide), if_neg (by rw [hbar]; decide), if_pos hbar]
  cases runCommand env t.mem v <;> rfl

theorem loopRun_word (hplain : isRedirect (cstrAt t.mem q) = false)
    (hbar : cstrAt t.mem q ≠ bar) (hroom : v.numCommands < maxCommands) :
    loopRun env (n+1) t v = loopRun env n (next t) { v with
      commandTokens := Function.update v.commandTokens v.numCommands (some q)
      numCommands := v.numCommands+1 } := by
  obtain ⟨hlt, hgt⟩ : cstrAt t.mem q ≠ ascii "<" ∧ cstrAt t.mem q ≠ ascii ">" := by
    simpa [isRedirect] using hplain
  rw [bar] at hbar
  rw [loopRun, tokenLoop, hst]
  dsimp only
  rw [if_neg hgt, if_neg hlt, if_neg hbar, Vars.store, if_pos hroom, loopRun]

end Tokens

theorem Holds.word {m : Bytes} {p q : ℕ} {v : Vars} {args : List Bytes} (h : Holds m p v args)
    (hq : Behind m p q) : Holds m p { v with
      commandTokens := Function.update v.commandTokens v.numCommands (some q)
      numCommands := v.numCommands+1 } (args ++ [cstrAt m q]) where
  count := by simp [h.count]
  tokens i a ha := by
    rcases lt_or_ge i args.length with hi | hi
    · rw [List.getElem?_append_left hi] at ha
      obtain ⟨r, hr, hb, hs⟩ := h.tokens i a ha
      refine ⟨r, ?_, hb, hs⟩
      rw [← hr]
      exact Function.update_of_ne (by rw [h.count]; omega) _ _
    · have hlt := (List.getElem?_eq_some_iff.mp ha).1
      rw [List.length_append, List.length_singleton] at hlt
      obtain rfl : i = args.length := by omega
      rw [List.getElem?_concat_length] at ha
      cases ha
      refine ⟨q, ?_, hq, rfl⟩
      rw [← h.count]
      exact Function.update_self _ _ _

/-- What at most `n` turns of the loop make of the rest of a line is what the
words of that rest say, the segment that was begun included. -/
def Makes (env : Env) (n : ℕ) : Prop :=
  ∀ (m : Bytes) (p : ℕ) (v : Vars) (args : List Bytes) (k : ℕ), v.opened.length = k →
    (cstrAt m p).length < n → Holds m p v args → Targeted (words space (cstrAt m p)) →
    (∀ c ∈ callsFrom env ⟨args, v.inputFd, v.outputFd⟩ k (segments (words space (cstrAt m p))),
      c.argv.length < maxCommands) →
    Made env v (callsFrom env ⟨args, v.inputFd, v.outputFd⟩ k
      (segments (words space (cstrAt m p)))) (openings (words space (cstrAt m p)))
      (loopRun env n (strtok space m p) v)

section Token

variable {n k q : ℕ} {t : Strtok} {v : Vars} {args : List Bytes} (ih : Makes env n)
  (hk : v.opened.length = k) (hst : t.start = some q) (hshort : (cstrAt t.mem t.save).length < n)
  (hv : Holds t.mem t.save v args)
  (htarget : Targeted (cstrAt t.mem q :: words space (cstrAt t.mem t.save)))
  (hfit : ∀ c ∈ callsFrom env ⟨args, v.inputFd, v.outputFd⟩ k
    (segments (cstrAt t.mem q :: words space (cstrAt t.mem t.save))), c.argv.length < maxCommands)

include ih hk hst hshort hv htarget hfit

theorem made_redirect (hop : isRedirect (cstrAt t.mem q) = true) :
    Made env v (callsFrom env ⟨args, v.inputFd, v.outputFd⟩ k
      (segments (cstrAt t.mem q :: words space (cstrAt t.mem t.save))))
      (openings (cstrAt t.mem q :: words space (cstrAt t.mem t.save))) (loopRun env (n+1) t v) := by
  obtain ⟨htok, hrest⟩ := htarget
  obtain ⟨hhead, htail, hle⟩ := @strtok_words space t.mem t.save
  rw [← next] at hhead htail hle
  obtain ⟨f, hf, hplain, hfbar⟩ := htok hop
  have hws := List.eq_cons_of_mem_head? hf
  have hcall := redirect_call env (cstrAt t.mem q) (some f) v args
  rw [hk] at hcall
  rw [hws, callsFrom_redirect hop hplain hfbar, ← htail] at hfit
  rw [hws, callsFrom_redirect hop hplain hfbar, openings_redirect hop hplain, ← htail,
    loopRun_redirect v hst hop, hhead.trans hf]
  rw [hws, ← htail] at hrest
  obtain ⟨htokens, hcount, hcalls⟩ := redirect_frame env (cstrAt t.mem q) (some f) v
  have hnext := ih (next t).mem (next t).save (v.redirect env (cstrAt t.mem q) (some f)) args
    (k+1) (by rw [redirect_opened hop, List.length_append, hk]; rfl)
    (lt_of_le_of_lt hle hshort) (hv.strtok.congr htokens hcount) hrest.2
    (by rw [hcall]; exact hfit)
  rw [hcall] at hnext
  exact Made.open hcalls (redirect_opened hop (some f) v) hnext

theorem made_bar (hbar : cstrAt t.mem q = bar) :
    Made env v (callsFrom env ⟨args, v.inputFd, v.outputFd⟩ k
      (segments (cstrAt t.mem q :: words space (cstrAt t.mem t.save))))
      (openings (cstrAt t.mem q :: words space (cstrAt t.mem t.save))) (loopRun env (n+1) t v) := by
  rw [hbar, callsFrom_bar] at hfit
  rw [hbar, callsFrom_bar, openings_word (by decide), loopRun_bar v hst hbar]
  have hmade := runCommand_made env hv (hfit _ List.mem_cons_self)
  cases hrun : runCommand env t.mem v with
  | undefined =>
    rw [hrun] at hmade
    exact absurd hmade id
  | exit u =>
    rw [hrun] at hmade
    exact hmade.exited _ _
  | done m' u =>
    rw [hrun] at hmade
    obtain ⟨hcalls, hopened, hall, hprompt⟩ := hmade
    rw [List.append_nil] at hopened
    have hfresh : (⟨[], u.inputFd, u.outputFd⟩ : Call) = fresh := by
      rw [hprompt.inputFd, hprompt.outputFd, fresh]
    have hnext := ih t.mem t.save u [] k (by rw [hopened, hk]) hshort
      ⟨hprompt.numCommands, fun i a ha => by simp at ha⟩ htarget.2
      (by rw [hfresh, callsFrom_fresh]; exact fun c hc => hfit c (List.mem_cons_of_mem _ hc))
    rw [hfresh, callsFrom_fresh] at hnext
    exact hnext.cons hcalls hopened (allReturn_cons.mp hall).1

theorem made_word (hq : Behind t.mem t.save q) (hplain : isRedirect (cstrAt t.mem q) = false)
    (hbar : cstrAt t.mem q ≠ bar) :
    Made env v (callsFrom env ⟨args, v.inputFd, v.outputFd⟩ k
      (segments (cstrAt t.mem q :: words space (cstrAt t.mem t.save))))
      (openings (cstrAt t.mem q :: words space (cstrAt t.mem t.save))) (loopRun env (n+1) t v) := by
  rw [callsFrom_word hplain hbar] at hfit
  have hroom : v.numCommands < maxCommands := by
    have hbegun : (args ++ [cstrAt t.mem q]).length < maxCommands := begun_length hfit
    rw [List.length_append, List.length_singleton] at hbegun
    rw [hv.count]
    omega
  rw [callsFrom_word hplain hbar, openings_word hplain, loopRun_word v hst hplain hbar hroom]
  exact ih t.mem t.save _ (args ++ [cstrAt t.mem q]) k hk hshort (hv.word hq) htarget.2 hfit

end Token

/-- By induction on the turns, with a lemma for each kind of token. -/
theorem loopRun_made (env : Env) (n : ℕ) : Makes env n := by
  induction n with
  | zero => exact fun m p v args k hk hn => absurd hn (Nat.not_lt_zero _)
  | succ n ih =>
    intro m p v args k hk hn hv htarget hfit
    cases hst : (strtok space m p).start with
    | none =>
      obtain ⟨hw, hmem, -⟩ := strtok_none hst
      have hlast : callsFrom env ⟨args, v.inputFd, v.outputFd⟩ k (segments []) =
          [⟨args, v.inputFd, v.outputFd⟩] := by
        simp [segments, callsFrom, callFrom, arguments, argumentsAfter, lastOpened, redirects,
          segmentCalls]
      rw [hw, hlast] at hfit ⊢
      rw [loopRun, tokenLoop, hst]
      dsimp only
      rw [hmem]
      exact runCommand_made env hv (hfit _ List.mem_cons_self)
    | some q =>
      obtain ⟨hw, hq, hshort⟩ := strtok_some hst
      have hv' := hv.strtok
      generalize strtok space m p = t at *
      rw [hw] at htarget hfit ⊢
      by_cases hop : isRedirect (cstrAt t.mem q) = true
      · exact made_redirect ih hk hst (by omega) hv' htarget hfit hop
      by_cases hbar : cstrAt t.mem q = bar
      · exact made_bar ih hk hst (by omega) hv' htarget hfit hbar
      · exact made_word ih hk hst (by omega) hv' htarget hfit hq (by simpa using hop) hbar

theorem runCommand_done {m m' : Bytes} {v u : Vars} (h : runCommand env m v = .done m' u) :
    m' = m ∧ AtPrompt u := by
  unfold runCommand at h
  split at h
  · cases h
  · split at h
    · cases h
    · dsimp only at h
      split_ifs at h
      cases h
      exact ⟨rfl, rfl, rfl, rfl⟩

theorem tokenLoop_keeps (env : Env) (n : ℕ) (t : Strtok) (v u : Vars) (m : Bytes)
    (h : tokenLoop env n t v = .done m u) (q : ℕ) (hq : Behind t.mem t.save q) :
    cstrAt m q = cstrAt t.mem q := by
  induction n generalizing t v with
  | zero => cases h
  | succ n ih =>
    have hnext (w : Vars) (hw : tokenLoop env n (next t) w = .done m u) :
        cstrAt m q = cstrAt t.mem q :=
      (ih (next t) w hw hq.strtok.2).trans hq.strtok.1
    have hfile (w : Vars) (hw : tokenLoop env n (next (next t)) w = .done m u) :
        cstrAt m q = cstrAt t.mem q :=
      ((ih (next (next t)) w hw hq.strtok.2.strtok.2).trans hq.strtok.2.strtok.1).trans
        hq.strtok.1
    unfold tokenLoop at h
    split at h
    · cases h
      rfl
    · dsimp only at h
      split_ifs at h
      · exact hfile _ h
      · exact hfile _ h
      · split at h
        · exact hnext _ h
        · rename_i hnot
          exact absurd h (hnot m u)
      · split at h
        · cases h
        · exact hnext _ h

end Loop

section Turn

variable {env : Env}

theorem turn_atPrompt {read : Option Bytes} {s t : State} (h : turn env read s = some t)
    (ht : t.exited = false) : AtPrompt t.vars := by
  unfold turn at h
  split_ifs at h
  obtain ⟨m, -, h⟩ := Option.bind_eq_some_iff.mp h
  dsimp only at h
  split at h
  · cases h
  · cases h
    cases ht
  · split at h
    · cases h
    · cases h
      cases ht
    · rename_i hfinish
      cases h
      unfold finish at hfinish
      split_ifs at hfinish
      exact (runCommand_done hfinish).2

theorem reachable_atPrompt (tokens : ℕ → Option ℕ) (history : List (Option Bytes)) (s : State)
    (h : run (turn env) history (start tokens) = some s) :
    s.exited = false → AtPrompt s.vars :=
  run_invariant (turn env) (fun s => s.exited = false → AtPrompt s.vars)
    (fun _ _ _ _ ht => turn_atPrompt ht) history (start tokens) s
    (fun _ => ⟨rfl, rfl, rfl⟩) h

/-- What `fgets` stores for a line, with its newline or at the end of the file. -/
def Typed (line b : Bytes) : Prop := b = line ++ [10] ∨ (b = line ∧ line ≠ [])

theorem typed_text {line b : Bytes} (h0 : 0 ∉ line) (hnl : 10 ∉ line) (hlen : line.length ≤ 1022)
    (hb : Typed line b) (input : Option Bytes) :
    ∃ m, fgets (some b) input = some m ∧ cstr (chomp m) = line := by
  have hread : b ≠ [] ∧ b.length < maxCommandLength := by
    rcases hb with rfl | ⟨rfl, hne⟩
    · refine ⟨by simp, ?_⟩
      rw [List.length_append, List.length_singleton, maxCommandLength]
      omega
    · exact ⟨hne, by rw [maxCommandLength]; omega⟩
  refine ⟨_, if_pos hread, ?_⟩
  have hline : ∀ c ∈ line, (decide (c ≠ 10)) = true := by
    intro c hc
    rw [decide_eq_true_eq]
    rintro rfl
    exact hnl hc
  rw [ShellRun.cstr_chomp, List.append_assoc]
  rcases hb with rfl | ⟨rfl, hne⟩
  · rw [List.append_assoc, cstr_append h0, List.takeWhile_append_of_pos hline]
    exact List.append_nil _
  · rw [cstr_append h0, List.takeWhile_append_of_pos hline]
    exact List.append_nil _

theorem front_ne_exit {line : Bytes} (h : line.takeWhile (· ≠ 32) ≠ exitCommand) :
    front space line ≠ exitCommand := by
  intro hfront
  have hne : exitCommand ≠ [] := by decide
  have htok : ∀ b ∈ exitCommand, b ∉ space := forall_of_all (by decide)
  rcases (front_eq_iff hne htok line).mp hfront with rfl | ⟨d, hd, rest, rfl⟩
  · exact h (by decide)
  · rw [show d = 32 by simpa [space, ascii] using hd] at h
    exact h rfl

theorem turn_loopRun {b m : Bytes} {s : State} (hs : s.exited = false)
    (hm : fgets (some b) s.input = some m)
    (hexit : front space (cstr (chomp m)) ≠ exitCommand)
    (cs : List Call) (os : List (Mode × Option Bytes))
    (hmade : Made env s.vars cs os
      (loopRun env ((chomp m).length+1) (strtok space (chomp m) 0) s.vars)) :
    ∃ t, turn env (some b) s = some t ∧
      (t.exited = false → Made env s.vars cs os (.done m t.vars)) ∧
      (t.exited = true → Made env s.vars cs os (.exit t.vars)) := by
  have hkeep := tokenLoop_keeps env ((chomp m).length+1) (strtok space (chomp m) 0)
  unfold loopRun at hmade
  unfold turn
  rw [if_neg (by simp [hs]), hm, Option.bind_some]
  dsimp only
  cases hloop : tokenLoop env ((chomp m).length+1) (strtok space (chomp m) 0) s.vars with
  | undefined =>
    rw [hloop] at hmade
    exact absurd hmade id
  | exit u =>
    rw [hloop] at hmade
    exact ⟨_, rfl, fun h => (by cases h), fun _ => hmade⟩
  | done m' u =>
    rw [hloop] at hmade
    dsimp only at hmade ⊢
    have hfront : cstr m' = front space (cstr (chomp m)) :=
      (hkeep s.vars u m' hloop 0 (front_behind _ _)).trans (strtok_front _ _).1
    rw [finish, if_neg (by rw [hfront]; exact hexit)]
    cases hrun : runCommand env m' u with
    | undefined =>
      rw [hrun] at hmade
      exact absurd hmade id
    | exit w =>
      rw [hrun] at hmade
      exact ⟨_, rfl, fun h => (by cases h), fun _ => hmade⟩
    | done m'' w =>
      rw [hrun] at hmade
      exact ⟨_, rfl, fun _ => hmade, fun h => by cases h⟩

/-- The calls of `execute_command` that a line makes are one for each of its
segments, in order, as far as they return; when all return, its files were
opened in order and the next prompt finds the variables reset. -/
theorem line_calls (env : Env) (tokens : ℕ → Option ℕ) (history : List (Option Bytes)) (s : State)
    (h : run (turn env) history (start tokens) = some s) (hs : s.exited = false)
    (line b : Bytes) (hb : Typed line b) (h0 : 0 ∉ line) (hnl : 10 ∉ line)
    (hlen : line.length ≤ 1022) (hexit : line.takeWhile (· ≠ 32) ≠ exitCommand)
    (htarget : Targeted (words space line))
    (hfit : ∀ seg ∈ segments (words space line), (arguments seg).length ≤ 19) :
    ∃ t, turn env (some b) s = some t ∧
      t.vars.calls = s.vars.calls ++ reached env.returns s.vars.calls.length
        (segmentCalls env s.vars.opened.length (segments (words space line))) ∧
      (AllReturn env.returns s.vars.calls.length
          (segmentCalls env s.vars.opened.length (segments (words space line))) →
        t.vars.calls = s.vars.calls ++
          segmentCalls env s.vars.opened.length (segments (words space line)) ∧
        t.vars.opened = s.vars.opened ++ openings (words space line) ∧
        t.exited = false ∧ t.vars.numCommands = 0 ∧ t.vars.inputFd = stdinFileno ∧
        t.vars.outputFd = stdoutFileno) := by
  obtain ⟨m, hm, htext⟩ := typed_text h0 hnl hlen hb s.input
  have hprompt := reachable_atPrompt tokens history s h hs
  have hfresh : (⟨[], s.vars.inputFd, s.vars.outputFd⟩ : Call) = fresh := by
    rw [hprompt.inputFd, hprompt.outputFd, fresh]
  have hmade := loopRun_made env ((chomp m).length+1) (chomp m) 0 s.vars [] _ rfl
    (Nat.lt_succ_of_le (List.takeWhile_sublist _).length_le)
    ⟨hprompt.numCommands, fun i a ha => by simp at ha⟩
  rw [show cstrAt (chomp m) 0 = line from htext, hfresh, callsFrom_fresh] at hmade
  obtain ⟨t, ht, hdone, hstop⟩ := turn_loopRun hs hm (by rw [htext]; exact front_ne_exit hexit)
    _ _ (hmade htarget (fun c hc => Nat.lt_succ_of_le (segmentCalls_argv hfit c hc)))
  refine ⟨t, ht, ?_⟩
  cases hexited : t.exited with
  | true =>
    obtain ⟨hcalls, hnot⟩ := hstop hexited
    exact ⟨hcalls, fun hall => absurd hall hnot⟩
  | false =>
    obtain ⟨hcalls, hopened, hall, hnext⟩ := hdone hexited
    exact ⟨by rw [reached_all hall, hcalls], fun _ => ⟨hcalls, hopened, rfl, hnext.numCommands,
      hnext.inputFd, hnext.outputFd⟩⟩

/-- Every `open` succeeds, and every command returns. -/
def steady : Env := ⟨fun n => 3+n, fun _ => true⟩

theorem line_calls_pipe : ∃ s,
    run (turn steady) [some (ascii "ls" ++ [10])] (start (fun _ => none)) = some s ∧
    ∃ t, turn steady (some (ascii "cat < a b | wc > o" ++ [10])) s = some t ∧
      t.vars.calls = [⟨[ascii "ls"], 0, 1⟩, ⟨[ascii "cat", ascii "b"], 3, 1⟩,
        ⟨[ascii "wc"], 0, 4⟩] := by
  obtain ⟨t, ht, -, hall⟩ := line_calls steady (fun _ => none) [some (ascii "ls" ++ [10])] _ rfl
    rfl (ascii "cat < a b | wc > o") (ascii "cat < a b | wc > o" ++ [10]) (.inl rfl)
    (by decide) (by decide) (by decide) (by decide) (by decide) (by decide)
  exact ⟨_, rfl, t, ht, (hall (fun _ _ => rfl)).1.trans (by decide)⟩

end Turn

end CSE344.ShellLines
