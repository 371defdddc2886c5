import SystemProgramming.ProcessFiles
import SystemProgramming.ShellLines

/-!
# The HW2 shell as a process

The shell with its descriptor table and with both pairs of `child_pids` and
`num_children`: those of `main` count the turns of its token loop and hide the
global ones, which count the children. The arrays are as long as it takes, and
each index at which one is accessed is recorded. Whether an `open` of a name
succeeds and how a call of `execute_command` ends is the environment's.
-/

set_option autoImplicit false

namespace CSE344.ShellProcess
open CString Shell ProcessFiles
open ShellLines (Mode stdinFileno stdoutFileno)

/-- The fork fails, the wait for the child fails, or the call returns. -/
inductive Outcome where
  | forkFailed
  | waitFailed
  | returned
  deriving DecidableEq, Repr

/-- The n-th `open` of a name, the n-th call of `execute_command`, and the
`fopen` of the log file. -/
structure Env where
  opens : ℕ → Bool
  outcome : ℕ → Outcome
  logFile : Bool

inductive File where
  | terminal
  | named (mode : Mode) (path : Bytes)
  deriving DecidableEq, Repr

/-- `command_tokens[i] =`, `child_pids[i] =` of `execute_command`, and
`waitpid(child_pids[i], ..)` of `main`. -/
inductive Access where
  | commandTokens (i : ℕ)
  | childPids (i : ℕ)
  | waitedPids (i : ℕ)
  deriving DecidableEq, Repr

/-- The `child_pids` of `main` has MAX_COMMANDS entries. -/
def Access.InRange : Access → Prop
  | .commandTokens i => i < maxCommands
  | .childPids i => i < maxChildren
  | .waitedPids i => i < maxCommands

instance Access.InRange.decidable : ∀ a : Access, Decidable a.InRange
  | .commandTokens i => inferInstanceAs (Decidable (i < maxCommands))
  | .childPids i => inferInstanceAs (Decidable (i < maxChildren))
  | .waitedPids i => inferInstanceAs (Decidable (i < maxCommands))

structure Call where
  argv : List Bytes
  inputFd : ℤ
  outputFd : ℤ
  fds : Table File
  deriving DecidableEq, Repr

/-- `command_tokens[0..num_commands)`, the descriptors, the `num_children` of
`main` and the global one. `opened` counts the calls of `open`, `accesses` and
`calls` are histories. -/
structure Vars (τ : Type) where
  tokens : List τ
  inputFd : ℤ
  outputFd : ℤ
  localChildren : ℕ
  numChildren : ℕ
  fds : Table File
  opened : ℕ
  accesses : List Access
  calls : List Call

variable {τ : Type}

def terminals : Table File := [some .terminal, some .terminal, some .terminal]

def initVars (inherited : Table File) : Vars τ where
  tokens := []
  inputFd := stdinFileno
  outputFd := stdoutFileno
  localChildren := 0
  numChildren := 0
  fds := terminals ++ inherited
  opened := 0
  accesses := []
  calls := []

/-- `open(token, ..)`, with its result and the descriptors after it. -/
def Vars.openFile (env : Env) (mode : Mode) (path : Option Bytes) (v : Vars τ) :
    ℤ × Table File :=
  match path with
  | none => (-1, v.fds)
  | some path =>
    if env.opens v.opened then (free v.fds, install v.fds (.named mode path)) else (-1, v.fds)

/-- A turn of the token loop at an operator, with the word behind it. -/
def Vars.redirect (env : Env) (mode : Mode) (path : Option Bytes) (v : Vars τ) : Vars τ :=
  { v with
    inputFd := match mode with
      | .read => (v.openFile env mode path).1
      | .write => v.inputFd
    outputFd := match mode with
      | .read => v.outputFd
      | .write => (v.openFile env mode path).1
    localChildren := v.localChildren+1
    fds := (v.openFile env mode path).2
    opened := v.opened+1 }

/-- A turn at any other word. -/
def Vars.word (p : τ) (v : Vars τ) : Vars τ :=
  { v with
    tokens := v.tokens ++ [p]
    localChildren := v.localChildren+1
    accesses := v.accesses ++ [.commandTokens v.tokens.length] }

inductive Result (τ : Type) where
  | exit (v : Vars τ)
  | done (v : Vars τ)

def Result.vars : Result τ → Vars τ
  | .exit v => v
  | .done v => v

/-- `command_tokens[num_commands] = NULL` and the call of `execute_command`. -/
def Vars.called (read : τ → Bytes) (v : Vars τ) : Vars τ :=
  { v with
    accesses := v.accesses ++ [.commandTokens v.tokens.length]
    calls := v.calls ++ [⟨v.tokens.map read, v.inputFd, v.outputFd, v.fds⟩] }

def Vars.forked (v : Vars τ) : Vars τ :=
  { v with numChildren := v.numChildren+1, accesses := v.accesses ++ [.childPids v.numChildren] }

/-- The call, and the three assignments after it. -/
def runCommand (env : Env) (read : τ → Bytes) (v : Vars τ) : Result τ :=
  match env.outcome v.calls.length with
  | .forkFailed => .exit (v.called read)
  | .waitFailed => .exit (v.called read).forked
  | .returned => .done { (v.called read).forked with
      inputFd := stdinFileno
      outputFd := stdoutFileno
      tokens := [] }

/-- The turn of the token loop that has run a command at a bar. -/
def Vars.bar (v : Vars τ) : Vars τ := { v with localChildren := v.localChildren+1 }

/-- The loop over the tokens of a line, at most `n` turns of it. -/
def tokenLoop (env : Env) : ℕ → Strtok → Vars ℕ → Option (Bytes × Result ℕ)
  | 0, _, _ => none
  | n+1, t, v => match t.start with
    | none => some (t.mem, .done v)
    | some p =>
      let token := cstrAt t.mem p
      if token = ascii ">" then
        let file := next t
        tokenLoop env n (next file) (v.redirect env .write (file.start.map (cstrAt file.mem)))
      else if token = ascii "<" then
        let file := next t
        tokenLoop env n (next file) (v.redirect env .read (file.start.map (cstrAt file.mem)))
      else if token = ascii "|" then
        match runCommand env (cstrAt t.mem) v with
        | .done v => tokenLoop env n (next t) v.bar
        | .exit v => some (t.mem, .exit v)
      else tokenLoop env n (next t) (v.word p)

/-- The loop over `child_pids` at the exit command. A log file that did not
open ends the process in its first `fprintf`, one for each token. -/
def Vars.quit (env : Env) (v : Vars τ) : Vars τ :=
  if env.logFile = true ∨ v.tokens = [] then
    { v with accesses := v.accesses ++ (List.range v.localChildren).map .waitedPids }
  else v

/-- What follows the token loop: the exit test, then the last command. -/
def finish (env : Env) (m : Bytes) (v : Vars ℕ) : Result ℕ :=
  if cstr m = exitCommand then .exit (v.quit env) else runCommand env (cstrAt m) v

structure State where
  input : Option Bytes
  vars : Vars ℕ
  exited : Bool

def start (inherited : Table File) : State := ⟨none, initVars inherited, false⟩

def Result.state (m : Bytes) : Result ℕ → State
  | .exit v => ⟨some m, v, true⟩
  | .done v => ⟨some m, v, false⟩

/-- One turn of the loop of `main`; after the exit nothing is read. -/
def turn (env : Env) (read : Option Bytes) (s : State) : Option State :=
  if s.exited then some s
  else (ShellLines.fgets read s.input).bind (fun m =>
    let m := chomp m
    (tokenLoop env (m.length+1) (strtok space m 0) s.vars).map (fun r =>
      match r with
      | (m, .exit v) => (Result.exit v).state m
      | (m, .done v) => (finish env m v).state m))

/-- What `fgets` reads of a line that was typed. -/
def entered (l : Line) : Option Bytes := some (l.bytes ++ [10])

section Child

def dup2 (old : ℤ) (new : ℕ) (t : Table File) : Table File :=
  if old < 0 then t
  else match lookup t old.toNat with
    | none => t
    | some f => t.set new (some f)

/-- `if (fd != standard) { dup2(fd, standard); close(fd); }` -/
def redirected (fd : ℤ) (standard : ℕ) (t : Table File) : Table File :=
  if fd ≠ standard then
    let t := dup2 fd standard t
    if fd < 0 then t else close t fd.toNat
  else t

def Call.child (c : Call) : Table File :=
  redirected c.outputFd 1 (redirected c.inputFd 0 c.fds)

end Child

section Reading

/-- A turn of the token loop other than a bar, on the words of the line. -/
inductive Item where
  | word (w : Bytes)
  | redirect (mode : Mode) (path : Option Bytes)
  deriving DecidableEq, Repr

/-- The pieces of a line between its bars, when `begun` was read before: an
operator takes the word behind it, whatever that is. -/
def piecesFrom : List Bytes → List Item → List (List Item)
  | [], begun => [begun]
  | w::ws, begun =>
    if w = ascii ">" then
      match ws with
      | [] => [begun ++ [.redirect .write none]]
      | f::ws => piecesFrom ws (begun ++ [.redirect .write (some f)])
    else if w = ascii "<" then
      match ws with
      | [] => [begun ++ [.redirect .read none]]
      | f::ws => piecesFrom ws (begun ++ [.redirect .read (some f)])
    else if w = ascii "|" then begun :: piecesFrom ws []
    else piecesFrom ws (begun ++ [.word w])

/-- What comes behind a piece: a bar, the end of the line, or the end of the
exit command's line. -/
inductive Ending where
  | bar
  | line
  | quit
  deriving DecidableEq, Repr

structure Segment where
  items : List Item
  ending : Ending
  deriving DecidableEq, Repr

def wordsOf (its : List Item) : List Bytes :=
  its.filterMap (fun i => match i with
    | .word w => some w
    | .redirect _ _ => none)

def redirectsOf (its : List Item) : List (Mode × Option Bytes) :=
  its.filterMap (fun i => match i with
    | .word _ => none
    | .redirect mode path => some (mode, path))

/-- The pieces of a line, of which the last ends as given. -/
def endings (last : Ending) : List (List Item) → List Segment
  | [] => []
  | its::rest => ⟨its, if rest = [] then last else .bar⟩ :: endings last rest

/-- The text before the first space is the exit command. -/
def Quits (text : Bytes) : Prop := text.takeWhile (· ≠ 32) = exitCommand

instance Quits.decidable (text : Bytes) : Decidable (Quits text) :=
  inferInstanceAs (Decidable (_ = _))

def segments (text : Bytes) : List Segment :=
  endings (if Quits text then .quit else .line) (piecesFrom (Words.words space text) [])

/-- The segments of a session, whose last line may be the exit command's. -/
def session : List Line → List Segment
  | [] => []
  | l::ls => segments l.bytes ++ if Quits l.bytes then [] else session ls

/-- The segments that are come to, up to the first whose call does not return;
`k` calls came before. -/
def reached (env : Env) : ℕ → List Segment → List Segment
  | _, [] => []
  | k, seg::segs =>
    seg :: if seg.ending ≠ .quit ∧ env.outcome k = .returned then reached env (k+1) segs else []

end Reading

end CSE344.ShellProcess
