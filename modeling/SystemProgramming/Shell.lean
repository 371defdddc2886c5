import SystemProgramming.BufferedInput
import SystemProgramming.CString

/-!
# The HW2 shell

The read-tokenise-execute loop of `main` with its one input buffer, which
`strtok` cuts up in place and which an `fgets` at end of file leaves as it is.
Commands are recorded where they are passed to `execute_command`; a redirected
descriptor is named by the argument of its `open`. The children share the
offset of the standard input with the shell. `none` is undefined behaviour: a
buffer that was never written, or a store past `command_tokens` or
`child_pids`.
-/

set_option autoImplicit false

namespace CSE344.Shell
open BufferedInput CString

def maxCommands : ℕ := 20

def maxCommandLength : ℕ := 1024

def maxChildren : ℕ := 20

/-- A line as typed, without its newline; it fits the buffer. -/
structure Line where
  bytes : Bytes
  noNul : 0 ∉ bytes
  noNewline : 10 ∉ bytes
  short : bytes.length ≤ 1022

/-- The standard input on which these lines were typed. -/
def typedText (ls : List Line) : Bytes := ls.flatMap (fun l => l.bytes ++ [10])

/-- The argument of the last `open` for a descriptor, if any; it may be null. -/
abbrev Redirect := Option (Option Bytes)

structure Command where
  argv : List Bytes
  input : Redirect
  output : Redirect
  deriving DecidableEq, Repr

/-- `command_tokens[0..num_commands)`, `input_fd` and `output_fd`. -/
structure Job where
  tokens : List ℕ
  input : Redirect
  output : Redirect
  deriving DecidableEq, Repr

def noJob : Job := ⟨[], none, none⟩

def Job.command (m : Bytes) (job : Job) : Command :=
  ⟨job.tokens.map (cstrAt m), job.input, job.output⟩

/-- What becomes of a call of `execute_command`. `notWaited` is a `waitpid` that
fails, or that waits for ever. In `gaveBack` a child with the shell's standard
input leaves by the `exit(1)` behind a failed `execvp`. -/
inductive Outcome where
  | forkFailed
  | notWaited
  | gaveBack
  | ran (moved : ℤ)
  deriving DecidableEq, Repr

def Outcome.returns : Outcome → Bool
  | forkFailed => false
  | notWaited => false
  | gaveBack => true
  | ran _ => true

/-- What the child does to the offset. `exit` sets it back by what the child's
copy of the buffer has not handed out; an offset below zero is refused. -/
def Outcome.moves (stdin : Input UInt8) : Outcome → Input UInt8
  | forkFailed => stdin
  | notWaited => stdin
  | gaveBack =>
    if stdin.ahead.length ≤ stdin.offset then
      { stdin with offset := stdin.offset - stdin.ahead.length }
    else stdin
  | ran moved => { stdin with offset := (stdin.offset + moved).toNat }

/-- How much each `read` of the standard input gives, and what becomes of the
k-th call of `execute_command`. -/
structure Env where
  size : ℕ → ℕ
  outcome : ℕ → Outcome

/-- `exited` also stands for a shell that waits for ever. -/
structure Run where
  executed : List Command
  stdin : Input UInt8
  exited : Bool

structure State extends Run where
  input : Option Bytes

def start : State := ⟨⟨[], opened, false⟩, none⟩

def space : Bytes := ascii " "

/-- What `fgets` does to `input` with the bytes it read, none at end of file. -/
def fgets (read : Bytes) (input : Option Bytes) : Option Bytes :=
  if read = [] then input
  else some (read ++ [0] ++ (input.getD []).drop (read.length+1))

/-- `input[strcspn(input, "\n")] = '\0'` -/
def chomp (m : Bytes) : Bytes := m.set ((cstr m).takeWhile (· ≠ 10)).length 0

/-- `execute_command`; `child_pids[num_children++]` comes behind the `fork`. -/
def executeCommand (env : Env) (c : Command) (r : Run) : Option Run :=
  let outcome := env.outcome r.executed.length
  if outcome = .forkFailed ∨ r.executed.length < maxChildren then
    some ⟨r.executed ++ [c], outcome.moves r.stdin, !outcome.returns⟩
  else none

/-- `strtok(NULL, " ")` -/
def next (t : Strtok) : Strtok := strtok space t.mem t.save

/-- The loop over the tokens of a line, at most `n` turns of it. -/
def tokenLoop (env : Env) : ℕ → Strtok → Job → Run → Option (Bytes × Job × Run)
  | 0, _, _, _ => none
  | n+1, t, job, r =>
    match t.start with
    | none => some (t.mem, job, r)
    | some p =>
      let token := cstrAt t.mem p
      if token = ascii ">" then
        let file := next t
        tokenLoop env n (next file)
          { job with output := some (file.start.map (cstrAt file.mem)) } r
      else if token = ascii "<" then
        let file := next t
        tokenLoop env n (next file)
          { job with input := some (file.start.map (cstrAt file.mem)) } r
      else if token = ascii "|" then
        if job.tokens.length < maxCommands then
          (executeCommand env (job.command t.mem) r).bind (fun r =>
            if r.exited then some (t.mem, noJob, r) else tokenLoop env n (next t) noJob r)
        else none
      else if job.tokens.length < maxCommands then
        tokenLoop env n (next t) { job with tokens := job.tokens ++ [p] } r
      else none

def exitCommand : Bytes := ascii ":q"

/-- What follows the token loop: the exit test, then the last command. -/
def finish (env : Env) (m : Bytes) (job : Job) (r : Run) : Option State :=
  if r.exited then some ⟨r, some m⟩
  else if cstr m = exitCommand then some ⟨{ r with exited := true }, some m⟩
  else if job.tokens.length < maxCommands then
    (executeCommand env (job.command m) r).map (fun r => ⟨r, some m⟩)
  else none

/-- One turn of the loop of `main`; after `exit` there are no more. -/
def turn (env : Env) (text : Bytes) (s : State) : Option State :=
  if s.exited then some s
  else
    let (read, stdin) := getLine env.size text 10 (maxCommandLength-1) s.stdin
    (fgets read s.input).bind (fun m =>
      let m := chomp m
      (tokenLoop env (m.length+1) (strtok space m 0) noJob { s.toRun with stdin := stdin }).bind
        (fun (m, job, r) => finish env m job r))

/-- The first `n` turns on a standard input of this text. -/
def turns (env : Env) (text : Bytes) : ℕ → State → Option State
  | 0, s => some s
  | n+1, s => (turn env text s).bind (turns env text n)

end CSE344.Shell
