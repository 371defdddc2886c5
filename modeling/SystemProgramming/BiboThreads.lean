import SystemProgramming.BiboServer
import SystemProgramming.TransitionRun

/-!
# The HW4 handler threads on the shared files

Each file-system call and each mutex operation of `readF`, `writeT` and
`upload` is one step of its thread; written data reaches the file in pieces of
any size before `fclose`. A path leads to a file, and two paths may lead to the
same one. An open fails for what its path leads to: for reading where no file
is, for writing where none can be written. The reply array is long enough, and
a step whose behaviour is undefined, such as `fprintf` to the null pointer of a
failed open, is not taken.
-/

set_option autoImplicit false

namespace CSE344.BiboThreads
open CString Stdio BiboServer

/-- Where paths lead, and which files can be opened for writing. -/
structure Disk (Loc : Type*) where
  denotes : Bytes → Loc
  writable : Loc → Bool

abbrev Files (Loc : Type*) := Loc → Option Bytes

structure Write where
  path : Bytes
  line : ℤ
  text : Bytes
  deriving DecidableEq, Repr

inductive Command where
  | readF (path : Bytes) (line : ℤ)
  | writeT (w : Write)
  | upload (path : Bytes)
  deriving DecidableEq, Repr

/-- A command that has been carried out, with the reply of a `readF`. -/
structure Event where
  command : Command
  reply : Option Bytes
  deriving DecidableEq, Repr

/-- Where a thread is: each name is the call made next. -/
inductive Pc where
  | idle
  | readOpen (path : Bytes) (line : ℤ)
  | reading (path : Bytes) (line : ℤ) (pos : ℕ) (lines : List Bytes)
  | readClose (path : Bytes) (line : ℤ) (reply : Bytes)
  | lock (w : Write)
  | opening (w : Write)
  | creating (w : Write)
  | firstClose (w : Write)
  | reopening (w : Write)
  | seeking (w : Write)
  | appending (w : Write) (pos : ℕ)
  | scanning (w : Write) (pos : ℕ) (lines : List Bytes)
  | scanClose (w : Write) (out : Bytes)
  | truncating (w : Write) (out : Bytes)
  | flushing (w : Write) (pos : ℕ) (out : Bytes)
  | writeClose (w : Write)
  | unlock (w : Write)
  | uploadOpen (path : Bytes)
  | uploadClose (path : Bytes)
  deriving DecidableEq, Repr

structure Thread where
  todo : List Command
  pc : Pc
  done : List Event

structure State (Loc : Type*) (n : ℕ) where
  files : Files Loc
  mutex : Option (Fin n)
  threads : Fin n → Thread

/-- The reply of `readF` to a file read as `lines`. -/
def readText (line : ℤ) (lines : List Bytes) : Bytes :=
  if line = 0 then ascii "File content:\n" ++ (lines.map cstr).flatten
  else if 1 ≤ line ∧ line ≤ lines.length then cstr (lines.getD (line.toNat-1) [])
  else notFound line

def Command.begin : Command → Pc
  | .readF path line => .readOpen path line
  | .writeT w => .lock w
  | .upload path => .uploadOpen path

/-- Data written at an offset, the gap before it filled with zeros. -/
def writeAt (content : Bytes) (pos : ℕ) (data : Bytes) : Bytes :=
  content.take pos ++ List.replicate (pos-content.length) 0 ++ data ++
    content.drop (pos+data.length)

/-- After the last piece has been written the file is closed. -/
def toFlush (w : Write) (pos : ℕ) (out : Bytes) : Pc :=
  if out = [] then .writeClose w else .flushing w pos out

/-- One call of `fgets` of `readF`. -/
def readLine (path : Bytes) (line : ℤ) (pos : ℕ) (lines : List Bytes) (content : Bytes) : Pc :=
  match fgets lineSize (content.drop pos) with
  | none => .readClose path line (readText line lines)
  | some (l, _) =>
    if ((lines.length+1 : ℕ) : ℤ) = line then .readClose path line (cstr l)
    else .reading path line (pos+l.length) (lines ++ [l])

/-- One call of `fgets` of `writeT`, and the comparison after the last one. -/
def scanLine (w : Write) (pos : ℕ) (lines : List Bytes) (content : Bytes) : Option Pc :=
  match fgets lineSize (content.drop pos) with
  | none =>
    (replaced w.line (some w.text) (lines.map cstr)).map (fun r =>
      r.elim (.writeClose w) (fun lines => .scanClose w lines.flatten))
  | some (l, _) =>
    if lines.length < maxLines then some (.scanning w (pos+l.length) (lines ++ [l])) else none

section Calls

variable {Loc : Type*} [DecidableEq Loc]

def flush (disk : Disk Loc) (n : ℕ) (f : Files Loc) (w : Write) (pos : ℕ) (out : Bytes) :
    Option (Files Loc × Pc) :=
  let l := disk.denotes w.path
  if 1 ≤ n ∧ n ≤ out.length then
    some (Function.update f l (some (writeAt ((f l).getD []) pos (out.take n))),
      toFlush w (pos+n) (out.drop n))
  else none

/-- `fopen(filepath, "w")` of `writeT`, and the first `fprintf` to it. -/
def create (disk : Disk Loc) (f : Files Loc) (w : Write) (out : Bytes) : Option (Files Loc × Pc) :=
  if disk.writable (disk.denotes w.path) then
    some (Function.update f (disk.denotes w.path) (some []), toFlush w 0 out)
  else none

/-- The calls on files; `n` is the size of a flushed piece. -/
def call (disk : Disk Loc) (n : ℕ) (f : Files Loc) : Pc → Option (Files Loc × Pc)
  | .readOpen path line =>
    match f (disk.denotes path) with
    | none => some (f, .readClose path line (ascii "File not found"))
    | some _ => some (f, .reading path line 0 [])
  | .reading path line pos lines =>
    (f (disk.denotes path)).map (fun content => (f, readLine path line pos lines content))
  | .opening w =>
    match f (disk.denotes w.path) with
    | none => some (f, .creating w)
    | some _ => some (f, .firstClose w)
  | .creating w => create disk f w w.text
  | .firstClose w => some (f, .reopening w)
  | .reopening w =>
    if disk.writable (disk.denotes w.path) then
      some (f, if w.line = 0 then .seeking w else .scanning w 0 [])
    else none
  | .seeking w => (f (disk.denotes w.path)).map (fun content =>
    (f, if w.text = [] then .writeClose w else .appending w content.length))
  | .appending w pos => flush disk n f w pos w.text
  | .scanning w pos lines => (f (disk.denotes w.path)).bind (fun content =>
    (scanLine w pos lines content).map (fun pc => (f, pc)))
  | .scanClose w out => some (f, .truncating w out)
  | .truncating w out => create disk f w out
  | .flushing w pos out => flush disk n f w pos out
  | .writeClose w => some (f, .unlock w)
  | .uploadOpen path =>
    -- after an open that fails there is nothing to close
    if disk.writable (disk.denotes path) then
      some (Function.update f (disk.denotes path) (some []), .uploadClose path)
    else some (f, .uploadClose path)
  | _ => none

end Calls

/-- The event that a thread has left behind but not yet recorded. -/
def pending : Pc → List Event
  | .readClose path line reply => [⟨.readF path line, some reply⟩]
  | .writeClose w => [⟨.writeT w, none⟩]
  | .unlock w => [⟨.writeT w, none⟩]
  | .uploadClose path => [⟨.upload path, none⟩]
  | _ => []

def Thread.finish (th : Thread) : Thread :=
  { th with pc := .idle, done := th.done ++ pending th.pc }

structure Act (n : ℕ) where
  thread : Fin n
  chunk : ℕ

variable {Loc : Type*} {n : ℕ}

def State.setThread (s : State Loc n) (i : Fin n) (th : Thread) : State Loc n :=
  { s with threads := Function.update s.threads i th }

def State.setPc (s : State Loc n) (i : Fin n) (pc : Pc) : State Loc n :=
  s.setThread i { s.threads i with pc := pc }

def State.finish (s : State Loc n) (i : Fin n) : State Loc n := s.setThread i (s.threads i).finish

def step [DecidableEq Loc] (disk : Disk Loc) (a : Act n) (s : State Loc n) :
    Option (State Loc n) :=
  match (s.threads a.thread).pc with
  | .idle =>
    match (s.threads a.thread).todo with
    | [] => none
    | c::cs =>
      some (s.setThread a.thread { s.threads a.thread with todo := cs, pc := c.begin })
  | .lock w =>
    if s.mutex = none then some ({ s with mutex := some a.thread }.setPc a.thread (.opening w))
    else none
  | .unlock _ => some ({ s with mutex := none }.finish a.thread)
  | .readClose _ _ _ => some (s.finish a.thread)
  | .uploadClose _ => some (s.finish a.thread)
  | pc => (call disk a.chunk s.files pc).map (fun r => { s with files := r.1 }.setPc a.thread r.2)

def start (programs : Fin n → List Command) (files : Files Loc) : State Loc n where
  files := files
  mutex := none
  threads i := ⟨programs i, .idle, []⟩

end CSE344.BiboThreads
