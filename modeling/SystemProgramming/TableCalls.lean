import SystemProgramming.FileBytes
import SystemProgramming.RequestGrammar
import SystemProgramming.TableMachine

/-!
# The midterm server's requests one at a time

`list_files` opens the files in the server process, and a fresh child serves
each request with a copy of the server's descriptors and with the FIFO of the
client, which takes the lowest free number. A description keeps its offset when
the child ends, since the server holds it too. A place of the directory is
bound to a file by number, and a file without contents is a FIFO. The variables
`pid` and `fd` of the helpers are never set: `pid` names some FIFO and reading
`fd` yields some chunks. What is written through `fd`, or to the client's FIFO,
is left out, and writing to a file is taken to be complete.
-/

set_option autoImplicit false

namespace CSE344.TableCalls
open CString Stdio FileBytes ProcessFiles RequestGrammar
open TableDescriptors (fifoPath)
open TableMachine (Entry asInt)
open FifoSession (maxLine overlay listBlocks)

/-- An open file description; `other` is a FIFO, a terminal or a directory stream. -/
inductive Description where
  | other
  | file (x offset : ℕ)
  deriving DecidableEq, Repr

/-- The names of a file system and what its files hold. -/
structure Disk (Loc : Type*) where
  directory : Directory Loc
  contents : ℕ → Option Bytes

/-- `table` is the whole array, with what is left in the slots from `numFiles`
on; it is taken to have room for every entry. -/
structure State (Loc : Type*) where
  server : Table Description
  disk : Disk Loc
  table : ℕ → Entry
  numFiles : ℕ
  alive : Bool

/-- What the calls made for a request return. `stray` is the uninitialised
`pid`, `rest` what the buffer of the helper holds behind its message, `chunks`
what reading the uninitialised `fd` yields, and `ahead` how far the stream of
`fdopen` has read beyond what was taken from it. -/
structure Env where
  stray : ℤ
  rest : Bytes
  chunks : List Bytes
  nonempty : ∀ b ∈ chunks, b ≠ [] ∧ b.length ≤ maxLine
  ahead : ℕ
  openOk : Bool
  unlinkOk : Bytes → Bool

theorem no_chunks : ∀ b ∈ ([] : List Bytes), b ≠ [] ∧ b.length ≤ maxLine := List.forall_mem_nil _

/-- What a helper has found when it composes its message. -/
inductive Said where
  | noFile
  | line (text : Bytes)
  | lineMissing
  | chunk (data : Bytes)
  | endOfFile
  | readError
  | written
  | uploaded
  | present
  | downloaded
  | killed
  | crashed
  deriving DecidableEq, Repr

/-- The texts of the messages. -/
def Said.text (file : Bytes) (line : ℤ) : Said → Bytes
  | .noFile => file ++ ascii " does not exist in server directory\n"
  | .line text => text
  | .lineMissing => ascii "Line " ++ Scanf.print line ++ ascii " does not exist in " ++ file ++ [10]
  | .chunk data => data
  | .endOfFile => ascii "End of " ++ file ++ [10]
  | .readError => ascii "Read error on " ++ file ++ [10]
  | .written => ascii "Write successful on " ++ file ++ [10]
  | .uploaded => ascii "Upload successful on " ++ file ++ [10]
  | .present => file ++ ascii " already exists in server directory\n"
  | .downloaded => ascii "Download successful on " ++ file ++ [10]
  | .killed => ascii "Server killed.\n"
  | .crashed => []

variable {Loc : Type*}

namespace State

def setEntry (i : ℕ) (e : Entry) (s : State Loc) : State Loc :=
  { s with table := Function.update s.table i e }

def addReaders (i : ℕ) (k : ℤ) (s : State Loc) : State Loc :=
  s.setEntry i { s.table i with readers := (s.table i).readers+k }

def addWriters (i : ℕ) (k : ℤ) (s : State Loc) : State Loc :=
  s.setEntry i { s.table i with writers := (s.table i).writers+k }

/-- The entries in use, in their order. -/
def entries (s : State Loc) : List Entry := (List.range s.numFiles).map s.table

/-- The loop that looks a name up; `strcmp` at each index until it matches. -/
def find (file : Bytes) (s : State Loc) : Option ℕ :=
  (List.range s.numFiles).find? (fun i => (s.table i).name = file)

/-- The descriptors of a child that has opened the FIFO of its client. -/
def child (s : State Loc) : Table Description := install s.server .other

/-- The file behind a number in the child, with its offset and content. -/
def file (fd : ℤ) (s : State Loc) : Option (ℕ × ℕ × Bytes) :=
  if fd < 0 then none
  else match lookup s.child fd.toNat with
    | some (.file x offset) => (s.disk.contents x).map (fun c => (x, offset, c))
    | _ => none

/-- The offset of a description that the server holds too. -/
def seek (fd : ℤ) (x offset : ℕ) (s : State Loc) : State Loc :=
  { s with server := s.server.set fd.toNat (some (.file x offset)) }

end State

/-- `write` at an offset of a file; what goes into a FIFO is left out. -/
def Disk.put (x pos : ℕ) (data : Bytes) (d : Disk Loc) : Disk Loc :=
  { d with contents := Function.update d.contents x ((d.contents x).map (writeAt pos data)) }

section Places

variable [DecidableEq Loc] (place : Bytes → Loc)

namespace Disk

def fileAt (path : Bytes) (d : Disk Loc) : Option ℕ := d.directory.files (place path)

def mkfifo (path : Bytes) (d : Disk Loc) : Disk Loc :=
  match d.fileAt place path with
  | some _ => d
  | none => ⟨d.directory.create (place path), Function.update d.contents d.directory.next none⟩

/-- `open` with `O_CREAT | O_RDWR | O_TRUNC`. -/
def creat (path : Bytes) (d : Disk Loc) : Disk Loc :=
  match d.fileAt place path with
  | some x => { d with contents := Function.update d.contents x ((d.contents x).map (fun _ => [])) }
  | none => ⟨d.directory.create (place path), Function.update d.contents d.directory.next (some [])⟩

def unlink (env : Env) (path : Bytes) (d : Disk Loc) : Disk Loc :=
  if env.unlinkOk path then { d with directory := d.directory.unlink (place path) } else d

/-- What the file that a path names gets from a write at its start. -/
def overwrite (path data : Bytes) (d : Disk Loc) : Disk Loc :=
  match d.fileAt place path with
  | some x => d.put x 0 data
  | none => d

/-- The end of every helper: the path stored over the message, the whole array
written to what that path names, and the path unlinked. -/
def reply (env : Env) (message : Bytes) (d : Disk Loc) : Disk Loc :=
  let path := fifoPath env.stray
  ((d.mkfifo place path).overwrite place path (overlay path (message ++ env.rest))).unlink
    place env path

end Disk

def State.reply (env : Env) (message : Bytes) (s : State Loc) : State Loc :=
  { s with disk := s.disk.reply place env message }

/-- `readdir` returns the entry, and `open` of a regular file may fail. -/
structure Dirent where
  name : Bytes
  regular : Bool
  openOk : Bool

/-- The server when it calls `list_files`: a directory of named files and a new
segment. -/
structure Config where
  inherited : Table Unit
  disk : Disk Loc
  segment : ℕ → Entry
  opendirOk : Bool
  entries : List Dirent
  old : ∀ l x, disk.directory.files l = some x → x < disk.directory.next
  distinct : (entries.map Dirent.name).Nodup
  short : ∀ e ∈ entries, e.name.length < 256
  regular : ∀ e ∈ entries, e.regular = true →
    ∃ x c, disk.fileAt place e.name = some x ∧ disk.contents x = some c

/-- The file and its content if `open` of a listed name succeeds. -/
def opened (e : Dirent) (s : State Loc) : Option (ℕ × Bytes) :=
  if e.openOk then (s.disk.fileAt place e.name).bind (fun x =>
    (s.disk.contents x).map (fun c => (x, c))) else none

/-- One turn of the `readdir` loop; `lseek` leaves the offset at the end. The
local `index` is `numFiles` here, which nobody reads before the loop has ended. -/
def listEntry (s : State Loc) (e : Dirent) : State Loc :=
  if e.regular then
    match opened place e s with
    | some (x, c) => { s with
        server := install s.server (.file x c.length)
        table := Function.update s.table s.numFiles ⟨e.name, asInt c.length, free s.server, 0, 0⟩
        numFiles := s.numFiles+1 }
    | none => { s with
        table := Function.update s.table s.numFiles ⟨e.name, -1, -1, 0, 0⟩
        numFiles := s.numFiles+1 }
  else s

def Config.before (cfg : Config place) : State Loc where
  server := cfg.inherited.map (Option.map (fun _ => .other))
  disk := cfg.disk
  table := cfg.segment
  numFiles := 0
  alive := true

def listFiles (cfg : Config place) : State Loc :=
  let s := cfg.before
  if cfg.opendirOk then
    let t := cfg.entries.foldl (listEntry place) { s with server := install s.server .other }
    { t with server := close t.server (free s.server) }
  else s

/-- The lines that a stream on the descriptor gives, and where it leaves the offset. -/
def streamLines (line : ℤ) (offset : ℕ) (c : Bytes) : List Bytes :=
  fgetsLoop maxLine line.toNat (c.drop offset)

def readFile (env : Env) (file : Bytes) (line : ℤ) (s : State Loc) : State Loc × Said :=
  match s.find file with
  | none => (s.reply place env (Said.noFile.text file line), .noFile)
  | some i =>
    let fd := (s.table i).fd
    let s := s.addReaders i 1
    if 0 < line then
      match s.file fd with
      | none => (s, .crashed)
      | some (x, offset, c) =>
        let lines := streamLines line offset c
        let pos := offset+lines.flatten.length
        let said := if lines.length < line.toNat then .lineMissing else .line (lines.getLastD [])
        let s := s.seek fd x (pos+min env.ahead (c.length-pos))
        ((s.addReaders i (-1)).reply place env (said.text file line), said)
    else
      match s.file fd with
      | none => ((s.addReaders i (-1)).reply place env (Said.readError.text file line), .readError)
      | some (x, offset, c) =>
        let data := (c.drop offset).take maxLine
        let said := if data = [] then .endOfFile else .chunk data
        let s := s.seek fd x (offset+data.length)
        ((s.addReaders i (-1)).reply place env (said.text file line), said)

/-- A file is in use, so a writer sleeps; with no other call under way it never wakes up. -/
def Busy (i : ℕ) (s : State Loc) : Prop := 0 < (s.table i).readers ∨ 0 < (s.table i).writers

instance (i : ℕ) (s : State Loc) : Decidable (Busy i s) := inferInstanceAs (Decidable (_ ∨ _))

/-- What is written at a line or at the end; `none` is the null pointer of `fdopen`. -/
def writeBody (env : Env) (fd : ℤ) (line : ℤ) (string : Bytes) (s : State Loc) :
    Option (State Loc × Said) :=
  if 0 < line then
    (s.file fd).map (fun (x, offset, c) =>
      let lines := streamLines line offset c
      let pos := offset+lines.flatten.length
      if lines.length < line.toNat then
        (s.seek fd x (pos+min env.ahead (c.length-pos)), .lineMissing)
      else
        let start := pos-(cstr (lines.getLastD [])).length
        ({ s with disk := s.disk.put x start (string ++ [newline]) }.seek fd x
          (start+string.length+1), .written))
  else
    match s.file fd with
    | none => some (s, .written)
    | some (x, _, c) =>
      some ({ s with disk := s.disk.put x c.length string }.seek fd x
        (c.length+string.length), .written)

def writeFile (env : Env) (file : Bytes) (line : ℤ) (string : Bytes) (s : State Loc) :
    Option (State Loc × Said) :=
  match s.find file with
  | none => some (s.reply place env (Said.noFile.text file line), .noFile)
  | some i =>
    if Busy i s then none
    else
      let fd := (s.table i).fd
      let s := s.addWriters i 1
      match writeBody env fd line string s with
      | none => some (s, .crashed)
      | some (s, .lineMissing) => some (s.addWriters i (-1), .lineMissing)
      | some (s, said) => some ((s.addWriters i (-1)).reply place env (said.text file line), said)

/-- The loop that stores the chunks; `x` is the file that `open` gave. -/
def receive (x : Option ℕ) (i : ℕ) : List Bytes → ℕ → State Loc → State Loc
  | [], _, s => s
  | b::bs, pos, s =>
    let d := x.elim s.disk (fun x => s.disk.put x pos b)
    receive x i bs (pos+b.length)
      ({ s with disk := d }.setEntry i { s.table i with size := asInt ((s.table i).size+b.length) })

def uploadFile (env : Env) (file : Bytes) (s : State Loc) : State Loc × Said :=
  match s.find file with
  | some _ => (s.reply place env (Said.present.text file 0), .present)
  | none =>
    let i := s.numFiles
    let d := if env.openOk then s.disk.creat place file else s.disk
    let x := if env.openOk then d.fileAt place file else none
    let fd : ℤ := if env.openOk then free s.child else -1
    let t := { s with disk := d }.setEntry i
      { s.table i with name := file, fd := fd, readers := 0, writers := 0 }
    let t := receive x i env.chunks 0 t
    ({ t with numFiles := i+1 }.reply place env (Said.uploaded.text file 0), .uploaded)

/-- `files[i] = files[i+1]` for `i` from `k` on. -/
def shiftLeft (k n : ℕ) (table : ℕ → Entry) : ℕ → Entry :=
  (List.range' k (n-1-k)).foldl (fun t i => Function.update t i (t (i+1))) table

def downloadFile (env : Env) (file : Bytes) (s : State Loc) : Option (State Loc × Said) :=
  match s.find file with
  | none => some (s.reply place env (Said.noFile.text file 0), .noFile)
  | some i =>
    if Busy i s then none
    else
      let fd := (s.table i).fd
      let s := s.addWriters i 1
      let s := match s.file fd with
        | some (x, offset, c) => s.seek fd x (max offset c.length)
        | none => s
      let s := s.addWriters i (-1)
      let s := { s with
        disk := s.disk.unlink place env (s.table i).name
        table := shiftLeft i s.numFiles s.table
        numFiles := s.numFiles-1 }
      some (s.reply place env (Said.downloaded.text file 0), .downloaded)

def killServer (env : Env) (s : State Loc) : State Loc × Said :=
  ({ s.reply place env (Said.killed.text [] 0) with alive := false }, .killed)

section Calls

/-- One call of a helper. -/
inductive Call where
  | readFile (file : Bytes) (line : ℤ)
  | writeFile (file : Bytes) (line : ℤ) (string : Bytes)
  | uploadFile (file : Bytes)
  | downloadFile (file : Bytes)
  deriving DecidableEq, Repr

/-- `none` says that the call sleeps forever. -/
def call (c : Call) (env : Env) (s : State Loc) : Option (State Loc × Said) :=
  match c with
  | .readFile file line => some (readFile place env file line s)
  | .writeFile file line string => writeFile place env file line string s
  | .uploadFile file => some (uploadFile place env file s)
  | .downloadFile file => downloadFile place env file s

def callStep (a : Call × Env) (s : State Loc) : Option (State Loc) :=
  (call place a.1 a.2 s).map Prod.fst

end Calls

section Requests

/-- A request as a child gets it: the string in `buffer` after the read, and
what the array holds behind it. It is the path of the FIFO if nothing is read. -/
structure Serving where
  pid : ℤ
  text : CStr
  short : text.bytes.length < maxLine
  array : Bytes
  env : Env

def Serving.buffer (r : Serving) : Bytes := r.text.bytes ++ 0::r.array

theorem cstr_buffer (r : Serving) : cstr r.buffer = r.text.bytes := by
  rw [Serving.buffer, cstr_append_zero, cstr_of_noNul r.text.noNul]

theorem dispatch_buffer (r : Serving) : dispatch r.buffer = request r.text.bytes := by
  rw [dispatch, cstr_buffer]

def quitText (pid : ℤ) : Bytes := ascii "Client " ++ Scanf.print pid ++ ascii " quit.\n"

def logFile : Bytes := ascii "log.txt"

/-- The files as the list command prints them. -/
def State.listing (s : State Loc) : List (Bytes × ℤ) :=
  s.entries.map (fun e => (cstr e.name, e.size))

/-- `buffer` when `handle_client` unlinks what it names. -/
def Serving.left (r : Serving) (s : State Loc) : Bytes :=
  match dispatch r.buffer with
  | .list => (listBlocks r.buffer s.listing).getLastD r.buffer
  | .quit => overlay (quitText r.pid) r.buffer
  | _ => r.buffer

/-- The branch that is taken, `none` for a sleep without end. -/
def serveRequest (r : Serving) (s : State Loc) : Option (State Loc × Option Said) :=
  match dispatch r.buffer with
  | .readF file line => some ((readFile place r.env file (line.getD 0) s).map id some)
  | .writeT file line string =>
    (writeFile place r.env file (line.getD 0) string s).map (Prod.map id some)
  | .upload file => some ((uploadFile place r.env file s).map id some)
  | .download file => (downloadFile place r.env file s).map (Prod.map id some)
  | .quit => (writeFile place r.env logFile 0 (quitText r.pid) s).map (Prod.map id some)
  | .killServer => some ((killServer place r.env s).map id some)
  | _ => some (s, none)

/-- The end of `handle_client`; a crash ends the child before it unlinks anything. -/
def finish (r : Serving) (s : State Loc) (p : State Loc × Option Said) :
    State Loc × Option Said :=
  if p.2 = some .crashed then p
  else ({ p.1 with disk := p.1.disk.unlink place r.env (cstr (r.left s)) }, p.2)

def handleClient (r : Serving) (s : State Loc) : Option (State Loc × Option Said) :=
  (serveRequest place r { s with disk := s.disk.mkfifo place (fifoPath r.pid) }).map
    (finish place r s)

def serve (r : Serving) (s : State Loc) : Option (State Loc) :=
  if s.alive then (handleClient place r s).map Prod.fst else none

end Requests

end Places

end CSE344.TableCalls
