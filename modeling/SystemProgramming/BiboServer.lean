import SystemProgramming.Stdio

/-!
# One command of the HW4 server

`handle_client` on one received block. The buffer is cleared before each
`recv`, the reply is built in an array that keeps what the last command left
in it. `none` is undefined behaviour: a null pointer used as a string where
the library does not print it, a store outside an array, or a string that
runs past the buffer. `filepath` is taken to be long enough.
-/

set_option autoImplicit false

namespace CSE344.BiboServer
open CString Stdio

def bufferSize : ℕ := 1024

structure Config where
  dirname : Bytes
  readDir : Option (List Bytes)

inductive Next where
  | loop
  | closed
  | exited
  deriving DecidableEq, Repr

structure State where
  files : Bytes → Option Bytes
  response : Bytes
  next : Next

def space : Bytes := ascii " "

/-- What `%s` prints for a pointer that may be null. -/
def printed (s : Option Bytes) : Bytes := s.getD (ascii "(null)")

/-- The cleared buffer after a `recv`. -/
def received (block : Bytes) : Bytes := block ++ List.replicate (bufferSize-block.length) 0

/-- The string at an offset of the buffer. -/
def stringAt (buffer : Bytes) (p : ℕ) : Option Bytes :=
  if 0 ∈ buffer.drop p then some (cstrAt buffer p) else none

/-- The tokens of a command: the file name, the line and the rest. -/
structure Fields where
  filename : Option Bytes
  lineStr : Option Bytes
  text : Option Bytes

def fields (args : Bytes) : Fields :=
  match nextToken space args with
  | none => ⟨none, none, none⟩
  | some (filename, rest) =>
    match nextToken space rest with
    | none => ⟨some filename, none, none⟩
    | some (lineStr, text) => ⟨some filename, some lineStr, (nextToken [] text).map Prod.fst⟩

def Fields.lineNum (f : Fields) : ℤ := f.lineStr.elim 0 atoi

def filepath (cfg : Config) (f : Fields) : Bytes := joinPath cfg.dirname (printed f.filename)

def State.respond (text : Bytes) (s : State) : Option State :=
  (strcpy bufferSize text s.response).map (fun m => { s with response := m })

def State.append (text : Bytes) (s : State) : Option State :=
  (strcat bufferSize text s.response).map (fun m => { s with response := m })

def State.put (path : Bytes) (content : Bytes) (s : State) : State :=
  { s with files := Function.update s.files path (some content) }

def notFound (line : ℤ) : Bytes := ascii "Line " ++ ascii (toString line) ++ ascii " not found"

def list (cfg : Config) (s : State) : Option State :=
  match cfg.readDir with
  | none => s.respond (ascii "Error reading directory")
  | some names => do
    let s ← s.respond (ascii "Files in server directory:\n")
    names.foldlM (fun s name => do
      let s ← s.append name
      s.append (ascii "\n")) s

def lineSize : ℕ := 256

def readF (cfg : Config) (args : Bytes) (s : State) : Option State :=
  let f := fields args
  match s.files (filepath cfg f) with
  | none => s.respond (ascii "File not found")
  | some content =>
    let lines := (fgetsAll lineSize content).map cstr
    if f.lineNum = 0 then do
      let s ← s.respond (ascii "File content:\n")
      lines.foldlM (fun s line => s.append line) s
    else if 1 ≤ f.lineNum ∧ f.lineNum ≤ lines.length then
      s.respond (lines.getD (f.lineNum.toNat-1) [])
    else s.respond (notFound f.lineNum)

def maxLines : ℕ := 1000

/-- The lines with one of them replaced; `some none` when it is not there. -/
def replaced (line : ℤ) (text : Option Bytes) (lines : List Bytes) : Option (Option (List Bytes)) :=
  if maxLines < lines.length then none
  else if lines.length < line then some none
  else text.bind (fun text =>
    if line < 1 ∨ lineSize ≤ text.length then none else some (some (lines.set (line.toNat-1) text)))

/-- The content that `writeT` gives an existing file. -/
def rewritten (line : ℤ) (text : Option Bytes) (content : Bytes) : Option (Option Bytes) :=
  if line = 0 then text.map (fun text => some (content ++ text))
  else (replaced line text ((fgetsAll lineSize content).map cstr)).map (Option.map List.flatten)

def writeT (cfg : Config) (openOk : Bool) (args : Bytes) (s : State) : Option State := do
  let f := fields args
  let path := filepath cfg f
  guard openOk
  let s ←
    match s.files path with
    | none => f.text.map (fun text => s.put path text)
    | some content =>
      match rewritten f.lineNum f.text content with
      | none => none
      | some none => s.respond (notFound f.lineNum)
      | some (some content) => some (s.put path content)
  if s.response.head? = some 0 then s.respond (ascii "Write successful") else some s

def upload (cfg : Config) (openOk : Bool) (args : Bytes) (s : State) : Option State :=
  let path := filepath cfg (fields args)
  if openOk then (s.put path []).respond (ascii "File uploaded successfully")
  else s.respond (ascii "Failed to upload file")

def download (cfg : Config) (args : Bytes) (s : State) : Option State :=
  match s.files (filepath cfg (fields args)) with
  | none => s.respond (ascii "File not found")
  | some _ => s.respond (ascii "File downloaded successfully")

def strncmpEq (text : String) (buffer : Bytes) : Bool := (ascii text).isPrefixOf buffer

/-- The dispatch; `openOk` is what `fopen` for writing returns. -/
def command (cfg : Config) (openOk : Bool) (buffer : Bytes) (s : State) : Option State :=
  if strncmpEq "help" buffer then
    s.respond (ascii "Available commands are: list, readF, writeT, upload, download, quit, killServer")
  else if strncmpEq "list" buffer then list cfg s
  else if strncmpEq "readF" buffer then (stringAt buffer 6).bind (fun args => readF cfg args s)
  else if strncmpEq "writeT" buffer then
    (stringAt buffer 7).bind (fun args => writeT cfg openOk args s)
  else if strncmpEq "upload" buffer then
    (stringAt buffer 7).bind (fun args => upload cfg openOk args s)
  else if strncmpEq "download" buffer then
    (stringAt buffer 9).bind (fun args => download cfg args s)
  else if strncmpEq "quit" buffer then
    (s.respond (ascii "Quitting...")).map (fun s => { s with next := .closed })
  else if strncmpEq "killServer" buffer then
    (s.respond (ascii "Server is shutting down...")).map (fun s => { s with next := .exited })
  else s.respond (ascii "Invalid command")

/-- One turn of the loop on a block: the state after it and the reply sent. -/
def handle (cfg : Config) (openOk : Bool) (block : Bytes) (s : State) : Option (State × Bytes) :=
  (command cfg openOk (received block) s).bind (fun s =>
    (stringAt s.response 0).map (fun reply => (s, reply)))

end CSE344.BiboServer
