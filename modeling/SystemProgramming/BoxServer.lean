import SystemProgramming.CString

/-!
# The BibakBOX server's side of one connection

`handleClient` as a machine that is fed what `recv` returns. The receive
buffer is memory: the operation and the file name are offsets into it, and a
file body received later overwrites them. Files are named by the path strings
handed to the library. The arrays `filePath` and `logFile` are taken to be
long enough; a store past `buffer` and a null operation end in `undefined`.
-/

set_option autoImplicit false

namespace CSE344.BoxServer
open CString

def bufferSize : ℕ := 1024

/-- A message of the command loop with the two tokens found in it. -/
structure Request where
  message : Bytes
  operation : Option Bytes
  filename : Option Bytes
  deriving DecidableEq, Repr

inductive Mode where
  | hello
  | listing (rest : List Bytes)
  | command
  | transfer (path : Bytes) (filename : ℕ)
  | closed
  | undefined
  deriving DecidableEq, Repr

structure Config where
  directory : Bytes
  readDir : Bytes → Option (List Bytes)

/-- What the calls made while one block is handled return. -/
structure Outcome where
  removeOk : Bool
  fopenOk : Bool
  logOk : Bool
  stamp : Bytes

/-- One return of `recv`; the empty block stands for 0 and -1. -/
structure Recv where
  block : Bytes
  outcome : Outcome

/-- `requests`, `stored` and `logged` are histories: the messages the command
loop has parsed, the files whose transfer has ended with their content at
`fclose`, and the names passed to `writeLog`. -/
structure Conn where
  mode : Mode
  buffer : Bytes
  clientDir : Bytes
  files : Bytes → Option Bytes
  sent : List Bytes
  requests : List Request
  stored : List (Bytes × Bytes)
  logged : List Bytes

def accepted (buffer : Bytes) (files : Bytes → Option Bytes) : Conn where
  mode := .hello
  buffer := buffer
  clientDir := []
  files := files
  sent := []
  requests := []
  stored := []
  logged := []

def recvInto (block buffer : Bytes) : Bytes := block ++ buffer.drop block.length

/-- `buffer[numBytes] = '\0'` after a `recv` into the buffer. -/
def terminated (block buffer : Bytes) : Bytes := (recvInto block buffer).set block.length 0

/-- What `%s` prints for a pointer that may be null. -/
def printed (s : Option Bytes) : Bytes := s.getD (ascii "(null)")

def writeLog (o : Outcome) (message : Bytes) (s : Conn) : Conn :=
  let logFile := joinPath s.clientDir (ascii "logfile.txt")
  let line := ascii "[" ++ o.stamp ++ ascii "] " ++ message ++ ascii "\n"
  if o.logOk then
    { s with
      files := Function.update s.files logFile (some ((s.files logFile).getD [] ++ line))
      logged := s.logged ++ [message] }
  else { s with logged := s.logged ++ [message] }

/-- `fopen(filename, "wb")`, then the inner receive loop or `continue`. -/
def openTarget (o : Outcome) (filename : Option ℕ) (s : Conn) : Conn :=
  match filename with
  | none => s
  | some p =>
    if o.fopenOk then
      { s with
        mode := .transfer (cstrAt s.buffer p) p
        files := Function.update s.files (cstrAt s.buffer p) (some []) }
    else s

def removeFile (filename : Option ℕ) (s : Conn) : Conn :=
  let filePath := joinPath s.clientDir (printed (filename.map (cstrAt s.buffer)))
  { s with files := Function.update s.files filePath none }

def upload (o : Outcome) (filename : Option ℕ) (s : Conn) : Conn := openTarget o filename s

def delete (o : Outcome) (filename : Option ℕ) (s : Conn) : Conn :=
  if o.removeOk then
    writeLog o (printed (filename.map (cstrAt s.buffer))) (removeFile filename s)
  else s

def update (o : Outcome) (filename : Option ℕ) (s : Conn) : Conn :=
  if o.removeOk then openTarget o filename (removeFile filename s) else s

/-- The dispatch on the operation; `strcmp` of a null pointer is undefined. -/
def perform (o : Outcome) (operation : Option Bytes) (filename : Option ℕ) (s : Conn) : Conn :=
  match operation with
  | none => { s with mode := .undefined }
  | some op =>
    if op = ascii "upload" then upload o filename s
    else if op = ascii "delete" then delete o filename s
    else if op = ascii "update" then update o filename s
    else s

def colon : Bytes := ascii ":"

/-- One turn of the command loop on a block that `recv` has returned. -/
def receiveCommand (r : Recv) (s : Conn) : Conn :=
  if r.block = [] then { s with mode := .closed }
  else if bufferSize ≤ r.block.length then { s with mode := .undefined }
  else
    let op := strtok colon (terminated r.block s.buffer) 0
    let file := strtok colon op.mem op.save
    let operation := op.start.map (cstrAt file.mem)
    let filename := file.start.map (cstrAt file.mem)
    perform r.outcome operation file.start { s with
      buffer := file.mem
      requests := s.requests ++ [⟨r.block, operation, filename⟩] }

/-- One turn of the inner receive loop of an upload or an update. -/
def receiveBody (path : Bytes) (filename : ℕ) (r : Recv) (s : Conn) : Conn :=
  if r.block = [] then
    writeLog r.outcome (cstrAt s.buffer filename) { s with
      mode := .command
      stored := s.stored ++ [(path, (s.files path).getD [])] }
  else { s with
    buffer := recvInto r.block s.buffer
    files := Function.update s.files path (some ((s.files path).getD [] ++ r.block)) }

/-- The first `recv`: the client's directory, whose entries are then listed. -/
def receiveHello (cfg : Config) (r : Recv) (s : Conn) : Conn :=
  if r.block = [] then { s with mode := .closed }
  else if bufferSize ≤ r.block.length then { s with mode := .undefined }
  else
    let buffer := terminated r.block s.buffer
    let clientDir := snprintf 1028 (joinPath cfg.directory (cstrAt buffer 0))
    { s with
      buffer := buffer
      clientDir := clientDir
      mode := .listing ((cfg.readDir clientDir).getD []) }

def onRecv (cfg : Config) (r : Recv) (s : Conn) : Conn :=
  match s.mode with
  | .hello => receiveHello cfg r s
  | .command => receiveCommand r s
  | .transfer path filename => receiveBody path filename r s
  | _ => s

/-- One turn of the `readdir` loop of `synchronizeDirectory`. -/
def synchronizeDirectory (s : Conn) : Conn :=
  match s.mode with
  | .listing [] => { s with mode := .command }
  | .listing (name::rest) => { s with
      mode := .listing rest
      sent := if isDot name then s.sent else s.sent ++ [name] }
  | _ => s

/-- The listing run to its end. -/
def listed (s : Conn) : Conn :=
  match s.mode with
  | .listing rest => { s with
      mode := .command
      sent := s.sent ++ rest.filter (fun name => !isDot name) }
  | _ => s

def serve (cfg : Config) (rs : List Recv) (s : Conn) : Conn :=
  rs.foldl (fun s r => listed (onRecv cfg r s)) s

section Frame

variable (o : Outcome)

@[simp] theorem writeLog_mode (m : Bytes) (s : Conn) : (writeLog o m s).mode = s.mode := by
  unfold writeLog; split_ifs <;> rfl

@[simp] theorem writeLog_requests (m : Bytes) (s : Conn) :
    (writeLog o m s).requests = s.requests := by
  unfold writeLog; split_ifs <;> rfl

@[simp] theorem writeLog_stored (m : Bytes) (s : Conn) : (writeLog o m s).stored = s.stored := by
  unfold writeLog; split_ifs <;> rfl

@[simp] theorem writeLog_clientDir (m : Bytes) (s : Conn) :
    (writeLog o m s).clientDir = s.clientDir := by
  unfold writeLog; split_ifs <;> rfl

@[simp] theorem removeFile_mode (p : Option ℕ) (s : Conn) : (removeFile p s).mode = s.mode := rfl

@[simp] theorem removeFile_requests (p : Option ℕ) (s : Conn) :
    (removeFile p s).requests = s.requests := rfl

@[simp] theorem removeFile_stored (p : Option ℕ) (s : Conn) :
    (removeFile p s).stored = s.stored := rfl

@[simp] theorem removeFile_buffer (p : Option ℕ) (s : Conn) :
    (removeFile p s).buffer = s.buffer := rfl

@[simp] theorem openTarget_requests (p : Option ℕ) (s : Conn) :
    (openTarget o p s).requests = s.requests := by
  unfold openTarget; split <;> [rfl; (split_ifs <;> rfl)]

@[simp] theorem openTarget_stored (p : Option ℕ) (s : Conn) :
    (openTarget o p s).stored = s.stored := by
  unfold openTarget; split <;> [rfl; (split_ifs <;> rfl)]

theorem perform_requests (op : Option Bytes) (p : Option ℕ) (s : Conn) :
    (perform o op p s).requests = s.requests := by
  unfold perform upload delete update
  split
  · rfl
  · split_ifs <;> simp

theorem perform_stored (op : Option Bytes) (p : Option ℕ) (s : Conn) :
    (perform o op p s).stored = s.stored := by
  unfold perform upload delete update
  split
  · rfl
  · split_ifs <;> simp

end Frame

/-- What the two calls of `strtok` find in a message. -/
def tokens (text : Bytes) : Option Bytes × Option Bytes :=
  match nextToken colon text with
  | none => (none, none)
  | some (op, rest) => (some op, (nextToken colon rest).map Prod.fst)

theorem strtok_start (m : Bytes) (p : ℕ) :
    (strtok colon m p).start.map (cstrAt (strtok colon m p).mem) =
      (nextToken colon (cstrAt m p)).map Prod.fst := by
  have h := strtok_token colon m p
  cases hn : nextToken colon (cstrAt m p) with
  | none => simp_all
  | some tr =>
    obtain ⟨tok, rest⟩ := tr
    rw [hn] at h
    obtain ⟨q, hq, -, htok, -⟩ := h
    simp [hq, htok]

/-- The second call of `strtok` writes past the first token, so both tokens
can be read from the memory it leaves. -/
theorem strtok_pair (m : Bytes) :
    ((strtok colon m 0).start.map (cstrAt (strtok colon (strtok colon m 0).mem
        (strtok colon m 0).save).mem),
      (strtok colon (strtok colon m 0).mem (strtok colon m 0).save).start.map
        (cstrAt (strtok colon (strtok colon m 0).mem (strtok colon m 0).save).mem)) =
      tokens (cstrAt m 0) := by
  have h := strtok_token colon m 0
  have hsecond := strtok_start (strtok colon m 0).mem (strtok colon m 0).save
  unfold tokens
  cases hn : nextToken colon (cstrAt m 0) with
  | none =>
    rw [hn] at h
    obtain ⟨hstart, hmem, hsave⟩ := h
    rw [hmem] at hsecond
    simp only [hstart, hmem, hsecond, hsave]
    rfl
  | some tr =>
    obtain ⟨tok, rest⟩ := tr
    rw [hn] at h
    obtain ⟨q, hq, hle, htok, hrest⟩ := h
    rw [hrest] at hsecond
    simp only [hsecond, hq, Option.map_some, Prod.mk.injEq, and_true, Option.some.injEq]
    rw [strtok_keeps _ _ _ _ (by rw [htok]; exact hle), htok]

theorem cstrAt_terminated (block buffer : Bytes) :
    cstrAt (terminated block buffer) 0 = cstr block := by
  rw [terminated, recvInto, cstrAt_set _ _ _ (Nat.zero_le _), Nat.sub_zero, cstrAt,
    List.drop_zero, cstr_append_take]

theorem receiveCommand_parsed (block buffer : Bytes) {op name : Option Bytes} (hne : block ≠ [])
    (hlen : block.length < bufferSize) (h : tokens (cstr block) = (op, name)) :
    ∃ file mem, file.map (cstrAt mem) = name ∧ ∀ (o : Outcome) (s : Conn), s.buffer = buffer →
      receiveCommand ⟨block, o⟩ s = perform o op file
        { s with buffer := mem, requests := s.requests ++ [⟨block, op, name⟩] } := by
  have hpair := strtok_pair (terminated block buffer)
  rw [cstrAt_terminated, h, Prod.mk.injEq] at hpair
  refine ⟨_, _, hpair.2, fun o s hs => ?_⟩
  rw [receiveCommand, if_neg hne, if_neg (Nat.not_le.mpr hlen), hs]
  simp only [hpair.1, hpair.2]

end CSE344.BoxServer
