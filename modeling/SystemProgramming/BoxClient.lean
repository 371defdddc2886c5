import SystemProgramming.CString

/-!
# What the BibakBOX client puts on the wire

Each request is the list of its `send` calls, in order: the header, the name
and, for a file, the blocks of the `fread` loop. The main thread sends one
request for each command typed, the synchronize thread the directory name,
the listing, and for each entry of each pass a check, perhaps a timestamp and
perhaps the file.
-/

set_option autoImplicit false

namespace CSE344.BoxClient
open CString

def bufferSize : ℕ := 1024

/-- The `fread`/`send` loop shared by `sendFile` and the two commands: the
last turn is the first one that reads less than a full buffer. -/
def freadLoop : ℕ → Bytes → List Bytes
  | 0, _ => []
  | turns+1, content =>
    if content.length < bufferSize then (if content = [] then [] else [content])
    else content.take bufferSize :: freadLoop turns (content.drop bufferSize)

def fileBlocks (content : Bytes) : List Bytes :=
  freadLoop (content.length/bufferSize+1) content

/-- A command of the main loop; `file` is what `fopen` of the name gives. -/
inductive Command where
  | upload (name : CStr) (file : Option Bytes)
  | delete (name : CStr)
  | update (name : CStr) (file : Option Bytes)

def bodyBlocks (file : Option Bytes) : List Bytes := file.elim [] fileBlocks

/-- The headers of the client's requests. -/
inductive Header where
  | upload
  | delete
  | update
  | check
  | timestamp
  deriving DecidableEq, Repr

def Header.bytes : Header → Bytes
  | .upload => ascii "upload:"
  | .delete => ascii "delete:"
  | .update => ascii "update:"
  | .check => ascii "check:"
  | .timestamp => ascii "timestamp:"

theorem Header.noNul (h : Header) : 0 ∉ h.bytes := by
  cases h <;> decide

theorem Header.bytes_ne_nil (h : Header) : h.bytes ≠ [] := by
  cases h <;> decide

def Command.header : Command → Header
  | .upload _ _ => .upload
  | .delete _ => .delete
  | .update _ _ => .update

def Command.name : Command → CStr
  | .upload name _ => name
  | .delete name => name
  | .update name _ => name

def Command.file : Command → Option Bytes
  | .upload _ file => file
  | .delete _ => none
  | .update _ file => file

def Command.body (c : Command) : Bytes := c.file.getD []

def request (h : Header) (name : CStr) : List Bytes := [h.bytes, name.bytes]

def Command.sends (c : Command) : List Bytes := request c.header c.name ++ bodyBlocks c.file

/-- What `synchronize` sends before its loop: the directory name and what
`synchronizeDirectory` lists of it. -/
def hello (clientDir : CStr) (entries : List CStr) : List Bytes :=
  clientDir.bytes :: (entries.filter (fun e => !isDot e.bytes)).map CStr.bytes

theorem hello_noNul (clientDir : CStr) (entries : List CStr) :
    ∀ m ∈ hello clientDir entries, 0 ∉ m := by
  intro m hm
  rcases List.mem_cons.mp hm with rfl | hm
  · exact clientDir.noNul
  · obtain ⟨e, -, rfl⟩ := List.mem_map.mp hm
    exact e.noNul

/-- The file is sent only if `fopen` gives it. -/
def sendFile (filePath : Bytes) (file : Option Bytes) : List (List Bytes) :=
  file.elim [] (fun content => [[Header.upload.bytes, filePath] ++ fileBlocks content])

/-- A directory entry with the local file's content and time. -/
structure Entry where
  name : CStr
  file : Option Bytes
  mtime : ℤ
  deriving DecidableEq

/-- An entry with what the two calls of `recv` return for it; `none` stands
for 0 and -1. -/
structure Visit where
  entry : Entry
  checkReply : Option Bytes
  stampReply : Option Bytes

def saysExists (reply : Bytes) : Bool := cstr reply = ascii "exists"

def isNewer (reply : Bytes) (mtime : ℤ) : Bool := mtime < strtol (cstr reply)

def Entry.send (clientDir : CStr) (e : Entry) : List (List Bytes) :=
  sendFile (joinPath clientDir.bytes e.name.bytes) e.file

/-- The requests for one entry, and whether `recv` failed, which ends the
pass. -/
def Visit.requests (clientDir : CStr) (v : Visit) : List (List Bytes) × Bool :=
  match v.checkReply with
  | none => ([request .check v.entry.name], true)
  | some reply =>
    if saysExists reply then
      match v.stampReply with
      | none => ([request .check v.entry.name, request .timestamp v.entry.name], true)
      | some stamp =>
        ([request .check v.entry.name, request .timestamp v.entry.name] ++
          if isNewer stamp v.entry.mtime then v.entry.send clientDir else [], false)
    else (request .check v.entry.name :: v.entry.send clientDir, false)

/-- One pass of the `while (1)` loop of `synchronize` over the directory. -/
def passRequests (clientDir : CStr) : List Visit → List (List Bytes)
  | [] => []
  | v::vs =>
    if isDot v.entry.name.bytes then passRequests clientDir vs
    else (v.requests clientDir).1 ++
      if (v.requests clientDir).2 then [] else passRequests clientDir vs

/-- The requests of the synchronize thread: the directory name, the listing
and the passes. -/
def synchronizeRequests (clientDir : CStr) (listing : List CStr) (passes : List (List Visit)) :
    List (List Bytes) :=
  [clientDir.bytes] :: (hello clientDir listing).tail :: passes.flatMap (passRequests clientDir)

theorem freadLoop_flatten (turns : ℕ) (content : Bytes)
    (h : content.length < bufferSize*turns) : (freadLoop turns content).flatten = content := by
  induction turns generalizing content with
  | zero => omega
  | succ turns ih =>
    rw [freadLoop]
    split_ifs with hlast hnil
    · exact hnil.symm
    · exact List.flatten_singleton
    · rw [List.flatten_cons, ih _ (by rw [List.length_drop, bufferSize] at *; omega),
        List.take_append_drop]

theorem fileBlocks_flatten (content : Bytes) : (fileBlocks content).flatten = content :=
  freadLoop_flatten _ _ (Nat.lt_mul_div_succ _ (by decide))

theorem freadLoop_size (turns : ℕ) (content : Bytes) :
    ∀ b ∈ freadLoop turns content, 1 ≤ b.length ∧ b.length ≤ bufferSize := by
  induction turns generalizing content with
  | zero => simp [freadLoop]
  | succ turns ih =>
    intro b hb
    rw [freadLoop] at hb
    split_ifs at hb with hlast hnil
    · cases hb
    · have := List.length_pos_iff.mpr hnil
      rw [List.mem_singleton.mp hb]
      omega
    · rcases List.mem_cons.mp hb with rfl | hb
      · simp only [List.length_take, bufferSize] at *
        omega
      · exact ih _ b hb

theorem fileBlocks_size (content : Bytes) :
    ∀ b ∈ fileBlocks content, 1 ≤ b.length ∧ b.length ≤ bufferSize :=
  freadLoop_size _ content

theorem bodyBlocks_flatten (file : Option Bytes) :
    (bodyBlocks file).flatten = file.getD [] := by
  cases file with
  | none => rfl
  | some content => exact fileBlocks_flatten content

theorem bodyBlocks_ne_nil (file : Option Bytes) : ∀ b ∈ bodyBlocks file, b ≠ [] := by
  intro b hb
  cases file with
  | none => cases hb
  | some content => exact List.length_pos_iff.mp (fileBlocks_size content b hb).1

theorem bodyBlocks_eq_nil (file : Option Bytes) : bodyBlocks file = [] ↔ file.getD [] = [] := by
  rw [← bodyBlocks_flatten]
  constructor
  · intro h
    rw [h, List.flatten_nil]
  · intro h
    refine List.eq_nil_iff_forall_not_mem.mpr (fun b hb => ?_)
    exact bodyBlocks_ne_nil file b hb (List.flatten_eq_nil_iff.mp h b hb)

end CSE344.BoxClient
