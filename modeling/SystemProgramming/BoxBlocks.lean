import SystemProgramming.BoxClient

/-!
# How the BibakBOX client reads a file

The three copies of the `fread` loop, each with the buffer that it reads into
and with the flags of the stream. The exit is only tested after a short read,
so a file of full blocks takes a turn more, which sends nothing.
-/

set_option autoImplicit false

namespace CSE344.BoxBlocks
open CString BoxClient

/-- The bytes that can still be read, and whether the read behind them fails
or comes to the end of the file. -/
structure Stream where
  rest : Bytes
  fails : Bool
  eof : Bool
  error : Bool
  deriving DecidableEq, Repr

/-- `fopen` of a file with this content, which can be read to its end. -/
def opened (content : Bytes) : Stream := ⟨content, false, false, false⟩

structure Read where
  bytesRead : ℕ
  buffer : Bytes
  file : Stream

/-- `fread(buffer, 1, n, file)` -/
def fread (n : ℕ) (buffer : Bytes) (file : Stream) : Read where
  bytesRead := (file.rest.take n).length
  buffer := file.rest.take n ++ buffer.drop (file.rest.take n).length
  file := { file with
    rest := file.rest.drop n
    eof := file.eof || (decide ((file.rest.take n).length < n) && !file.fails)
    error := file.error || (decide ((file.rest.take n).length < n) && file.fails) }

/-- The blocks that the loop sends, if it ends within `n` turns. -/
def sendLoop : ℕ → Bytes → Stream → Option (List Bytes)
  | 0, _, _ => none
  | n+1, buffer, file =>
    let r := fread bufferSize buffer file
    let sent := if 0 < r.bytesRead then [r.buffer.take r.bytesRead] else []
    if r.bytesRead < bufferSize then
      if r.file.eof then some sent
      else if r.file.error then some sent
      else (sendLoop n r.buffer r.file).map (sent ++ ·)
    else (sendLoop n r.buffer r.file).map (sent ++ ·)

/-- `sendFile`, with the array on its stack; `file` is what `fopen` returns. -/
def sendFile (n : ℕ) (filePath buffer : Bytes) (file : Option Stream) : Option (List Bytes) :=
  match file with
  | none => some []
  | some file => (sendLoop n buffer file).map ([ascii "upload:", filePath] ++ ·)

/-- A command of `main`, whose buffer holds the name and then the file. -/
def sendCommand (header : Bytes) (n : ℕ) (buffer : Bytes) (file : Option Stream) :
    Option (List Bytes) :=
  match file with
  | none => some [header, cstr buffer]
  | some file => (sendLoop n buffer file).map ([header, cstr buffer] ++ ·)

def upload : ℕ → Bytes → Option Stream → Option (List Bytes) := sendCommand (ascii "upload:")

def update : ℕ → Bytes → Option Stream → Option (List Bytes) := sendCommand (ascii "update:")

/-- The blocks are the file in order: none is empty, none comes twice. -/
structure Exact (content : Bytes) (blocks : List Bytes) : Prop where
  whole : blocks.flatten = content
  nonempty : ∀ b ∈ blocks, b ≠ []
  inPlace : ∀ i b, blocks[i]? = some b → b = (content.drop (bufferSize*i)).take bufferSize

section Loop

theorem fread_sent (n : ℕ) (buffer : Bytes) (file : Stream) :
    (fread n buffer file).buffer.take (fread n buffer file).bytesRead = file.rest.take n :=
  List.take_left

theorem sendLoop_blocks (n : ℕ) (buffer : Bytes) (file : Stream)
    (hn : file.rest.length < bufferSize*n) (heof : file.eof = false) (herror : file.error = false) :
    sendLoop n buffer file = some (freadLoop n file.rest) := by
  induction n generalizing buffer file with
  | zero => omega
  | succ n ih =>
    have hread : (fread bufferSize buffer file).bytesRead = min bufferSize file.rest.length :=
      List.length_take
    rw [sendLoop, freadLoop, fread_sent]
    by_cases hshort : file.rest.length < bufferSize
    · -- the last turn: one of the two flags is set
      have htake : file.rest.take bufferSize = file.rest := List.take_of_length_le (by omega)
      have hflags : (fread bufferSize buffer file).file.eof = !file.fails ∧
          (fread bufferSize buffer file).file.error = file.fails := by
        simp [fread, heof, herror, htake, hshort]
      rw [hread, Nat.min_eq_right (by omega), if_pos hshort, if_pos hshort, htake, hflags.1,
        hflags.2]
      have hsent : (if 0 < file.rest.length then [file.rest] else []) =
          if file.rest = [] then [] else [file.rest] := by
        cases file.rest <;> rfl
      rw [hsent]
      cases file.fails <;> rfl
    · -- a full block sets neither
      have hflags : (fread bufferSize buffer file).file.eof = false ∧
          (fread bufferSize buffer file).file.error = false := by
        simp [fread, heof, herror, hshort]
      have hpos : 0 < bufferSize := by decide
      rw [hread, Nat.min_eq_left (by omega), if_neg (by omega), if_neg hshort, if_pos hpos]
      rw [ih _ _ ?_ hflags.1 hflags.2]
      · rfl
      · show (file.rest.drop bufferSize).length < bufferSize*n
        rw [Nat.mul_succ] at hn
        rw [List.length_drop]
        omega

theorem freadLoop_inPlace (turns : ℕ) (content : Bytes) (i : ℕ) (b : Bytes)
    (h : (freadLoop turns content)[i]? = some b) :
    b = (content.drop (bufferSize*i)).take bufferSize := by
  induction turns generalizing content i with
  | zero => simp [freadLoop] at h
  | succ turns ih =>
    rw [freadLoop] at h
    split_ifs at h with hlast hnil
    · simp at h
    · cases i with
      | zero =>
        obtain rfl : content = b := by simpa using h
        exact (List.take_of_length_le (le_of_lt hlast)).symm
      | succ i => simp at h
    · cases i with
      | zero => simpa using h.symm
      | succ i =>
        rw [List.getElem?_cons_succ] at h
        rw [ih _ _ h, List.drop_drop, Nat.mul_succ, Nat.add_comm]

theorem fileBlocks_exact (content : Bytes) : Exact content (fileBlocks content) where
  whole := fileBlocks_flatten content
  nonempty b hb := List.length_pos_iff.mp (fileBlocks_size content b hb).1
  inPlace := freadLoop_inPlace _ content

/-- As many turns as the file needs. -/
def enough (content : Bytes) : ℕ := content.length/bufferSize+1

theorem sendLoop_opened (buffer content : Bytes) :
    sendLoop (enough content) buffer (opened content) = some (fileBlocks content) :=
  sendLoop_blocks _ buffer (opened content) (Nat.lt_mul_div_succ _ (by decide)) rfl rfl

/-- A read error ends the loop too, behind the bytes before it. -/
theorem sendLoop_failing (buffer readable : Bytes) :
    sendLoop (enough readable) buffer ⟨readable, true, false, false⟩ =
      some (fileBlocks readable) :=
  sendLoop_blocks _ buffer _ (Nat.lt_mul_div_succ _ (by decide)) rfl rfl

end Loop

section Requests

theorem sendFile_opened (filePath buffer content : Bytes) :
    sendFile (enough content) filePath buffer (some (opened content)) =
      some ([ascii "upload:", filePath] ++ fileBlocks content) := by
  rw [sendFile, sendLoop_opened]
  rfl

theorem sendCommand_opened (header buffer content : Bytes) :
    sendCommand header (enough content) buffer (some (opened content)) =
      some ([header, cstr buffer] ++ fileBlocks content) := by
  rw [sendCommand, sendLoop_opened]
  rfl

theorem sendFile_sends (filePath buffer content : Bytes) :
    (sendFile (enough content) filePath buffer (some (opened content))).map (fun m => [m]) =
      some (BoxClient.sendFile filePath (some content)) := by
  rw [sendFile_opened]
  rfl

theorem upload_sends (name : CStr) (buffer content : Bytes) (h : cstr buffer = name.bytes) :
    upload (enough content) buffer (some (opened content)) =
      some (Command.upload name (some content)).sends := by
  rw [upload, sendCommand_opened, h]
  rfl

theorem update_sends (name : CStr) (buffer content : Bytes) (h : cstr buffer = name.bytes) :
    update (enough content) buffer (some (opened content)) =
      some (Command.update name (some content)).sends := by
  rw [update, sendCommand_opened, h]
  rfl

/-- A file that is read to its end is sent exactly, by each copy of the loop. -/
theorem file_sent_exactly (content : Bytes) :
    (∀ filePath buffer, ∃ n blocks, sendFile n filePath buffer (some (opened content)) =
      some ([ascii "upload:", filePath] ++ blocks) ∧ Exact content blocks) ∧
    (∀ buffer, ∃ n blocks, upload n buffer (some (opened content)) =
      some ([ascii "upload:", cstr buffer] ++ blocks) ∧ Exact content blocks) ∧
    ∀ buffer, ∃ n blocks, update n buffer (some (opened content)) =
      some ([ascii "update:", cstr buffer] ++ blocks) ∧ Exact content blocks := by
  have hexact := fileBlocks_exact content
  refine ⟨fun filePath buffer => ?_, fun buffer => ?_, fun buffer => ?_⟩
  · exact ⟨enough content, _, sendFile_opened filePath buffer content, hexact⟩
  · exact ⟨enough content, _, sendCommand_opened _ buffer content, hexact⟩
  · exact ⟨enough content, _, sendCommand_opened _ buffer content, hexact⟩

end Requests

end CSE344.BoxBlocks
