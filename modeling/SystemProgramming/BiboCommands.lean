import SystemProgramming.BiboAlone
import SystemProgramming.Scanf

/-!
# The text of a command and its fields

A received command stands at the start of the cleared buffer. Its keyword
selects the branch, and `strtok` takes the file name, the line and the rest of
a command that is written with single spaces.
-/

set_option autoImplicit false

namespace CSE344.BiboCommands
open CString Stdio BiboServer Scanf

/-- A file name as a command can carry it; `filepath` has room for its path. -/
structure FileName (cfg : Config) where
  bytes : Bytes
  ne_nil : bytes ≠ []
  noNul : 0 ∉ bytes
  noSpace : 32 ∉ bytes
  fits : (joinPath cfg.dirname bytes).length < 100

variable {cfg : Config}

/-- The command `readF f j`. -/
def readCommand (f : FileName cfg) (j : ℤ) : Bytes := ascii "readF " ++ (f.bytes ++ 32::print j)

/-- The command `writeT f k text`. -/
def writeCommand (f : FileName cfg) (k : ℤ) (text : Bytes) : Bytes :=
  ascii "writeT " ++ (f.bytes ++ 32::(print k ++ 32::text))

section Dispatch

variable {openOk : Bool} {buffer : Bytes} {s : State}

theorem strncmpEq_iff {text : String} : strncmpEq text buffer = true ↔ ascii text <+: buffer :=
  List.isPrefixOf_iff_prefix

theorem command_list (h : strncmpEq "list" buffer = true) :
    command cfg openOk buffer s = list cfg s := by
  obtain ⟨rest, rfl⟩ := strncmpEq_iff.mp h
  simp [command, strncmpEq, ascii]

theorem command_readF (h : strncmpEq "readF" buffer = true) :
    command cfg openOk buffer s = (stringAt buffer 6).bind (fun args => readF cfg args s) := by
  obtain ⟨rest, rfl⟩ := strncmpEq_iff.mp h
  simp [command, strncmpEq, ascii]

theorem command_writeT (h : strncmpEq "writeT" buffer = true) :
    command cfg openOk buffer s =
      (stringAt buffer 7).bind (fun args => writeT cfg openOk args s) := by
  obtain ⟨rest, rfl⟩ := strncmpEq_iff.mp h
  simp [command, strncmpEq, ascii]

theorem stringAt_received {block : Bytes} {p : ℕ} (h0 : 0 ∉ block)
    (hlen : block.length < bufferSize) (hp : p ≤ block.length) :
    stringAt (received block) p = some (block.drop p) := by
  obtain ⟨n, hn⟩ : ∃ n, bufferSize-block.length = n+1 := ⟨bufferSize-block.length-1, by omega⟩
  have hdrop : (received block).drop p = block.drop p ++ 0::List.replicate n 0 := by
    rw [received, hn, List.drop_append_of_le_length hp, List.replicate_succ]
  rw [stringAt, cstrAt, hdrop, if_pos (by simp), cstr_append_zero,
    cstr_of_noNul (fun h => h0 (List.mem_of_mem_drop h))]

end Dispatch

section Fields

variable {name line text : Bytes}

theorem noSpace_delim {w : Bytes} (h : 32 ∉ w) : ∀ b ∈ w, b ∉ space := by
  rintro b hb hs
  obtain rfl : b = 32 := by simpa [space, ascii] using hs
  exact h hb

theorem fields_line (hname : name ≠ []) (hspace : 32 ∉ name) (hline : line ≠ [])
    (hspace' : 32 ∉ line) : fields (name ++ 32::line) = ⟨some name, some line, none⟩ := by
  rw [fields, nextToken_delim hname (noSpace_delim hspace) (by decide)]
  dsimp only
  rw [nextToken_whole hline (noSpace_delim hspace')]
  rfl

theorem fields_text (hname : name ≠ []) (hspace : 32 ∉ name) (hline : line ≠ [])
    (hspace' : 32 ∉ line) (htext : text ≠ []) :
    fields (name ++ 32::(line ++ 32::text)) = ⟨some name, some line, some text⟩ := by
  rw [fields, nextToken_delim hname (noSpace_delim hspace) (by decide)]
  dsimp only
  rw [nextToken_delim hline (noSpace_delim hspace') (by decide)]
  dsimp only
  rw [nextToken_whole htext (fun _ _ => List.not_mem_nil)]
  rfl

end Fields

section Commands

variable (f : FileName cfg) {j : ℤ} {text : Bytes}

theorem FileName.length : f.bytes.length < 100 := by
  have h := f.fits
  rw [joinPath, List.length_append, List.length_append] at h
  omega

theorem lineNum_print (hj : -2^31 ≤ j ∧ j < 2^31) (filename text : Option Bytes) :
    Fields.lineNum ⟨filename, some (print j), text⟩ = j := by
  have hatoi : atoi (print j ++ []) = j := atoi_print hj (by simp)
  rwa [List.append_nil] at hatoi

theorem fields_readCommand (hj : -2^31 ≤ j ∧ j < 2^31) :
    fields (f.bytes ++ 32::print j) = ⟨some f.bytes, some (print j), none⟩ ∧
      Fields.lineNum ⟨some f.bytes, some (print j), none⟩ = j := by
  constructor
  · exact fields_line f.ne_nil f.noSpace (print_word j).ne_nil (noSpace_print j)
  · exact lineNum_print hj _ _

theorem fields_writeCommand (hj : -2^31 ≤ j ∧ j < 2^31) (hne : text ≠ []) :
    fields (f.bytes ++ 32::(print j ++ 32::text)) = ⟨some f.bytes, some (print j), some text⟩ ∧
      Fields.lineNum ⟨some f.bytes, some (print j), some text⟩ = j := by
  constructor
  · exact fields_text f.ne_nil f.noSpace (print_word j).ne_nil (noSpace_print j) hne
  · exact lineNum_print hj _ _

theorem command_readCommand (openOk : Bool) (hj : -2^31 ≤ j ∧ j < 2^31) (s : State) :
    command cfg openOk (received (readCommand f j)) s =
      readF cfg (f.bytes ++ 32::print j) s := by
  have h0 : 0 ∉ readCommand f j := by
    simp only [readCommand, List.mem_append, List.mem_cons, not_or]
    exact ⟨by decide, f.noNul, by decide, noNul_print j⟩
  have hlen : (readCommand f j).length < bufferSize := by
    have hname := f.length
    have hprint := length_print hj
    simp only [readCommand, List.length_append, List.length_cons]
    show 6+_ < 1024
    omega
  have hkey : strncmpEq "readF" (received (readCommand f j)) = true := by
    rw [strncmpEq_iff]
    have hword : ascii "readF" <+: readCommand f j :=
      ⟨32::(f.bytes ++ 32::print j), by simp [readCommand, ascii]⟩
    exact hword.trans (List.prefix_append _ _)
  rw [command_readF hkey, stringAt_received h0 hlen (by
    simp only [readCommand, List.length_append]
    show 6 ≤ 6+_
    omega)]
  rfl

theorem command_writeCommand (openOk : Bool) (htext : 0 ∉ text)
    (hlen : (writeCommand f j text).length < bufferSize) (s : State) :
    command cfg openOk (received (writeCommand f j text)) s =
      writeT cfg openOk (f.bytes ++ 32::(print j ++ 32::text)) s := by
  have h0 : 0 ∉ writeCommand f j text := by
    simp only [writeCommand, List.mem_append, List.mem_cons, not_or]
    exact ⟨by decide, f.noNul, by decide, noNul_print j, by decide, htext⟩
  have hkey : strncmpEq "writeT" (received (writeCommand f j text)) = true := by
    rw [strncmpEq_iff]
    have hword : ascii "writeT" <+: writeCommand f j text :=
      ⟨32::(f.bytes ++ 32::(print j ++ 32::text)), by simp [writeCommand, ascii]⟩
    exact hword.trans (List.prefix_append _ _)
  rw [command_writeT hkey, stringAt_received h0 hlen (by
    simp only [writeCommand, List.length_append]
    show 7 ≤ 7+_
    omega)]
  rfl

end Commands

end CSE344.BiboCommands
