import SystemProgramming.FifoSession
import SystemProgramming.Scanf

/-!
# The request grammar of the midterm server

`handle_client` compares the text with the plain commands and tries six formats
on it, in a fixed order. `%d` stops in the middle of a word and a blank in a
format also matches no blank, so an earlier format may take a text that is
meant for a later one, and a word glued to a keyword still counts as one.
-/

set_option autoImplicit false

namespace CSE344.RequestGrammar
open CString Scanf

/-- A command with its fields; `invalid` is the answer to everything else. -/
inductive Request where
  | help
  | list
  | readF (file : Bytes) (line : Option ℤ)
  | writeT (file : Bytes) (line : Option ℤ) (string : Bytes)
  | upload (file : Bytes)
  | download (file : Bytes)
  | quit
  | killServer
  | invalid
  deriving DecidableEq, Repr

def exactly (word : String) (r : Request) (text : Bytes) : Option Request :=
  if text = ascii word then some r else none

def scanned (fmt : String) (build : List Field → Option Request) (text : Bytes) :
    Option Request :=
  build (sscanf (format (ascii fmt)) text)

def readFLine : List Field → Option Request
  | [.string file, .int line] => some (.readF file (some line))
  | _ => none

def readFWhole : List Field → Option Request
  | [.string file] => some (.readF file none)
  | _ => none

def writeTLine : List Field → Option Request
  | [.string file, .int line, .string string] => some (.writeT file (some line) string)
  | _ => none

def writeTEnd : List Field → Option Request
  | [.string file, .string string] => some (.writeT file none string)
  | _ => none

def uploadFile : List Field → Option Request
  | [.string file] => some (.upload file)
  | _ => none

def downloadFile : List Field → Option Request
  | [.string file] => some (.download file)
  | _ => none

/-- The branches of `handle_client` in their order. -/
def cascade : List (Bytes → Option Request) :=
  [exactly "help" .help,
   exactly "list" .list,
   scanned "readF %s %d" readFLine,
   scanned "readF %s" readFWhole,
   scanned "writeT %s %d %s" writeTLine,
   scanned "writeT %s %s" writeTEnd,
   scanned "upload %s" uploadFile,
   scanned "download %s" downloadFile,
   exactly "quit" .quit,
   exactly "killServer" .killServer]

def request (text : Bytes) : Request := (cascade.findSome? (fun f => f text)).getD .invalid

/-- What `handle_client` makes of its array `buffer`. -/
def dispatch (buffer : Bytes) : Request := request (cstr buffer)

def Request.words : Request → List Bytes
  | .help => [ascii "help"]
  | .list => [ascii "list"]
  | .readF file line => [ascii "readF", file] ++ line.toList.map print
  | .writeT file line string => [ascii "writeT", file] ++ line.toList.map print ++ [string]
  | .upload file => [ascii "upload", file]
  | .download file => [ascii "download", file]
  | .quit => [ascii "quit"]
  | .killServer => [ascii "killServer"]
  | .invalid => []

/-- Keyword and fields joined with single spaces. -/
def Request.text (r : Request) : Bytes := [32].intercalate r.words

def Request.file : Request → Option Bytes
  | .readF file _ => some file
  | .writeT file _ _ => some file
  | .upload file => some file
  | .download file => some file
  | _ => none

def Request.line : Request → Option ℤ
  | .readF _ line => line
  | .writeT _ line _ => line
  | _ => none

def Request.string : Request → Option Bytes
  | .writeT _ _ string => some string
  | _ => none

/-- A command value that a client may send. -/
structure WellFormed (r : Request) : Prop where
  command : r ≠ .invalid
  file : ∀ f ∈ r.file, Word f ∧ 0 ∉ f ∧ f.length < 256
  line : ∀ n ∈ r.line, -2^31 ≤ n ∧ n < 2^31
  string : ∀ s ∈ r.string, Word s ∧ 0 ∉ s
  short : r.text.length < 1024

def keywords : List Bytes :=
  [ascii "help", ascii "list", ascii "readF", ascii "writeT", ascii "upload", ascii "download",
    ascii "quit", ascii "killServer"]

def firstWord (text : Bytes) : Bytes := (text.dropWhile isSpace).takeWhile (!isSpace ·)

/-- What stands behind the first word, without the blanks before it. -/
def behind (text : Bytes) : Bytes := (text.dropWhile (!isSpace ·)).dropWhile isSpace

/-- A string for the end of a file that begins with a number and goes on behind it. -/
def Captured : Request → Prop
  | .writeT _ none string =>
    (unsigned string).takeWhile isDigit ≠ [] ∧ (unsigned string).dropWhile isDigit ≠ []
  | _ => False

/-- A keyword that more is glued to; behind `writeT` a second word is needed. -/
def Glued (text : Bytes) : Prop :=
  ascii "readF" <+: text ∨ ascii "upload" <+: text ∨ ascii "download" <+: text ∨
    (ascii "writeT" <+: text ∧ behind text ≠ [])

section Formats

theorem format_readFLine : format (ascii "readF %s %d") =
    (ascii "readF").map .literal ++ [Directive.blank, .string, .blank, .int] := by decide

theorem format_readFWhole : format (ascii "readF %s") =
    (ascii "readF").map .literal ++ [Directive.blank, .string] := by decide

theorem format_writeTLine : format (ascii "writeT %s %d %s") =
    (ascii "writeT").map .literal ++ [Directive.blank, .string, .blank, .int, .blank, .string] := by
  decide

theorem format_writeTEnd : format (ascii "writeT %s %s") =
    (ascii "writeT").map .literal ++ [Directive.blank, .string, .blank, .string] := by decide

theorem format_upload : format (ascii "upload %s") =
    (ascii "upload").map .literal ++ [Directive.blank, .string] := by decide

theorem format_download : format (ascii "download %s") =
    (ascii "download").map .literal ++ [Directive.blank, .string] := by decide

end Formats

section Cascade

variable {word fmt : String} {ds : List Directive} {build : List Field → Option Request}

theorem scanned_word (hfmt : format (ascii fmt) = (ascii word).map .literal ++ ds)
    (rest : Bytes) : scanned fmt build (ascii word ++ rest) = build (sscanf ds rest) := by
  rw [scanned, hfmt, sscanf_literals]

theorem scanned_other (hbuild : build [] = none)
    (hfmt : format (ascii fmt) = (ascii word).map .literal ++ ds) {text : Bytes}
    (h : ¬ ascii word <+: text) : scanned fmt build text = none := by
  rw [scanned, hfmt, sscanf_other ds h]
  exact hbuild

section Others

variable {text : Bytes}

theorem readF_other (h : ¬ ascii "readF" <+: text) :
    scanned "readF %s %d" readFLine text = none ∧ scanned "readF %s" readFWhole text = none :=
  ⟨scanned_other rfl format_readFLine h, scanned_other rfl format_readFWhole h⟩

theorem writeT_other (h : ¬ ascii "writeT" <+: text) :
    scanned "writeT %s %d %s" writeTLine text = none ∧
      scanned "writeT %s %s" writeTEnd text = none :=
  ⟨scanned_other rfl format_writeTLine h, scanned_other rfl format_writeTEnd h⟩

theorem upload_other (h : ¬ ascii "upload" <+: text) :
    scanned "upload %s" uploadFile text = none := scanned_other rfl format_upload h

theorem download_other (h : ¬ ascii "download" <+: text) :
    scanned "download %s" downloadFile text = none := scanned_other rfl format_download h

end Others

theorem first_letter {word text : Bytes} (hne : word ≠ []) (h : word <+: text) :
    word.head? = text.head? := by
  obtain ⟨rest, rfl⟩ := h
  rw [List.head?_append_of_ne_nil _ hne]

theorem other_word {word word' : Bytes} {a b : UInt8} (h : word.head? = some a)
    (h' : word'.head? = some b) (hne : a ≠ b) (rest : Bytes) : ¬ word <+: word'++rest := by
  have hword : word ≠ [] := by
    rintro rfl
    cases h
  have hword' : word' ≠ [] := by
    rintro rfl
    cases h'
  intro hp
  have hfirst := first_letter hword hp
  rw [← first_letter hword' (List.prefix_append word' rest), h, h'] at hfirst
  exact hne (Option.some.inj hfirst)

theorem head_readF : (ascii "readF").head? = some 114 := rfl

theorem head_writeT : (ascii "writeT").head? = some 119 := rfl

theorem head_upload : (ascii "upload").head? = some 117 := rfl

theorem head_download : (ascii "download").head? = some 100 := rfl

variable (rest : Bytes)

theorem request_readF : request (ascii "readF" ++ rest) =
    ((readFLine (sscanf [.blank, .string, .blank, .int] rest)).or
      (readFWhole (sscanf [.blank, .string] rest))).getD .invalid := by
  have hhelp : exactly "help" .help (ascii "readF" ++ rest) = none := rfl
  have hlist : exactly "list" .list (ascii "readF" ++ rest) = none := rfl
  simp only [request, cascade, List.findSome?_cons, hhelp, hlist,
    scanned_word format_readFLine, scanned_word format_readFWhole]
  cases readFLine (sscanf [.blank, .string, .blank, .int] rest) with
  | some r => rfl
  | none => cases readFWhole (sscanf [.blank, .string] rest) <;> rfl

theorem request_writeT : request (ascii "writeT" ++ rest) =
    ((writeTLine (sscanf [.blank, .string, .blank, .int, .blank, .string] rest)).or
      (writeTEnd (sscanf [.blank, .string, .blank, .string] rest))).getD .invalid := by
  have hhelp : exactly "help" .help (ascii "writeT" ++ rest) = none := rfl
  have hlist : exactly "list" .list (ascii "writeT" ++ rest) = none := rfl
  have hread : ¬ ascii "readF" <+: ascii "writeT" ++ rest :=
    other_word head_readF head_writeT (by decide) rest
  simp only [request, cascade, List.findSome?_cons, hhelp, hlist,
    readF_other hread, scanned_word format_writeTLine, scanned_word format_writeTEnd]
  cases writeTLine (sscanf [.blank, .string, .blank, .int, .blank, .string] rest) with
  | some r => rfl
  | none => cases writeTEnd (sscanf [.blank, .string, .blank, .string] rest) <;> rfl

theorem request_upload : request (ascii "upload" ++ rest) =
    (uploadFile (sscanf [.blank, .string] rest)).getD .invalid := by
  have hhelp : exactly "help" .help (ascii "upload" ++ rest) = none := rfl
  have hlist : exactly "list" .list (ascii "upload" ++ rest) = none := rfl
  have hread : ¬ ascii "readF" <+: ascii "upload" ++ rest :=
    other_word head_readF head_upload (by decide) rest
  have hwrite : ¬ ascii "writeT" <+: ascii "upload" ++ rest :=
    other_word head_writeT head_upload (by decide) rest
  simp only [request, cascade, List.findSome?_cons, hhelp, hlist,
    readF_other hread, writeT_other hwrite, scanned_word format_upload]
  cases uploadFile (sscanf [.blank, .string] rest) <;> rfl

theorem request_download : request (ascii "download" ++ rest) =
    (downloadFile (sscanf [.blank, .string] rest)).getD .invalid := by
  have hhelp : exactly "help" .help (ascii "download" ++ rest) = none := rfl
  have hlist : exactly "list" .list (ascii "download" ++ rest) = none := rfl
  have hread : ¬ ascii "readF" <+: ascii "download" ++ rest :=
    other_word head_readF head_download (by decide) rest
  have hwrite : ¬ ascii "writeT" <+: ascii "download" ++ rest :=
    other_word head_writeT head_download (by decide) rest
  have hup : ¬ ascii "upload" <+: ascii "download" ++ rest :=
    other_word head_upload head_download (by decide) rest
  simp only [request, cascade, List.findSome?_cons, hhelp, hlist,
    readF_other hread, writeT_other hwrite, upload_other hup, scanned_word format_download]
  cases downloadFile (sscanf [.blank, .string] rest) <;> rfl

theorem request_plain {text : Bytes} (hread : ¬ ascii "readF" <+: text)
    (hwrite : ¬ ascii "writeT" <+: text) (hup : ¬ ascii "upload" <+: text)
    (hdown : ¬ ascii "download" <+: text) :
    request text = if text = ascii "help" then .help else if text = ascii "list" then .list
      else if text = ascii "quit" then .quit else if text = ascii "killServer" then .killServer
      else .invalid := by
  simp only [request, cascade, List.findSome?_cons, List.findSome?_nil, readF_other hread,
    writeT_other hwrite, upload_other hup, download_other hdown, exactly]
  split_ifs <;> rfl

end Cascade

section Fields

theorem ends_nil : Ends [] := nofun

theorem ends_blank (rest : Bytes) : Ends (32::rest) := by
  rintro b ⟨⟩
  rfl

variable (ds : List Directive)

theorem sscanf_string {w rest : Bytes} (hw : Word w) (hr : Ends rest) :
    sscanf (.blank::.string::ds) (32 :: (w++rest)) = .string w :: sscanf ds rest := by
  have hskip : (32 :: (w++rest)).dropWhile isSpace = w++rest := skip_word hw rest
  simp only [sscanf, hskip, scanString_word hw hr]

theorem sscanf_int {n : ℤ} (hn : -2^31 ≤ n ∧ n < 2^31) {rest : Bytes} (hr : Ends rest) :
    sscanf (.blank::.int::ds) (32 :: (print n ++ rest)) = .int n :: sscanf ds rest := by
  have hskip : (32 :: (print n ++ rest)).dropWhile isSpace = print n ++ rest :=
    skip_word (print_word n) rest
  have hdigit : ∀ b ∈ rest.head?, isDigit b = false := by
    intro b hb
    by_contra hd
    have := isSpace_of_isDigit (Bool.of_not_eq_false hd)
    rw [hr b hb] at this
    cases this
  simp only [sscanf, hskip, scanInt_print hn hdigit]

theorem sscanf_blank_string (s : Bytes) : sscanf (.blank::.string::ds) s =
    (scanString s).elim [] (fun p => .string p.1 :: sscanf ds p.2) := by
  simp only [sscanf, scanString_skip]
  cases scanString s <;> rfl

theorem sscanf_blank_int (s : Bytes) : sscanf (.blank::.int::ds) s =
    (scanInt s).elim [] (fun p => .int p.1 :: sscanf ds p.2) := by
  have hskip : scanInt (s.dropWhile isSpace) = scanInt s := by simp only [scanInt, skip_skip]
  simp only [sscanf, hskip]
  cases scanInt s <;> rfl

end Fields

section RoundTrip

variable {file string : Bytes} {n : ℤ}

theorem request_readF_line (hf : Word file) (hn : -2^31 ≤ n ∧ n < 2^31) :
    request (Request.text (.readF file (some n))) = .readF file (some n) := by
  have htext : Request.text (.readF file (some n)) =
      ascii "readF" ++ 32 :: (file ++ 32 :: (print n ++ [])) := by
    simp [Request.text, Request.words]
  rw [htext, request_readF, sscanf_string _ hf (ends_blank _), sscanf_int _ hn ends_nil]
  rfl

theorem request_readF_whole (hf : Word file) :
    request (Request.text (.readF file none)) = .readF file none := by
  have htext : Request.text (.readF file none) = ascii "readF" ++ 32 :: (file ++ []) := by
    simp [Request.text, Request.words]
  rw [htext, request_readF, sscanf_string _ hf ends_nil, sscanf_string _ hf ends_nil]
  rfl

theorem request_writeT_line (hf : Word file) (hn : -2^31 ≤ n ∧ n < 2^31) (hs : Word string) :
    request (Request.text (.writeT file (some n) string)) = .writeT file (some n) string := by
  have htext : Request.text (.writeT file (some n) string) =
      ascii "writeT" ++ 32 :: (file ++ 32 :: (print n ++ 32 :: (string ++ []))) := by
    simp [Request.text, Request.words]
  rw [htext, request_writeT, sscanf_string _ hf (ends_blank _), sscanf_int _ hn (ends_blank _),
    sscanf_string _ hs ends_nil]
  rfl

theorem request_upload_file (hf : Word file) :
    request (Request.text (.upload file)) = .upload file := by
  have htext : Request.text (.upload file) = ascii "upload" ++ 32 :: (file ++ []) := by
    simp [Request.text, Request.words]
  rw [htext, request_upload, sscanf_string _ hf ends_nil]
  rfl

theorem request_download_file (hf : Word file) :
    request (Request.text (.download file)) = .download file := by
  have htext : Request.text (.download file) = ascii "download" ++ 32 :: (file ++ []) := by
    simp [Request.text, Request.words]
  rw [htext, request_download, sscanf_string _ hf ends_nil]
  rfl

theorem scanString_nonblank {s : Bytes} (hne : s ≠ []) (hs : ∀ b ∈ s, isSpace b = false) :
    scanString s = some (s, []) := by
  have h := scanString_word ⟨hne, hs⟩ ends_nil
  rwa [List.append_nil] at h

theorem request_writeT_end (hf : Word file) (hs : Word string) :
    request (Request.text (.writeT file none string)) = .writeT file none string ↔
      ¬ Captured (.writeT file none string) := by
  have htext : Request.text (.writeT file none string) =
      ascii "writeT" ++ 32 :: (file ++ 32 :: (string ++ [])) := by
    simp [Request.text, Request.words]
  have hend : sscanf [.blank, .string, .blank, .string] (32 :: (file ++ 32 :: (string ++ []))) =
      [.string file, .string string] := by
    rw [sscanf_string _ hf (ends_blank _), sscanf_string _ hs ends_nil]
    rfl
  have hskip : (32::string).dropWhile isSpace = string := by
    have h := skip_word hs []
    rw [List.append_nil] at h
    exact h
  have hint : scanInt (32::string) = if (unsigned string).takeWhile isDigit = [] then none
      else some (Stdio.atoi string, (unsigned string).dropWhile isDigit) := by
    simp only [scanInt, hskip]
  rw [htext, request_writeT, hend, sscanf_string _ hf (ends_blank _), List.append_nil,
    sscanf_blank_int, hint]
  unfold Captured
  split_ifs with hdigits
  · simp [hdigits, writeTLine, writeTEnd]
  · by_cases hrest : (unsigned string).dropWhile isDigit = []
    · simp [hrest, sscanf, scanString, writeTLine, writeTEnd]
    · have hnonblank : ∀ b ∈ (unsigned string).dropWhile isDigit, isSpace b = false := by
        intro b hb
        apply hs.nonblank
        exact (unsigned_suffix string).subset (List.dropWhile_suffix isDigit |>.subset hb)
      have hstring : sscanf [.blank, .string] ((unsigned string).dropWhile isDigit) =
          [.string ((unsigned string).dropWhile isDigit)] := by
        rw [sscanf_blank_string, scanString_nonblank hrest hnonblank]
        rfl
      simp [hdigits, hrest, hstring, writeTLine]

/-- A well-formed command is read back from its text unless its string is captured. -/
theorem request_text {r : Request} (h : WellFormed r) : request r.text = r ↔ ¬ Captured r := by
  cases r with
  | help => simp only [Captured, not_false_eq_true, iff_true]; rfl
  | list => simp only [Captured, not_false_eq_true, iff_true]; rfl
  | readF file line =>
    have hf := (h.file file rfl).1
    simp only [Captured, not_false_eq_true, iff_true]
    cases line with
    | none => exact request_readF_whole hf
    | some n => exact request_readF_line hf (h.line n rfl)
  | writeT file line string =>
    have hf := (h.file file rfl).1
    have hs := (h.string string rfl).1
    cases line with
    | none => exact request_writeT_end hf hs
    | some n =>
      simp only [Captured, not_false_eq_true, iff_true]
      exact request_writeT_line hf (h.line n rfl) hs
  | upload file =>
    simp only [Captured, not_false_eq_true, iff_true]
    exact request_upload_file (h.file file rfl).1
  | download file =>
    simp only [Captured, not_false_eq_true, iff_true]
    exact request_download_file (h.file file rfl).1
  | quit => simp only [Captured, not_false_eq_true, iff_true]; rfl
  | killServer => simp only [Captured, not_false_eq_true, iff_true]; rfl
  | invalid => exact absurd rfl h.command

end RoundTrip

section Invalid

theorem glued_word {word rest : Bytes} (hw : Word word) (h : firstWord (word++rest) ≠ word) :
    ∃ w t, scanString rest = some (w, t) ∧ behind (word++rest) = t.dropWhile isSpace := by
  cases rest with
  | nil =>
    apply absurd _ h
    rw [firstWord, skip_word hw]
    exact (takeWhile_word hw ends_nil).1
  | cons b rest =>
    by_cases hb : isSpace b = true
    · apply absurd _ h
      rw [firstWord, skip_word hw]
      apply (takeWhile_word hw _).1
      rintro c ⟨⟩
      exact hb
    · have hskip : (b::rest).dropWhile isSpace = b::rest := List.dropWhile_cons_of_neg hb
      refine ⟨(b::rest).takeWhile (!isSpace ·), (b::rest).dropWhile (!isSpace ·), ?_, ?_⟩
      · simp only [scanString, hskip]
        rw [if_neg (List.cons_ne_nil b rest)]
      · rw [behind, List.dropWhile_append_of_pos (fun c hc => by simp [hw.nonblank c hc])]

theorem keyword_word {word : Bytes} (h : word ∈ keywords) : Word word := by
  have hall : ∀ w ∈ keywords, w ≠ [] ∧ w.all (fun b => decide (isSpace b = false)) = true := by
    decide
  exact ⟨(hall word h).1, forall_of_all (hall word h).2⟩

variable {text rest w t : Bytes}

theorem glued_readF (h : scanString rest = some (w, t)) :
    request (ascii "readF" ++ rest) ≠ .invalid := by
  rw [request_readF, sscanf_blank_string, sscanf_blank_string, h]
  simp only [Option.elim_some, sscanf_blank_int]
  cases scanInt t <;> simp [readFLine, readFWhole, sscanf]

theorem glued_upload (h : scanString rest = some (w, t)) :
    request (ascii "upload" ++ rest) ≠ .invalid := by
  rw [request_upload, sscanf_blank_string, h]
  simp [uploadFile, sscanf]

theorem glued_download (h : scanString rest = some (w, t)) :
    request (ascii "download" ++ rest) ≠ .invalid := by
  rw [request_download, sscanf_blank_string, h]
  simp [downloadFile, sscanf]

theorem glued_writeT (h : scanString rest = some (w, t)) :
    request (ascii "writeT" ++ rest) = .invalid ↔ t.dropWhile isSpace = [] := by
  rw [request_writeT, sscanf_blank_string, sscanf_blank_string, h]
  simp only [Option.elim_some, sscanf_blank_int, sscanf_blank_string]
  by_cases hnil : t.dropWhile isSpace = []
  · have hint : scanInt t = none := by simp [scanInt, hnil, unsigned]
    have hstring : scanString t = none := by simp [scanString, hnil]
    simp [hint, hstring, hnil, writeTLine, writeTEnd]
  · obtain ⟨w', t', hstring⟩ : ∃ w' t', scanString t = some (w', t') := by
      simp [scanString, hnil]
    simp only [hstring, hnil, iff_false]
    cases hint : scanInt t with
    | none => simp [writeTLine, writeTEnd, sscanf]
    | some p => cases hs : scanString p.2 <;> simp [hs, writeTLine, writeTEnd, sscanf]

/-- A text that does not begin with a keyword is invalid unless a keyword is glued to it. -/
theorem request_invalid (h : firstWord text ∉ keywords) :
    request text = .invalid ↔ ¬ Glued text := by
  have hglued {word rest : Bytes} (hk : word ∈ keywords) (heq : word++rest = text) :
      ∃ w t, scanString rest = some (w, t) ∧ behind text = t.dropWhile isSpace := by
    rw [← heq]
    apply glued_word (keyword_word hk)
    rw [heq]
    exact fun hw => h (hw ▸ hk)
  -- behind the other three keywords one more word is enough
  have hdispatched {word : Bytes} (hk : word ∈ keywords) (hp : word <+: text) (hg : Glued text)
      (hkey : ∀ rest w t, scanString rest = some (w, t) → request (word++rest) ≠ .invalid) :
      request text = .invalid ↔ ¬ Glued text := by
    obtain ⟨rest, heq⟩ := hp
    obtain ⟨w, t, hscan, -⟩ := hglued hk heq
    have hne := hkey rest w t hscan
    rw [heq] at hne
    exact iff_of_false hne (not_not_intro hg)
  by_cases hread : ascii "readF" <+: text
  · exact hdispatched (by simp [keywords]) hread (Or.inl hread) (fun _ _ _ => glued_readF)
  by_cases hup : ascii "upload" <+: text
  · exact hdispatched (by simp [keywords]) hup (Or.inr (Or.inl hup)) (fun _ _ _ => glued_upload)
  by_cases hdown : ascii "download" <+: text
  · exact hdispatched (by simp [keywords]) hdown (Or.inr (Or.inr (Or.inl hdown)))
      (fun _ _ _ => glued_download)
  by_cases hwrite : ascii "writeT" <+: text
  · have hiff : ¬ Glued text ↔ behind text = [] := by simp [Glued, hread, hup, hdown, hwrite]
    rw [hiff]
    obtain ⟨rest, heq⟩ := hwrite
    obtain ⟨w, t, hscan, hbehind⟩ := hglued (by simp [keywords]) heq
    rw [hbehind, ← heq]
    exact glued_writeT hscan
  · have hg : ¬ Glued text := by simp [Glued, hread, hup, hdown, hwrite]
    have hne (word : Bytes) (hk : word ∈ keywords) : text ≠ word := by
      rintro rfl
      obtain ⟨w, t, hscan, -⟩ := hglued hk (List.append_nil text)
      cases hscan
    rw [request_plain hread hwrite hup hdown, if_neg (hne _ (by simp [keywords])),
      if_neg (hne _ (by simp [keywords])), if_neg (hne _ (by simp [keywords])),
      if_neg (hne _ (by simp [keywords]))]
    exact iff_of_true rfl hg

end Invalid

section Buffer

theorem noNul_intercalate (ws : List Bytes) (h : ∀ w ∈ ws, 0 ∉ w) :
    0 ∉ [32].intercalate ws := by
  induction ws with
  | nil => simp
  | cons w ws ih =>
    cases ws with
    | nil => simpa using h w (by simp)
    | cons v vs =>
      have hw := h w (by simp)
      have hws := ih (fun x hx => h x (by simp [hx]))
      simp [hw, hws]

theorem WellFormed.noNul {r : Request} (h : WellFormed r) : 0 ∉ r.text := by
  apply noNul_intercalate
  have hkey : ∀ w ∈ keywords, 0 ∉ w := by decide
  have hline (line : Option ℤ) : ∀ w ∈ line.toList.map print, 0 ∉ w := by
    intro w hw
    obtain ⟨n, -, rfl⟩ := List.mem_map.mp hw
    exact noNul_print n
  cases r with
  | readF file line =>
    rintro w (⟨⟩ | ⟨-, ⟨⟩ | ⟨-, hw⟩⟩)
    · exact hkey _ (by simp [keywords])
    · exact (h.file file rfl).2.1
    · exact hline line w hw
  | writeT file line string =>
    intro w hw
    rcases List.mem_append.mp hw with hw | hw
    · rcases hw with ⟨⟩ | ⟨-, ⟨⟩ | ⟨-, hw⟩⟩
      · exact hkey _ (by simp [keywords])
      · exact (h.file file rfl).2.1
      · exact hline line w hw
    · rw [List.mem_singleton.mp hw]
      exact (h.string string rfl).2
  | upload file =>
    rintro w (⟨⟩ | ⟨-, ⟨⟩ | ⟨-, ⟨⟩⟩⟩)
    · exact hkey _ (by simp [keywords])
    · exact (h.file file rfl).2.1
  | download file =>
    rintro w (⟨⟩ | ⟨-, ⟨⟩ | ⟨-, ⟨⟩⟩⟩)
    · exact hkey _ (by simp [keywords])
    · exact (h.file file rfl).2.1
  | invalid => exact absurd rfl h.command
  | _ =>
    intro w hw
    rw [List.mem_singleton.mp hw]
    exact hkey _ (by simp [keywords])

end Buffer

section Kinds
open Words FifoSession

def Request.kind : Request → Command
  | .help => .help
  | .list => .list
  | .readF _ _ => .readF
  | .writeT _ _ _ => .writeT
  | .upload _ => .upload
  | .download _ => .download
  | .quit => .quit
  | .killServer => .killServer
  | .invalid => .invalid

theorem mem_whitespace (b : UInt8) : b ∈ whitespace ↔ isSpace b = true := by
  simp only [whitespace, List.mem_cons, List.not_mem_nil, or_false, isSpace, decide_eq_true_eq,
    UInt8.le_iff_toNat_le, ← UInt8.toNat_inj, UInt8.reduceToNat]
  omega

theorem nextToken_scanString (s : Bytes) :
    nextToken whitespace s = (scanString s).map (fun p => (p.1, p.2.tail)) := by
  have hin : (fun b => decide (b ∈ whitespace)) = isSpace := by
    funext b
    rw [Bool.eq_iff_iff, decide_eq_true_eq, mem_whitespace]
  have hout : (fun b => decide (b ∉ whitespace)) = (!isSpace ·) := by
    funext b
    rw [← hin]
    simp
  simp only [nextToken, scanString, hin, hout]
  split_ifs <;> rfl

theorem words_scanString (s : Bytes) : words whitespace s =
    (scanString s).elim [] (fun p => p.1 :: words whitespace p.2) := by
  have hnext := nextToken_scanString s
  cases hs : scanString s with
  | none =>
    rw [hs] at hnext
    exact words_none hnext
  | some p =>
    obtain ⟨w, t⟩ := p
    rw [hs] at hnext
    rw [words_some hnext, Option.elim_some]
    congr 1
    cases t with
    | nil => rfl
    | cons b t =>
      have hb : isSpace b = true := (scanString_some hs).2.1 b rfl
      have htail : nextToken whitespace (b::t) = nextToken whitespace t := by
        rw [nextToken_scanString, nextToken_scanString, ← scanString_skip (b::t),
          List.dropWhile_cons_of_pos hb, scanString_skip]
      cases ht : nextToken whitespace t with
      | none => rw [List.tail_cons, words_none ht, words_none (htail.trans ht)]
      | some q => rw [List.tail_cons, words_some ht, words_some (htail.trans ht)]

theorem scanned_word_iff (word : String) (n : ℕ) (rest : Bytes) :
    FifoSession.scanned word n (ascii word ++ rest) =
      decide (n ≤ (words whitespace rest).length) := by
  have hlen : word.length = (ascii word).length := by
    rw [ascii, List.length_map, String.length_toList]
  rw [FifoSession.scanned, List.isPrefixOf_iff_prefix.mpr (List.prefix_append _ _), hlen,
    List.drop_left, Bool.true_and]

theorem scanned_off {word : String} {text : Bytes} (h : ¬ ascii word <+: text) (n : ℕ) :
    FifoSession.scanned word n text = false := by
  rw [FifoSession.scanned, Bool.eq_false_iff.mpr (fun hp => h (List.isPrefixOf_iff_prefix.mp hp)),
    Bool.false_and]

theorem kind_readF (rest : Bytes) :
    command (ascii "readF" ++ rest) = (request (ascii "readF" ++ rest)).kind := by
  have hcommand : command (ascii "readF" ++ rest) =
      if FifoSession.scanned "readF" 1 (ascii "readF" ++ rest) then .readF else .invalid := rfl
  rw [hcommand, scanned_word_iff, words_scanString, request_readF]
  simp only [sscanf_blank_string, sscanf_blank_int]
  cases scanString rest with
  | none => rfl
  | some p => cases hi : scanInt p.2 <;> simp [hi, readFLine, readFWhole, sscanf, Request.kind]

theorem kind_writeT (rest : Bytes) :
    command (ascii "writeT" ++ rest) = (request (ascii "writeT" ++ rest)).kind := by
  have hcommand : command (ascii "writeT" ++ rest) =
      if FifoSession.scanned "writeT" 2 (ascii "writeT" ++ rest) then .writeT else .invalid := rfl
  rw [hcommand, scanned_word_iff, words_scanString]
  cases hs : scanString rest with
  | none =>
    rw [request_writeT, sscanf_blank_string, sscanf_blank_string, hs]
    rfl
  | some p =>
    rw [Option.elim_some, words_scanString]
    cases ht : scanString p.2 with
    | none =>
      have hnil : p.2.dropWhile isSpace = [] := by simpa [scanString] using ht
      rw [(glued_writeT hs).mpr hnil]
      rfl
    | some q =>
      rw [request_writeT]
      simp only [sscanf_blank_string, sscanf_blank_int, hs, ht, Option.elim_some]
      cases scanInt p.2 with
      | none => simp [writeTLine, writeTEnd, sscanf, Request.kind]
      | some i =>
        cases hi : scanString i.2 <;>
          simp [hi, writeTLine, writeTEnd, sscanf, Request.kind]

theorem kind_upload (rest : Bytes) :
    command (ascii "upload" ++ rest) = (request (ascii "upload" ++ rest)).kind := by
  have hcommand : command (ascii "upload" ++ rest) =
      if FifoSession.scanned "upload" 1 (ascii "upload" ++ rest) then .upload else .invalid := rfl
  rw [hcommand, scanned_word_iff, words_scanString, request_upload, sscanf_blank_string]
  cases scanString rest <;> simp [uploadFile, sscanf, Request.kind]

theorem kind_download (rest : Bytes) :
    command (ascii "download" ++ rest) = (request (ascii "download" ++ rest)).kind := by
  have hcommand : command (ascii "download" ++ rest) =
      if FifoSession.scanned "download" 1 (ascii "download" ++ rest) then .download
      else .invalid := rfl
  rw [hcommand, scanned_word_iff, words_scanString, request_download, sscanf_blank_string]
  cases scanString rest <;> simp [downloadFile, sscanf, Request.kind]

theorem command_kind (text : Bytes) : command text = (request text).kind := by
  by_cases hread : ascii "readF" <+: text
  · obtain ⟨rest, rfl⟩ := hread
    exact kind_readF rest
  by_cases hwrite : ascii "writeT" <+: text
  · obtain ⟨rest, rfl⟩ := hwrite
    exact kind_writeT rest
  by_cases hup : ascii "upload" <+: text
  · obtain ⟨rest, rfl⟩ := hup
    exact kind_upload rest
  by_cases hdown : ascii "download" <+: text
  · obtain ⟨rest, rfl⟩ := hdown
    exact kind_download rest
  rw [request_plain hread hwrite hup hdown, command]
  simp only [scanned_off hread, scanned_off hwrite, scanned_off hup, scanned_off hdown,
    Bool.false_eq_true, if_false]
  split_ifs <;> rfl

end Kinds

/-- Which requests are dispatched as they are meant: a command comes back unless
its string begins with a number and goes on, and a text without a keyword is
invalid unless a keyword is glued to its first word. -/
theorem dispatch_right_iff (r : Request) (text : CStr) (rest : Bytes) :
    (WellFormed r → (dispatch (r.text ++ 0::rest) = r ↔ ¬ Captured r)) ∧
    (firstWord text.bytes ∉ keywords →
      (dispatch (text.bytes ++ 0::rest) = .invalid ↔ ¬ Glued text.bytes)) := by
  constructor
  · intro h
    have htext : cstr (r.text ++ 0::rest) = r.text := by
      rw [cstr_append_zero]
      exact cstr_of_noNul h.noNul
    rw [dispatch, htext]
    exact request_text h
  · intro h
    rw [dispatch, cstr_append_zero, cstr_of_noNul text.noNul]
    exact request_invalid h

theorem readF_wellFormed : WellFormed (.readF (ascii "a") (some (-2))) where
  command := nofun
  file := by
    rintro f ⟨⟩
    exact ⟨⟨by decide, forall_of_all (by decide)⟩, by decide, by decide⟩
  line := by
    rintro n ⟨⟩
    decide
  string := nofun
  short := by decide

theorem dispatch_right_iff_readF :
    dispatch (Request.text (.readF (ascii "a") (some (-2))) ++ [0]) =
      .readF (ascii "a") (some (-2)) ∧
      dispatch (ascii "hello" ++ [0]) = .invalid := by
  have h := dispatch_right_iff (.readF (ascii "a") (some (-2))) (literal "hello") []
  constructor
  · exact (h.1 readF_wellFormed).mpr not_false
  · apply (h.2 (by decide)).mpr
    rintro (h | h | h | h) <;> revert h <;> decide

def captured : Request := .writeT (ascii "f") none (ascii "12abc")

theorem captured_wellFormed : WellFormed captured where
  command := nofun
  file := by
    rintro f ⟨⟩
    exact ⟨⟨by decide, forall_of_all (by decide)⟩, by decide, by decide⟩
  line := nofun
  string := by
    rintro f ⟨⟩
    exact ⟨⟨by decide, forall_of_all (by decide)⟩, by decide⟩
  short := by decide

/-- `writeT f 12abc` writes to line 12, and `readFfoo` reads the file `foo`. -/
theorem commands_confused :
    (WellFormed captured ∧
      dispatch (captured.text ++ [0]) = .writeT (ascii "f") (some 12) (ascii "abc")) ∧
    (firstWord (ascii "readFfoo") ∉ keywords ∧
      dispatch (ascii "readFfoo" ++ [0]) = .readF (ascii "foo") none) := by
  refine ⟨⟨captured_wellFormed, ?_⟩, ?_, ?_⟩ <;> decide

end CSE344.RequestGrammar
