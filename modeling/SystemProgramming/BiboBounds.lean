import SystemProgramming.BiboLines

/-!
# What fits the fixed arrays of the HW4 server

`writeT` stores the pieces of a file in a table of 1000 rows of 256 bytes and
copies its text into one of them, and `readF` and `list` put their reply
together in an array of 1024 bytes. None of the loops looks at these sizes.
-/

set_option autoImplicit false

namespace CSE344.BiboBounds
open CString Stdio BiboServer BiboCommands BiboAlone

section Table

/-- A use of `lines[row]` and the number of bytes stored there. -/
structure Use where
  row : ℤ
  bytes : ℕ
  deriving DecidableEq, Repr

def InTable (u : Use) : Prop := 0 ≤ u.row ∧ u.row < maxLines ∧ u.bytes ≤ lineSize

instance (u : Use) : Decidable (InTable u) := inferInstanceAs (Decidable (_ ∧ _))

/-- The calls of `fgets`; the one that finds the end of the file is given a row too. -/
def readUses (i : ℕ) : List Bytes → List Use
  | [] => [⟨i, 0⟩]
  | l::ls => ⟨i, l.length+1⟩ :: readUses (i+1) ls

/-- The rows that are used to replace a line of a file with this content. -/
def tableUses (line : ℤ) (text content : Bytes) : List Use :=
  if line = 0 then []
  else
    let lines := fgetsAll lineSize content
    readUses 0 lines ++
      if line ≤ lines.length then
        ⟨line-1, text.length+1⟩ :: (List.range lines.length).map (fun i : ℕ => ⟨i, 0⟩)
      else []

def commandUses (cfg : Config) (block : Bytes) (s : State) : List Use :=
  if strncmpEq "writeT" (received block) then
    (stringAt (received block) 7).elim [] (fun args =>
      let f := fields args
      match s.files (filepath cfg f), f.text with
      | some content, some text => tableUses f.lineNum text content
      | _, _ => [])
  else []

theorem readUses_inTable {ls : List Bytes} (h : ∀ l ∈ ls, l.length < lineSize) (i : ℕ) :
    (∀ u ∈ readUses i ls, InTable u) ↔ i+ls.length < maxLines := by
  induction ls generalizing i with
  | nil =>
    simp only [readUses, List.forall_mem_singleton, InTable, List.length_nil]
    omega
  | cons l ls ih =>
    rw [List.forall_mem_cons] at h
    have hl : l.length+1 ≤ lineSize := h.1
    rw [readUses, List.forall_mem_cons, ih h.2, InTable, List.length_cons]
    dsimp only
    omega

theorem tableUses_inTable (line : ℤ) (text content : Bytes) :
    (∀ u ∈ tableUses line text content, InTable u) ↔
      line = 0 ∨ (fgetsAll lineSize content).length < maxLines ∧
        (line ≤ (fgetsAll lineSize content).length → 1 ≤ line ∧ text.length < lineSize) := by
  have hroom : ∀ l ∈ fgetsAll lineSize content, l.length < lineSize := fun l hl =>
    lt_of_le_of_lt (fgetsLoop_room lineSize content.length content l hl) (by decide)
  unfold tableUses
  by_cases h0 : line = 0
  · simp [h0]
  simp only [h0, if_false, false_or, List.forall_mem_append, readUses_inTable hroom, Nat.zero_add]
  apply and_congr_right
  intro hrows
  split_ifs with hline
  · have hwritten : ∀ u ∈ (List.range (fgetsAll lineSize content).length).map
        (fun i : ℕ => (⟨i, 0⟩ : Use)), InTable u := by
      intro u hu
      obtain ⟨i, hi, rfl⟩ := List.mem_map.mp hu
      rw [List.mem_range] at hi
      rw [InTable]
      dsimp only
      omega
    rw [List.forall_mem_cons, and_iff_left hwritten, InTable]
    simp only [hline, forall_const]
    omega
  · simp [hline]

theorem stringAt_block {block : Bytes} {p : ℕ} (hlen : block.length < bufferSize)
    (hp : p < bufferSize) : stringAt (received block) p = some (cstrAt (received block) p) := by
  have hzero : 0 ∈ (received block).drop p := by
    have hreceived : (received block).length = bufferSize := by
      rw [received, List.length_append, List.length_replicate]
      omega
    rw [List.mem_iff_getElem]
    refine ⟨bufferSize-1-p, by rw [List.length_drop]; omega, ?_⟩
    rw [List.getElem_drop]
    simp only [received]
    rw [List.getElem_append_right (by omega), List.getElem_replicate]
  rw [stringAt, if_pos hzero]

/-- Where a `writeT` of a line stays within its table. -/
theorem table_iff (cfg : Config) (block : Bytes) (s : State) {name line text content : Bytes}
    (hlen : block.length ≤ 1023) (hkey : strncmpEq "writeT" (received block) = true)
    (hfields : fields (cstrAt (received block) 7) = ⟨some name, some line, some text⟩)
    (hfile : s.files (joinPath cfg.dirname name) = some content) :
    (∀ u ∈ commandUses cfg block s, InTable u) ↔
      atoi line = 0 ∨ (fgetsAll lineSize content).length < maxLines ∧
        (atoi line ≤ (fgetsAll lineSize content).length →
          1 ≤ atoi line ∧ text.length < lineSize) := by
  have hblock : block.length < bufferSize := Nat.lt_succ_of_le hlen
  have hpath : s.files (filepath cfg ⟨some name, some line, some text⟩) = some content := hfile
  have huses : commandUses cfg block s = tableUses (atoi line) text content := by
    rw [commandUses, if_pos hkey, stringAt_block hblock (by decide), Option.elim_some]
    simp only [hfields, hpath]
    rfl
  rw [huses, tableUses_inTable]

/-- The text `x` for line 1 of a file of two lines. -/
theorem table_iff_first :
    (commandUses BiboLines.served (ascii "writeT f 1 x") BiboLines.holding).all (InTable ·) =
      true := by
  have hfields : fields (cstrAt (received (ascii "writeT f 1 x")) 7) =
      ⟨some (ascii "f"), some (ascii "1"), some (ascii "x")⟩ := rfl
  have hfile : BiboLines.holding.files (joinPath BiboLines.served.dirname (ascii "f")) =
      some (ofLines BiboLines.twoLines) := by decide
  simp only [List.all_eq_true, decide_eq_true_eq]
  exact (table_iff BiboLines.served _ BiboLines.holding (by decide) (by decide)
    hfields hfile).mpr (by decide)

/-- Line -1 is no longer than the file, and row -2 is written. -/
theorem negative_row : (ascii "writeT f -1 x").length ≤ 1023 ∧
    fields (cstrAt (received (ascii "writeT f -1 x")) 7) =
      ⟨some (ascii "f"), some (ascii "-1"), some (ascii "x")⟩ ∧
    BiboLines.holding.files (ascii "srv/f") = some (ofLines BiboLines.twoLines) ∧
    (⟨-2, 2⟩ : Use) ∈ commandUses BiboLines.served (ascii "writeT f -1 x") BiboLines.holding ∧
    ¬ InTable ⟨-2, 2⟩ := by
  refine ⟨by decide, rfl, ?_⟩
  decide

end Table

section Reply

variable {s t : State} {texts : List Bytes} {reply : Bytes}

theorem cstr_response (h : stringAt s.response 0 = some reply) : cstr s.response = reply := by
  simp only [stringAt, cstrAt, List.drop_zero, Option.ite_none_right_eq_some,
    Option.some.injEq] at h
  exact h.2

/-- A loop of `strcat` gives the whole reply just when the reply fits the array. -/
theorem append_iff (htexts : ∀ l ∈ texts, 0 ∉ l) (hroom : reply.length < bufferSize)
    (hs : stringAt s.response 0 = some reply) :
    (∃ t, texts.foldlM (fun s l => s.append l) s = some t ∧
      stringAt t.response 0 = some (reply ++ texts.flatten)) ↔
        reply.length+texts.flatten.length < bufferSize := by
  induction texts generalizing s reply with
  | nil =>
    simp only [List.flatten_nil, List.append_nil, List.length_nil, Nat.add_zero]
    exact iff_of_true ⟨s, rfl, hs⟩ hroom
  | cons l ls ih =>
    rw [List.forall_mem_cons] at htexts
    rw [List.foldlM_cons, List.flatten_cons, List.length_append]
    by_cases hfits : reply.length+l.length < bufferSize
    · -- the next text fits, and the loop goes on behind it
      obtain ⟨u, hu⟩ : ∃ u, s.append l = some u := by
        rw [State.append, strcat, cstr_response hs, strcpy, if_pos (by rwa [List.length_append])]
        exact ⟨_, rfl⟩
      have hspec := (append_spec hu hs).2
      rw [cstr_of_noNul htexts.1] at hspec
      have hrest := ih htexts.2 (by rwa [List.length_append]) hspec
      rw [List.append_assoc, List.length_append, Nat.add_assoc] at hrest
      rw [hu, Option.bind_eq_bind, Option.bind_some]
      exact hrest
    · have hnone : s.append l = none := by
        rw [State.append, strcat, cstr_response hs, strcpy, if_neg (by rwa [List.length_append])]
        rfl
      rw [hnone, Option.bind_eq_bind, Option.bind_none]
      refine iff_of_false ?_ (by omega)
      rintro ⟨t, ht, -⟩
      cases ht

theorem respond_append_iff {header : Bytes} (htexts : ∀ l ∈ texts, 0 ∉ l) (hheader : 0 ∉ header)
    (hroom : header.length < bufferSize) (s : State) :
    (∃ t, ((s.respond header).bind (fun s => texts.foldlM (fun s l => s.append l) s)) = some t ∧
      stringAt t.response 0 = some (header ++ texts.flatten)) ↔
        header.length+texts.flatten.length < bufferSize := by
  obtain ⟨u, hu, hreply⟩ := BiboLines.respond_some hroom s
  rw [cstr_of_noNul hheader] at hreply
  rw [hu, Option.bind_some]
  exact append_iff htexts hroom hreply

theorem list_loop (names : List Bytes) (s : State) :
    names.foldlM (fun s name => do
      let s ← State.append name s
      s.append (ascii "\n")) s =
    (names.flatMap (fun name => [name, ascii "\n"])).foldlM (fun s l => s.append l) s := by
  induction names generalizing s with
  | nil => rfl
  | cons name names ih =>
    rw [List.flatMap_cons, List.foldlM_append, List.foldlM_cons]
    congr 1
    · simp
    · ext s : 1
      exact ih s

theorem fgetsAll_noNul {content : Bytes} (h : 0 ∉ content) :
    (fgetsAll lineSize content).map cstr = fgetsAll lineSize content ∧
      ∀ l ∈ fgetsAll lineSize content, 0 ∉ l := by
  have hpieces : ∀ l ∈ fgetsAll lineSize content, 0 ∉ l := by
    intro l hl h0
    apply h
    rw [← fgetsAll_flatten (by decide : 2 ≤ lineSize) content]
    exact List.mem_flatten_of_mem hl h0
  refine ⟨?_, hpieces⟩
  nth_rewrite 2 [← List.map_id (fgetsAll lineSize content)]
  exact List.map_congr_left (fun l hl => cstr_of_noNul (hpieces l hl))

/-- The handler answers a block with this reply. -/
def Replies (cfg : Config) (openOk : Bool) (block : Bytes) (s : State) (reply : Bytes) : Prop :=
  ∃ t, handle cfg openOk block s = some (t, reply)

theorem replies_iff {cfg : Config} {openOk : Bool} {block : Bytes} :
    Replies cfg openOk block s reply ↔
      ∃ t, command cfg openOk (received block) s = some t ∧
        stringAt t.response 0 = some reply := by
  constructor
  · rintro ⟨t, h⟩
    obtain ⟨u, hu, hreply⟩ := Option.bind_eq_some_iff.mp h
    obtain ⟨r, hr, heq⟩ := Option.map_eq_some_iff.mp hreply
    cases heq
    exact ⟨t, hu, hr⟩
  · rintro ⟨t, ht, hreply⟩
    refine ⟨t, ?_⟩
    rw [handle, ht, Option.bind_some, hreply]
    rfl

/-- The replies with a whole file and with the whole directory are sent just
when they fit the array with their NUL. -/
theorem whole_replies_iff (cfg : Config) (openOk : Bool) (s : State) :
    (∀ block content, block.length ≤ 1023 → strncmpEq "readF" (received block) = true →
      (fields (cstrAt (received block) 6)).lineStr = none →
      s.files (filepath cfg (fields (cstrAt (received block) 6))) = some content → 0 ∉ content →
      (Replies cfg openOk block s (ascii "File content:\n" ++ content) ↔
        (ascii "File content:\n").length+content.length < bufferSize)) ∧
    ∀ block names, block.length ≤ 1023 → strncmpEq "list" (received block) = true →
      cfg.readDir = some names → (∀ name ∈ names, 0 ∉ name) →
      (Replies cfg openOk block s
          (ascii "Files in server directory:\n" ++ names.flatMap (· ++ ascii "\n")) ↔
        (ascii "Files in server directory:\n").length+
          (names.flatMap (· ++ ascii "\n")).length < bufferSize) := by
  constructor
  · intro block content hlen hkey hline hfile hnul
    have hargs := stringAt_block (Nat.lt_succ_of_le hlen) (by decide : 6 < bufferSize)
    have hnum : (fields (cstrAt (received block) 6)).lineNum = 0 := by
      rw [Fields.lineNum, hline, Option.elim_none]
    obtain ⟨hcstr, hpieces⟩ := fgetsAll_noNul hnul
    have hall := respond_append_iff hpieces (by decide : 0 ∉ ascii "File content:\n")
      (by decide) s
    rw [fgetsAll_flatten (by decide)] at hall
    rw [replies_iff, command_readF hkey, hargs, Option.bind_some, readF]
    simp only [hfile, hnum, if_true, hcstr]
    exact hall
  · intro block names hlen hkey hdir hnames
    have htexts : ∀ l ∈ names.flatMap (fun name => [name, ascii "\n"]), 0 ∉ l := by
      intro l hl
      obtain ⟨name, hname, hmem⟩ := List.mem_flatMap.mp hl
      rcases List.mem_pair.mp hmem with rfl | rfl
      · exact hnames l hname
      · decide
    have hflat : (names.flatMap (fun name => [name, ascii "\n"])).flatten =
        names.flatMap (· ++ ascii "\n") := by
      rw [List.flatMap_def, List.flatten_flatten, List.map_map, List.flatMap_def]
      congr 1
    have hall := respond_append_iff htexts
      (by decide : 0 ∉ ascii "Files in server directory:\n") (by decide) s
    rw [hflat] at hall
    rw [replies_iff, command_list hkey, list, hdir]
    simp only [list_loop]
    exact hall

/-- A short file and a directory of one file. -/
theorem whole_replies_iff_short :
    Replies ⟨ascii "srv", some [ascii "f"]⟩ true (ascii "readF f") BiboLines.holding
      (ascii "File content:\na\nb\n") ∧
    Replies ⟨ascii "srv", some [ascii "f"]⟩ true (ascii "list") BiboLines.holding
      (ascii "Files in server directory:\nf\n") := by
  obtain ⟨hread, hlist⟩ := whole_replies_iff ⟨ascii "srv", some [ascii "f"]⟩ true BiboLines.holding
  constructor
  · exact (hread (ascii "readF f") (ofLines BiboLines.twoLines) (by decide)
      (by decide) (by decide) (by decide) (by decide)).mpr
      (by decide)
  · exact (hlist (ascii "list") [ascii "f"] (by decide) (by decide)
      (by decide) (by decide)).mpr (by decide)

def longFile : State :=
  ⟨fun p => if p = ascii "srv/f" then some (List.replicate 1010 97) else none, [0], .loop⟩

/-- A file of 1010 bytes does not fit behind the header. -/
theorem long_file_overflows :
    longFile.files (joinPath (ascii "srv") (ascii "f")) = some (List.replicate 1010 97) ∧
    ∀ reply, ¬ Replies ⟨ascii "srv", none⟩ true (ascii "readF f") longFile reply := by
  refine ⟨by decide +kernel, ?_⟩
  rintro reply ⟨t, ht⟩
  have hnone : (handle ⟨ascii "srv", none⟩ true (ascii "readF f") longFile).isSome = false := by
    decide +kernel
  rw [ht] at hnone
  cases hnone

end Reply

end CSE344.BiboBounds
