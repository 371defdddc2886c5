import SystemProgramming.BiboCommands

/-!
# Reading back a line that was written

`writeT` reads the lines with their newlines, copies the text over one of them
and writes them all back, so the text is glued to the line behind it. What
`readF` finds afterwards is as it should be if the replaced line is the last
one.
-/

set_option autoImplicit false

namespace CSE344.BiboLines
open CString Stdio BiboServer BiboCommands BiboAlone

section Glued

variable {texts : List Bytes} {k : ℕ} {text : Bytes}

/-- A line as it comes out of its row of the table. -/
def row (l : Bytes) : Bytes := cstr (l ++ [newline])

/-- What `writeT` writes back. -/
def rewrittenLines (texts : List Bytes) (k : ℕ) (text : Bytes) : Bytes :=
  ((texts.map row).set (k-1) text).flatten

theorem row_whole {l : Bytes} (h : 0 ∉ l) : row l = l ++ [newline] := by
  apply cstr_of_noNul
  rw [List.mem_append, not_or]
  exact ⟨h, by decide⟩

theorem row_cut {l : Bytes} (hl : newline ∉ l) (h : 0 ∈ l) : newline ∉ row l := by
  obtain ⟨x, y, rfl⟩ := List.append_of_mem h
  rw [row, List.append_assoc, List.cons_append, cstr_append_zero]
  intro hmem
  exact hl (List.mem_append_left _ ((List.takeWhile_prefix _).subset hmem))

theorem row_lines {l : Bytes} (hl : newline ∉ l) : (lines (row l)).length ≤ 1 := by
  by_cases h : 0 ∈ l
  · have hglue := lines_glue_length (row_cut hl h) []
    rwa [List.append_nil] at hglue
  · rw [row_whole h, lines_line hl]
    exact Nat.le_refl 1

theorem rows_lines (h : ∀ l ∈ texts, newline ∉ l) :
    (lines (texts.map row).flatten).length ≤ texts.length := by
  have hone : ∀ p ∈ texts.map row, (lines p).length ≤ 1 := by
    intro p hp
    obtain ⟨l, hl, rfl⟩ := List.mem_map.mp hp
    exact row_lines (h l hl)
  have hlen := lines_flatten_length hone
  rwa [List.length_map] at hlen

theorem rows_cut_lines (h : ∀ l ∈ texts, newline ∉ l) {l : Bytes} (hl : l ∈ texts) (h0 : 0 ∈ l)
    (rest : Bytes) :
    (lines ((texts.map row).flatten ++ rest)).length < texts.length+max 1 (lines rest).length := by
  obtain ⟨as, bs, rfl⟩ := List.append_of_mem hl
  rw [List.map_append, List.map_cons, List.flatten_append, List.flatten_cons, List.append_assoc,
    List.append_assoc, List.length_append, List.length_cons]
  have hsplit := lines_append_length (as.map row).flatten (row l ++ ((bs.map row).flatten ++ rest))
  have hglue := lines_glue_length (row_cut (h l hl) h0) ((bs.map row).flatten ++ rest)
  have hsplit' := lines_append_length (bs.map row).flatten rest
  have hbefore := rows_lines (fun l hl => h l (List.mem_append_left _ hl))
  have hafter := rows_lines (fun l' hl =>
    h l' (List.mem_append_right _ (List.mem_cons_of_mem l hl)))
  omega

theorem rows_whole (h : ∀ l ∈ texts, 0 ∉ l) : (texts.map row).flatten = ofLines texts := by
  rw [ofLines]
  exact congrArg List.flatten (List.map_congr_left (fun l hl => row_whole (h l hl)))

theorem rewrittenLines_split (hk : 1 ≤ k) (hle : k ≤ texts.length) :
    rewrittenLines texts k text =
      ((texts.take (k-1)).map row).flatten ++ (text ++ ((texts.drop k).map row).flatten) := by
  rw [rewrittenLines, List.set_eq_take_append_cons_drop, if_pos (by rw [List.length_map]; omega),
    Nat.sub_add_cancel hk]
  simp

theorem rewrittenLines_length_iff (hk : 1 ≤ k) (hle : k ≤ texts.length)
    (htexts : ∀ l ∈ texts, newline ∉ l) (htext : newline ∉ text) (hne : text ≠ []) :
    (lines (rewrittenLines texts k text)).length = texts.length ↔
      k = texts.length ∧ ∀ l ∈ texts.take (k-1), 0 ∉ l := by
  have hbefore : ∀ l ∈ texts.take (k-1), newline ∉ l :=
    fun l hl => htexts l (List.mem_of_mem_take hl)
  have hafter : ∀ l ∈ texts.drop k, newline ∉ l := fun l hl => htexts l (List.mem_of_mem_drop hl)
  have htake : (texts.take (k-1)).length = k-1 := by
    rw [List.length_take]
    omega
  rw [rewrittenLines_split hk hle]
  constructor
  · intro h
    have hsplit := lines_append_length ((texts.take (k-1)).map row).flatten
      (text ++ ((texts.drop k).map row).flatten)
    have hglue := lines_glue_length htext ((texts.drop k).map row).flatten
    have hfirst := rows_lines hbefore
    have hrest := rows_lines hafter
    rw [List.length_drop] at hrest
    rw [htake] at hfirst
    have hlast : k = texts.length := by omega
    refine ⟨hlast, ?_⟩
    intro l hl h0
    have hcut := rows_cut_lines hbefore hl h0 (text ++ ((texts.drop k).map row).flatten)
    rw [htake] at hcut
    omega
  · rintro ⟨hlast, hnul⟩
    have hdrop : texts.drop k = [] := List.drop_eq_nil_of_le (by omega)
    rw [hdrop, rows_whole hnul, List.map_nil, List.flatten_nil, List.append_nil,
      lines_ofLines_append hbefore, lines_rest hne htext, List.length_append, List.length_map,
      htake, List.length_singleton]
    omega

end Glued

variable {cfg : Config}

def path (f : FileName cfg) : Bytes := joinPath cfg.dirname f.bytes

/-- What `readF` answers for line `j` of a file. -/
def lineReply (j : ℤ) (c : Bytes) : Bytes := cstr (BiboThreads.readText j (fgetsAll lineSize c))

/-- What the commands that read `f` show of the change of its line `k`. -/
structure LineLaw (f : FileName cfg) (k n : ℕ) (text : Bytes) (before after : State) : Prop where
  got : ∀ openOk, ∃ t reply, handle cfg openOk (readCommand f k) after = some (t, reply) ∧
    (reply = text ∨ reply = text ++ [newline])
  others : ∀ (openOk : Bool) (j : ℤ), -2^31 ≤ j ∧ j < 2^31 → j ≠ 0 → j ≠ k →
    ∃ t t' reply, handle cfg openOk (readCommand f j) after = some (t, reply) ∧
      handle cfg openOk (readCommand f j) before = some (t', reply)
  count : ∃ c, after.files (path f) = some c ∧ (lines c).length = n

section Handler

variable {f : FileName cfg} {openOk : Bool} {s t : State} {c reply text : Bytes}

theorem respond_some (h : text.length < bufferSize) (s : State) :
    ∃ t, s.respond text = some t ∧ stringAt t.response 0 = some (cstr text) := by
  have hcopy : s.respond text =
      some { s with response := text ++ 0 :: s.response.drop (text.length+1) } := by
    rw [State.respond, strcpy, if_pos h]
    rfl
  exact ⟨_, hcopy, (respond_spec hcopy).2⟩

theorem notFound_length {j : ℤ} (hj : -2^31 ≤ j ∧ j < 2^31) :
    (notFound j).length < bufferSize := by
  have hprint : (ascii (toString j)).length ≤ 11 := Scanf.length_print hj
  rw [notFound, List.length_append, List.length_append]
  show 5+_+10 < 1024
  omega

theorem fgetsAll_texts {texts : List Bytes} {rest : Bytes} (htexts : ∀ l ∈ texts, newline ∉ l)
    (hshort : ∀ l ∈ texts, l.length ≤ 254) (hrest : newline ∉ rest) (hlen : rest.length ≤ 254) :
    fgetsAll lineSize (ofLines texts ++ rest) = texts.map (· ++ [newline]) ++ lines rest := by
  have hlines := lines_ofLines_append htexts rest
  rw [fgetsAll_lines, hlines]
  intro l hl
  rw [hlines] at hl
  show _ < 256
  rcases List.mem_append.mp hl with hl | hl
  · obtain ⟨l', hl', rfl⟩ := List.mem_map.mp hl
    have hle := hshort l' hl'
    rw [List.length_append, List.length_singleton]
    omega
  · by_cases hnil : rest = []
    · rw [hnil] at hl
      cases hl
    · rw [lines_rest hnil hrest] at hl
      rw [List.mem_singleton.mp hl]
      omega

theorem fgetsAll_ofLines {texts : List Bytes} (htexts : ∀ l ∈ texts, newline ∉ l)
    (hshort : ∀ l ∈ texts, l.length ≤ 254) :
    fgetsAll lineSize (ofLines texts) = texts.map (· ++ [newline]) := by
  have hall := fgetsAll_texts htexts hshort (List.not_mem_nil : newline ∉ ([] : Bytes))
    (Nat.zero_le _)
  rwa [List.append_nil, lines, List.append_nil] at hall

theorem readText_last (ps : List Bytes) (x y : Bytes) {j : ℤ} (hj : j ≠ 0) :
    BiboThreads.readText j (ps ++ [x]) =
      if j = (ps.length+1 : ℕ) then cstr x else BiboThreads.readText j (ps ++ [y]) := by
  simp only [BiboThreads.readText, if_neg hj, List.length_append, List.length_singleton]
  by_cases hlast : j = (ps.length+1 : ℕ)
  · subst hlast
    rw [if_pos rfl, if_pos (by omega)]
    simp
  · rw [if_neg hlast]
    split_ifs with hin
    · have hlt : j.toNat-1 < ps.length := by omega
      simp only [List.getD_eq_getElem?_getD, List.getElem?_append_left hlt]
    · rfl

theorem readText_room {j : ℤ} (hj : -2^31 ≤ j ∧ j < 2^31) (hne : j ≠ 0) (c : Bytes) :
    (BiboThreads.readText j (fgetsAll lineSize c)).length < bufferSize := by
  rw [BiboThreads.readText, if_neg hne]
  split_ifs with hin
  · have hlt : j.toNat-1 < (fgetsAll lineSize c).length := by omega
    have hmem : (fgetsAll lineSize c).getD (j.toNat-1) [] ∈ fgetsAll lineSize c := by
      rw [List.getD_eq_getElem?_getD, List.getElem?_eq_getElem hlt, Option.getD_some]
      exact List.getElem_mem hlt
    have hlen := fgetsLoop_room lineSize c.length c _ hmem
    have hword := (List.takeWhile_prefix (· ≠ (0 : UInt8))
      (l := (fgetsAll lineSize c).getD (j.toNat-1) [])).length_le
    exact lt_of_le_of_lt (hword.trans hlen) (by decide)
  · exact notFound_length hj

theorem handle_readCommand (openOk : Bool) {j : ℤ} (hj : -2^31 ≤ j ∧ j < 2^31) (hne : j ≠ 0)
    (hc : s.files (path f) = some c) :
    ∃ t, handle cfg openOk (readCommand f j) s = some (t, lineReply j c) := by
  obtain ⟨hfields, hnum⟩ := fields_readCommand f hj
  have hfile : s.files (filepath cfg ⟨some f.bytes, some (Scanf.print j), none⟩) = some c := hc
  have hread : readF cfg (f.bytes ++ 32::Scanf.print j) s =
      s.respond (BiboThreads.readText j ((fgetsAll lineSize c))) := by
    have hline : ((fgetsAll lineSize c).map cstr).getD (j.toNat-1) [] =
        cstr ((fgetsAll lineSize c).getD (j.toNat-1) []) := by
      simp only [List.getD_eq_getElem?_getD, List.getElem?_map]
      cases (fgetsAll lineSize c)[j.toNat-1]? <;> rfl
    simp only [readF, hfields, hfile, hnum, if_neg hne, List.length_map, BiboThreads.readText,
      hline]
    split_ifs <;> rfl
  obtain ⟨t, ht, hreply⟩ := respond_some (readText_room hj hne c) s
  refine ⟨t, ?_⟩
  rw [handle, command_readCommand f openOk hj, hread, ht, Option.bind_some, hreply]
  rfl

/-- What `writeT` makes of a file of lines that its table can hold. -/
theorem rewritten_ofLines {texts : List Bytes} {k : ℕ} (htexts : ∀ l ∈ texts, newline ∉ l)
    (hshort : ∀ l ∈ texts, l.length ≤ 254) (hmany : texts.length ≤ 1000) (hk : 1 ≤ k)
    (hle : k ≤ texts.length) (hlen : text.length ≤ 254) :
    rewritten k (some text) (ofLines texts) = some (some (rewrittenLines texts k text)) := by
  have hmax : ¬ maxLines < texts.length := Nat.not_lt.mpr hmany
  have hend : ¬ (texts.length : ℤ) < k := by omega
  have hfits : ¬ ((k : ℤ) < 1 ∨ lineSize ≤ text.length) := by
    rw [not_or]
    exact ⟨by omega, Nat.not_le.mpr (Nat.lt_of_le_of_lt hlen (by decide))⟩
  rw [rewritten, if_neg (by omega), fgetsAll_ofLines htexts hshort, List.map_map, replaced,
    List.length_map, if_neg hmax, if_neg hend, Option.bind_some, if_neg hfits, Int.toNat_natCast]
  rfl

theorem handle_writeCommand {texts : List Bytes} {k : ℕ}
    (hc : s.files (path f) = some (ofLines texts)) (htexts : ∀ l ∈ texts, newline ∉ l)
    (hshort : ∀ l ∈ texts, l.length ≤ 254) (hmany : texts.length ≤ 1000) (hk : 1 ≤ k)
    (hle : k ≤ texts.length) (hne : text ≠ []) (htext : 0 ∉ text) (hlen : text.length ≤ 254)
    (hcall : handle cfg openOk (writeCommand f k text) s = some (t, reply)) :
    t.files (path f) = some (rewrittenLines texts k text) := by
  have hint : -2^31 ≤ (k : ℤ) ∧ (k : ℤ) < 2^31 := by omega
  have hroom : (writeCommand f k text).length < bufferSize := by
    have hname := f.length
    have hprint := Scanf.length_print hint
    simp only [writeCommand, List.length_append, List.length_cons]
    show 7+_ < 1024
    omega
  have hwrite : writeT cfg openOk (f.bytes ++ 32::(Scanf.print k ++ 32::text)) s = some t := by
    rw [handle, command_writeCommand f openOk htext hroom] at hcall
    obtain ⟨u, hu, hreply⟩ := Option.bind_eq_some_iff.mp hcall
    obtain ⟨r, -, heq⟩ := Option.map_eq_some_iff.mp hreply
    cases heq
    exact hu
  have hok : openOk = true := by
    by_contra hno
    rw [Bool.not_eq_true] at hno
    subst hno
    cases hwrite
  subst hok
  obtain ⟨hfields, hnum⟩ := fields_writeCommand f hint hne
  have htaken : (fields (f.bytes ++ 32::(Scanf.print k ++ 32::text))).text = some text := by
    rw [hfields]
  obtain ⟨content, hfiles, halone⟩ := writeT_result htaken hwrite
  rw [hfields, hnum] at halone
  rw [hfields] at hfiles
  have hfile : s.files (joinPath cfg.dirname f.bytes) = some (ofLines texts) := hc
  have hresult : result true (.writeT ⟨joinPath cfg.dirname f.bytes, k, text⟩)
      (s.files (joinPath cfg.dirname f.bytes)) =
        some (some (rewrittenLines texts k text), none) := by
    rw [hfile, result, if_pos rfl, rewritten_ofLines htexts hshort hmany hk hle hlen]
    rfl
  cases halone.symm.trans hresult
  rw [hfiles]
  exact Function.update_self _ _ _

/-- Once the last line has been replaced, `readF` finds the new one there and
the old ones before it. -/
theorem lineReply_last {texts : List Bytes} (htexts : ∀ l ∈ texts, newline ∉ l)
    (hshort : ∀ l ∈ texts, l.length ≤ 254) (hpos : 1 ≤ texts.length) (hline : newline ∉ text)
    (hne : text ≠ []) (hnul : 0 ∉ text) (hlen : text.length ≤ 254)
    (hcut : ∀ l ∈ texts.take (texts.length-1), 0 ∉ l) {j : ℤ} (hj : j ≠ 0) :
    lineReply j (rewrittenLines texts texts.length text) =
      if j = texts.length then text else lineReply j (ofLines texts) := by
  have hlt : texts.length-1 < texts.length := by omega
  have hbefore : ∀ l ∈ texts.take (texts.length-1), newline ∉ l ∧ l.length ≤ 254 := fun l hl =>
    ⟨htexts l (List.mem_of_mem_take hl), hshort l (List.mem_of_mem_take hl)⟩
  have htake : ((texts.take (texts.length-1)).map (· ++ [newline])).length+1 = texts.length := by
    rw [List.length_map, List.length_take]
    omega
  have hwas : fgetsAll lineSize (ofLines texts) =
      (texts.take (texts.length-1)).map (· ++ [newline]) ++
        [texts[texts.length-1] ++ [newline]] := by
    have hsplit : texts = texts.take (texts.length-1) ++ [texts[texts.length-1]] := by
      rw [List.take_append_getElem hlt, Nat.sub_add_cancel hpos, List.take_length]
    rw [fgetsAll_ofLines htexts hshort]
    nth_rewrite 1 [hsplit]
    rw [List.map_append, List.map_singleton]
  have hnow : fgetsAll lineSize (rewrittenLines texts texts.length text) =
      (texts.take (texts.length-1)).map (· ++ [newline]) ++ [text] := by
    rw [rewrittenLines_split hpos (le_refl _), rows_whole hcut, List.drop_length, List.map_nil,
      List.flatten_nil, List.append_nil,
      fgetsAll_texts (fun l hl => (hbefore l hl).1) (fun l hl => (hbefore l hl).2) hline hlen,
      lines_rest hne hline]
  rw [lineReply, lineReply, hnow, hwas,
    readText_last _ text (texts[texts.length-1] ++ [newline]) hj, htake]
  split_ifs
  · rw [cstr_of_noNul hnul, cstr_of_noNul hnul]
  · rfl

/-- `readF` gets what `writeT` has put just where the last line was replaced
and no line before it is cut by a NUL. -/
theorem line_law_iff {texts : List Bytes} {k : ℕ}
    (hc : s.files (path f) = some (ofLines texts)) (htexts : ∀ l ∈ texts, newline ∉ l)
    (hshort : ∀ l ∈ texts, l.length ≤ 254) (hmany : texts.length ≤ 1000) (hk : 1 ≤ k)
    (hle : k ≤ texts.length) (hne : text ≠ []) (hline : newline ∉ text) (hnul : 0 ∉ text)
    (hlen : text.length ≤ 254)
    (hcall : handle cfg openOk (writeCommand f k text) s = some (t, reply)) :
    LineLaw f k texts.length text s t ↔
      k = texts.length ∧ ∀ l ∈ texts.take (k-1), 0 ∉ l := by
  have hafter := handle_writeCommand hc htexts hshort hmany hk hle hne hnul hlen hcall
  have hcount := rewrittenLines_length_iff hk hle htexts hline hne
  constructor
  · intro h
    obtain ⟨c, hc', hn⟩ := h.count
    rw [hafter] at hc'
    cases hc'
    exact hcount.mp hn
  · intro h
    have hn := hcount.mpr h
    obtain ⟨rfl, hcut⟩ := h
    have hreply {j : ℤ} (hj : j ≠ 0) :=
      lineReply_last htexts hshort hk hline hne hnul hlen hcut hj
    constructor
    · intro ok
      have hint : -2^31 ≤ (texts.length : ℤ) ∧ (texts.length : ℤ) < 2^31 := by omega
      obtain ⟨u, hu⟩ := handle_readCommand ok hint (by omega) hafter
      rw [hreply (by omega), if_pos rfl] at hu
      exact ⟨u, text, hu, Or.inl rfl⟩
    · intro ok j hj hj0 hjk
      obtain ⟨u, hu⟩ := handle_readCommand ok hj hj0 hafter
      obtain ⟨u', hu'⟩ := handle_readCommand ok hj hj0 hc
      rw [hreply hj0, if_neg hjk] at hu
      exact ⟨u, u', _, hu, hu'⟩
    · exact ⟨_, hafter, hn⟩

end Handler

def served : Config := ⟨ascii "srv", none⟩

def named : FileName served :=
  ⟨ascii "f", by decide +kernel, by decide +kernel, by decide +kernel, by decide +kernel⟩

def twoLines : List Bytes := [ascii "a", ascii "b"]

def holding : State :=
  ⟨fun p => if p = ascii "srv/f" then some (ofLines twoLines) else none, [0], .loop⟩

theorem writes (k : ℕ) (hk : k = 1 ∨ k = 2) :
    (handle served true (writeCommand named k (ascii "x")) holding).isSome = true := by
  rcases hk with rfl | rfl
  · decide
  · decide

def written (k : ℕ) (hk : k = 1 ∨ k = 2) : State × Bytes :=
  (handle served true (writeCommand named k (ascii "x")) holding).get (writes k hk)

/-- The last of two lines is replaced as the law says. -/
theorem line_law_iff_last :
    LineLaw named 2 2 (ascii "x") holding (written 2 (Or.inr rfl)).1 := by
  have hcall : handle served true (writeCommand named (2 : ℕ) (ascii "x")) holding =
      some ((written 2 (Or.inr rfl)).1, (written 2 (Or.inr rfl)).2) :=
    (Option.some_get (writes 2 (Or.inr rfl))).symm
  have hdisk : holding.files (path named) = some (ofLines twoLines) := by decide
  have hiff := line_law_iff hdisk (by decide) (by decide) (by decide)
    (by decide) (by decide) (by decide) (by decide)
    (by decide) (by decide) hcall
  exact hiff.mpr ⟨by decide, by decide⟩

/-- A text written to the first of two lines is glued to the second. -/
theorem first_line_glued :
    (∀ l ∈ twoLines, newline ∉ l ∧ l.length ≤ 254) ∧
    holding.files (path named) = some (ofLines twoLines) ∧
    handle served true (writeCommand named (1 : ℕ) (ascii "x")) holding =
      some (written 1 (Or.inl rfl)) ∧
    (written 1 (Or.inl rfl)).1.files (path named) = some (ascii "xb\n") ∧
    lineReply 1 (ascii "xb\n") = ascii "xb\n" ∧
    ¬ LineLaw named 1 2 (ascii "x") holding (written 1 (Or.inl rfl)).1 := by
  have hafter : (written 1 (Or.inl rfl)).1.files (path named) = some (ascii "xb\n") := by
    decide
  refine ⟨by decide, by decide,
    (Option.some_get (writes 1 (Or.inl rfl))).symm, hafter, by decide, ?_⟩
  intro h
  obtain ⟨c, hc, hn⟩ := h.count
  rw [hafter] at hc
  cases hc
  exact absurd hn (by decide)

end CSE344.BiboLines
