import SystemProgramming.TableOffsets

/-!
# Replacing a line in place

`write_file` goes back by the length of the line that it has read and writes
the new line over it. The file is as wanted afterwards if the old line is
measured right and has the length of the new one, or is the last one and no
longer than it.
-/

set_option autoImplicit false

namespace CSE344.TableLines
open CString FileBytes Stdio TableCalls TableEffects
open TableDescriptors (fifoPath)
open TableOffsets (holds)
open FifoSession (maxLine overlay)

section Contents

variable {before old new after : Bytes}

theorem takeWhile_line {l : Bytes} (hl : newline ∉ l) (rest : Bytes) :
    (l ++ newline::rest).takeWhile (· ≠ newline) = l := by
  rw [List.takeWhile_append_of_pos]
  · simp
  · intro b hb
    simpa using ne_of_mem_of_not_mem hb hl

theorem strlen_line (h0 : 0 ∈ old) :
    (cstr (old ++ [newline])).length ≤ old.length ∧ (cstr (old ++ [newline]) = [] →
      ∃ rest, old = 0::rest) := by
  induction old with
  | nil => cases h0
  | cons b old ih =>
    by_cases hb : b = 0
    · subst hb
      exact ⟨Nat.zero_le _, fun _ => ⟨old, rfl⟩⟩
    · have hcons : cstr (b::old ++ [newline]) = b :: cstr (old ++ [newline]) :=
        List.takeWhile_cons_of_pos (by simpa using hb)
      rw [hcons]
      have hmem : 0 ∈ old := (List.mem_cons.mp h0).resolve_left (Ne.symm hb)
      exact ⟨Nat.succ_le_succ (ih hmem).1, fun h => absurd h (List.cons_ne_nil _ _)⟩

theorem overwrite_whole :
    writeAt 0 (new ++ [newline]) (old ++ [newline] ++ after) = new ++ [newline] ++ after ↔
      new.length = old.length ∨ after = [] ∧ old.length ≤ new.length := by
  rw [writeAt_start, List.append_cancel_left_eq]
  constructor
  · intro h
    have hlen := congrArg List.length h
    simp only [List.length_drop, List.length_append, List.length_singleton] at hlen
    by_cases hafter : after = []
    · rw [hafter, List.length_nil] at hlen
      exact Or.inr ⟨hafter, by omega⟩
    · have hpos := List.length_pos_iff.mpr hafter
      exact Or.inl (by omega)
  · rintro (heq | ⟨rfl, hle⟩)
    · have hlen : (new ++ [newline]).length = (old ++ [newline]).length := by
        rw [List.length_append, List.length_append, heq]
      rw [hlen, List.drop_left]
    · apply List.drop_eq_nil_of_le
      simp only [List.length_append, List.length_singleton, List.length_nil]
      omega

theorem overwrite_part (hold : newline ∉ old) (hnew : newline ∉ new) (hnul : 0 ∉ new)
    (h0 : 0 ∈ old) :
    writeAt (old.length+1-(cstr (old ++ [newline])).length) (new ++ [newline])
      (old ++ [newline] ++ after) ≠ new ++ [newline] ++ after := by
  obtain ⟨hle, hnil⟩ := strlen_line h0
  generalize hkept : old.length+1-(cstr (old ++ [newline])).length = kept
  intro h
  have hfirst := congrArg (List.takeWhile (· ≠ newline)) h
  rw [List.append_assoc new, List.singleton_append, takeWhile_line hnew] at hfirst
  have hshort : kept-(old ++ [newline] ++ after).length = 0 := by
    simp only [List.length_append, List.length_singleton]
    omega
  rw [writeAt, hshort, List.replicate_zero, List.append_nil] at hfirst
  by_cases hwhole : kept ≤ old.length
  · -- the first line is a first part of the old line and then the new one
    have htake : (old ++ [newline] ++ after).take kept = old.take kept := by
      rw [List.append_assoc, List.take_append_of_le_length hwhole]
    have hline : newline ∉ old.take kept ++ new := by
      rw [List.mem_append, not_or]
      exact ⟨fun h => hold (List.mem_of_mem_take h), hnew⟩
    rw [htake, ← List.append_assoc, List.append_assoc _ [newline], List.singleton_append,
      takeWhile_line hline] at hfirst
    have hlen := congrArg List.length hfirst
    rw [List.length_append, List.length_take] at hlen
    omega
  · -- the old line begins with a NUL and stays whole
    have hempty : cstr (old ++ [newline]) = [] := by
      apply List.length_eq_zero_iff.mp
      omega
    have htake : (old ++ [newline] ++ after).take kept = old ++ [newline] := by
      apply List.take_left'
      rw [List.length_append, List.length_singleton]
      omega
    rw [htake, List.append_assoc, List.append_assoc, List.singleton_append,
      takeWhile_line hold] at hfirst
    rw [hfirst] at h0
    exact hnul h0

theorem overwrite_iff (hold : newline ∉ old) (hnew : newline ∉ new) (hnul : 0 ∉ new) :
    writeAt (before.length+(old.length+1-(cstr (old ++ [newline])).length)) (new ++ [newline])
        (before ++ (old ++ [newline] ++ after)) = before ++ (new ++ [newline] ++ after) ↔
      0 ∉ old ∧ (new.length = old.length ∨ after = [] ∧ old.length ≤ new.length) := by
  rw [writeAt_append, List.append_cancel_left_eq]
  by_cases h0 : 0 ∈ old
  · simp only [h0, not_true_eq_false, false_and, iff_false]
    exact overwrite_part hold hnew hnul h0
  · have hline : 0 ∉ old ++ [newline] := by
      rw [List.mem_append, not_or]
      exact ⟨h0, by decide⟩
    rw [cstr_of_noNul hline, List.length_append, List.length_singleton, Nat.sub_self,
      overwrite_whole]
    simp only [h0, not_false_eq_true, true_and]

end Contents

variable {Loc : Type*}

/-- The entry `i` of `f` has a descriptor for the file `x` of that name, whose
stream is to start at the beginning of what the file holds. -/
structure AtStart (place : Bytes → Loc) (f : Bytes) (i x : ℕ) (c : Bytes) (s : State Loc) :
    Prop where
  old : Old s.disk
  entry : s.find f = some i
  name : s.disk.fileAt place f = some x
  stream : s.file (s.table i).fd = some (x, 0, c)

/-- The new line fills the place of line `k`, or runs over the end of the file
from the place of the last one. -/
def Fills (texts : List Bytes) (k : ℕ) (new : Bytes) : Prop :=
  ∃ old, texts[k-1]? = some old ∧ 0 ∉ old ∧
    (new.length = old.length ∨ k = texts.length ∧ old.length ≤ new.length)

/-- Where `fseek` puts the stream when it has read line `k`. -/
def lineStart (texts : List Bytes) (k : ℕ) : ℕ :=
  (ofLines (texts.take k)).length-(cstr (texts.getD (k-1) [] ++ [newline])).length

/-- What `write_file` leaves in the array that it writes as its reply. -/
def replyArray (env : Env) (f : Bytes) (k : ℕ) : Bytes :=
  overlay (fifoPath env.stray) (Said.written.text f k ++ env.rest)

/-- The path of the reply leads to `f` itself, which keeps its name, and what
the reply lays over the start of the file happens to be wanted there. -/
def Restored (place : Bytes → Loc) (env : Env) (f : Bytes) (texts : List Bytes) (k : ℕ)
    (new : Bytes) : Prop :=
  (env.unlinkOk (fifoPath env.stray) = true → place f ≠ place (fifoPath env.stray)) ∧
    writeAt 0 (replyArray env f k)
        (writeAt (lineStart texts k) (new ++ [newline]) (ofLines texts)) =
      ofLines (texts.set (k-1) new)

section Lines

variable {texts : List Bytes} {k : ℕ} {new : Bytes}

theorem getD_of_lt {n : ℕ} (h : n < texts.length) : texts.getD n [] = texts[n] := by
  rw [List.getD_eq_getElem?_getD, List.getElem?_eq_getElem h, Option.getD_some]

theorem ofLines_split (hk : 1 ≤ k) (hle : k ≤ texts.length) (l : Bytes) :
    ofLines (texts.set (k-1) l) =
      ofLines (texts.take (k-1)) ++ (l ++ [newline] ++ ofLines (texts.drop k)) := by
  rw [List.set_eq_take_append_cons_drop, if_pos (by omega), Nat.sub_add_cancel hk, ofLines_append]
  simp [ofLines]

theorem ofLines_take (hk : 1 ≤ k) (hle : k ≤ texts.length) :
    ofLines (texts.take k) = ofLines (texts.take (k-1)) ++ (texts.getD (k-1) [] ++ [newline]) := by
  have hlt : k-1 < texts.length := by omega
  have htake : texts.take k = texts.take (k-1) ++ [texts.getD (k-1) []] := by
    rw [getD_of_lt hlt, List.take_append_getElem hlt, Nat.sub_add_cancel hk]
  rw [htake, ofLines_append]
  simp [ofLines]

/-- The write leaves the wanted content just where the new line fits. -/
theorem write_line_iff (hk : 1 ≤ k) (hle : k ≤ texts.length)
    (htexts : ∀ l ∈ texts, newline ∉ l) (hnew : newline ∉ new) (hnul : 0 ∉ new) :
    writeAt (lineStart texts k) (new ++ [newline]) (ofLines texts) =
        ofLines (texts.set (k-1) new) ↔ Fills texts k new := by
  have hlt : k-1 < texts.length := by omega
  have hsame : ofLines texts = ofLines (texts.set (k-1) texts[k-1]) := by
    rw [List.set_getElem_self]
  have hstart : lineStart texts k = (ofLines (texts.take (k-1))).length+
      (texts[k-1].length+1-(cstr (texts[k-1] ++ [newline])).length) := by
    have hcstr : (cstr (texts[k-1] ++ [newline])).length ≤ texts[k-1].length+1 := by
      have htake := (List.takeWhile_sublist (· ≠ (0 : UInt8))
        (l := texts[k-1] ++ [newline])).length_le
      rwa [List.length_append, List.length_singleton] at htake
    rw [lineStart, ofLines_take hk hle, getD_of_lt hlt, List.length_append, List.length_append,
      List.length_singleton]
    omega
  have hafter : ofLines (texts.drop k) = [] ↔ k = texts.length := by
    rw [ofLines_eq_nil, List.drop_eq_nil_iff]
    omega
  rw [hstart, hsame, ofLines_split hk hle, ofLines_split hk hle,
    overwrite_iff (htexts _ (List.getElem_mem hlt)) hnew hnul, hafter, Fills,
    List.getElem?_eq_getElem hlt]
  simp

end Lines

section Reply

variable [DecidableEq Loc] {place : Bytes → Loc} {d : Disk Loc} {env : Env} {f : Bytes} {x : ℕ}
  {c : Bytes} (hfile : d.fileAt place f = some x) (hcontent : d.contents x = some c)

include hfile hcontent

theorem holds_reply (hold : Old d) (h : Apart place d f (fifoPath env.stray)) (m : Bytes) :
    holds place f (d.reply place env m) = some c := by
  have hkeeps : Keeps place f x d (d.reply place env m) :=
    reply_keeps hfile (hold _ _ hfile) env m h
  rw [holds, hkeeps.place, Option.bind_some, hkeeps.content, hcontent]

theorem holds_reply_over (h : ¬ Apart place d f (fifoPath env.stray)) (m : Bytes) :
    holds place f (d.reply place env m) =
      if env.unlinkOk (fifoPath env.stray) = true ∧ place f = place (fifoPath env.stray) then none
      else some (writeAt 0 (overlay (fifoPath env.stray) (m ++ env.rest)) c) := by
  have hpath : d.fileAt place (fifoPath env.stray) = some x := by
    by_contra hne
    apply h
    constructor
    · intro heq
      rw [Disk.fileAt, ← heq] at hne
      exact hne hfile
    · intro y hy
      rw [hfile] at hy
      cases hy
      exact hne
  have hover : (d.mkfifo place (fifoPath env.stray)).overwrite place (fifoPath env.stray)
      (overlay (fifoPath env.stray) (m ++ env.rest)) =
        d.put x 0 (overlay (fifoPath env.stray) (m ++ env.rest)) := by
    simp only [Disk.mkfifo, Disk.overwrite, hpath]
  have hput : (d.put x 0 (overlay (fifoPath env.stray) (m ++ env.rest))).contents x =
      some (writeAt 0 (overlay (fifoPath env.stray) (m ++ env.rest)) c) := by
    rw [put_self, hcontent, Option.map_some]
  rw [Disk.reply, hover, Disk.unlink]
  by_cases hok : env.unlinkOk (fifoPath env.stray) = true
  · simp only [hok, if_true, true_and]
    show (Function.update d.directory.files (place (fifoPath env.stray)) none (place f)).bind _ = _
    by_cases heq : place f = place (fifoPath env.stray)
    · rw [if_pos heq, heq, Function.update_self]
      rfl
    · rw [if_neg heq, Function.update_of_ne heq]
      show (d.fileAt place f).bind _ = _
      rw [hfile]
      exact hput
  · simp only [hok, Bool.false_eq_true, if_false, false_and]
    show (d.fileAt place f).bind _ = _
    rw [hfile]
    exact hput

end Reply

section Calls

variable [DecidableEq Loc] {place : Bytes → Loc} {env : Env} {f string c : Bytes} {i x k : ℕ}
  {s t : State Loc} {said : Said}

theorem writeFile_returns (hentry : s.find f = some i) (hidle : ¬ Busy i s) (line : ℤ) :
    (writeFile place env f line string s).isSome = true := by
  unfold writeFile
  rw [hentry]
  dsimp only
  rw [if_neg hidle]
  split <;> rfl

theorem writeFile_start (h : AtStart place f i x c s) (hk : 1 ≤ k)
    (hcall : writeFile place env f k string s = some (t, said)) :
    t.disk = if (streamLines k 0 c).length < k then s.disk
      else (s.disk.put x ((streamLines k 0 c).flatten.length-
        (cstr ((streamLines k 0 c).getLastD [])).length) (string ++ [newline])).reply place env
          (Said.written.text f k) := by
  have hline : (0 : ℤ) < k := by omega
  unfold writeFile at hcall
  rw [h.entry] at hcall
  dsimp only at hcall
  split_ifs at hcall
  rw [writeBody, if_pos hline, file_addWriters, h.stream, Option.map_some] at hcall
  dsimp only at hcall
  rw [Int.toNat_natCast, Nat.zero_add] at hcall
  split_ifs at hcall ⊢ <;> cases hcall <;> rfl

theorem streamLines_ofLines {texts : List Bytes} (htexts : ∀ l ∈ texts, newline ∉ l)
    (hshort : ∀ l ∈ texts, l.length < 1023) (k : ℕ) :
    streamLines k 0 (ofLines texts) = (texts.take k).map (· ++ [newline]) := by
  have hlines := lines_ofLines htexts
  have hroom : ∀ l ∈ lines (ofLines texts), l.length < maxLine := by
    intro l hl
    rw [hlines] at hl
    obtain ⟨l', hl', rfl⟩ := List.mem_map.mp hl
    have hlt := hshort l' hl'
    rw [List.length_append, List.length_singleton, maxLine]
    omega
  rw [streamLines, List.drop_zero, Int.toNat_natCast, fgetsLoop_lines _ _ hroom, hlines,
    List.map_take]

/-- `write_file` replaces line `k` and nothing else just where the new line
fits, as long as the reply does not go to the file itself. -/
theorem replaced_iff {texts : List Bytes} (new : CStr) (h : AtStart place f i x (ofLines texts) s)
    (htexts : ∀ l ∈ texts, newline ∉ l) (hshort : ∀ l ∈ texts, l.length < 1023) (hk : 1 ≤ k)
    (hnew : newline ∉ new.bytes)
    (hcall : writeFile place env f k new.bytes s = some (t, said)) :
    holds place f t.disk = some (ofLines (texts.set (k-1) new.bytes)) ↔
      texts.length < k ∨
      (Apart place s.disk f (fifoPath env.stray) ∧ Fills texts k new.bytes) ∨
      (¬ Apart place s.disk f (fifoPath env.stray) ∧ Restored place env f texts k new.bytes) := by
  have hdisk := writeFile_start h hk hcall
  obtain ⟨-, -, hcontent⟩ := file_some h.stream
  rw [streamLines_ofLines htexts hshort, List.length_map, List.length_take] at hdisk
  by_cases hle : k ≤ texts.length
  · -- the line is there: what was written, then what the reply does
    have hlast : ((texts.take k).map (· ++ [newline])).getLastD [] =
        texts.getD (k-1) [] ++ [newline] := by
      have hlt : k-1 < texts.length := by omega
      rw [getD_of_lt hlt, List.getLastD_eq_getLast?, List.getLast?_eq_getElem?, List.length_map,
        List.length_take, Nat.min_eq_left hle, List.getElem?_map,
        List.getElem?_take_of_lt (by omega), List.getElem?_eq_getElem hlt]
      rfl
    rw [Nat.min_eq_left hle, if_neg (Nat.lt_irrefl k), hlast] at hdisk
    have hput : (s.disk.put x (lineStart texts k) (new.bytes ++ [newline])).contents x =
        some (writeAt (lineStart texts k) (new.bytes ++ [newline]) (ofLines texts)) := by
      rw [put_self, hcontent, Option.map_some]
    have hname : (s.disk.put x (lineStart texts k) (new.bytes ++ [newline])).fileAt place f =
      some x := h.name
    rw [hdisk]
    change holds place f
      ((s.disk.put x (lineStart texts k) (new.bytes ++ [newline])).reply place env _) = _ ↔ _
    have hmissing : ¬ texts.length < k := by omega
    by_cases hapart : Apart place s.disk f (fifoPath env.stray)
    · rw [holds_reply hname hput h.old hapart, Option.some.injEq,
        write_line_iff hk hle htexts hnew new.noNul]
      simp only [hmissing, hapart, true_and, not_true_eq_false, false_and, or_false, false_or]
    · rw [holds_reply_over hname hput hapart]
      simp only [hmissing, hapart, false_and, not_false_eq_true, true_and, false_or, Restored,
        replyArray]
      split_ifs with hlost
      · simp only [false_iff, not_and]
        intro hkept
        exact absurd hlost.2 (hkept hlost.1)
      · rw [Option.some.injEq]
        simp only [not_and] at hlost
        exact (and_iff_right hlost).symm
  · have hmissing : texts.length < k := by omega
    rw [Nat.min_eq_right (by omega), if_pos hmissing] at hdisk
    rw [hdisk, holds, h.name, Option.bind_some, hcontent, List.set_eq_of_length_le (by omega)]
    exact iff_of_true rfl (Or.inl hmissing)

end Calls

def twoLines : List Bytes := [ascii "ab", ascii "cd"]

def rewound : State Bytes := (listFiles id (TableSizes.oneFile (ofLines twoLines))).seek 4 0 0

theorem rewound_start : AtStart id (ascii "a") 0 0 (ofLines twoLines) rewound where
  old := by
    have hdisk : rewound.disk = (TableSizes.oneFile (ofLines twoLines)).disk :=
      (listFiles_listing (TableSizes.oneFile (ofLines twoLines))).1
    rw [hdisk]
    exact (TableSizes.oneFile (ofLines twoLines)).old
  entry := by decide
  name := by decide
  stream := by decide

theorem rewound_returns :
    (writeFile id TableBalance.quiet (ascii "a") (2 : ℕ) (literal "xyz").bytes rewound).isSome =
      true :=
  writeFile_returns rewound_start.entry (by decide) _

def lengthened : State Bytes × Said :=
  (writeFile id TableBalance.quiet (ascii "a") (2 : ℕ) (literal "xyz").bytes rewound).get
    rewound_returns

/-- The last line may be replaced by a longer one. -/
theorem replaced_iff_last : holds id (ascii "a") lengthened.1.disk =
    some (ofLines (twoLines.set 1 (literal "xyz").bytes)) := by
  have hcall : writeFile id TableBalance.quiet (ascii "a") (2 : ℕ) (literal "xyz").bytes rewound =
      some (lengthened.1, lengthened.2) := (Option.some_get rewound_returns).symm
  have hiff := replaced_iff (literal "xyz") rewound_start (by decide) (by decide)
    (show 1 ≤ 2 by decide) (by decide) hcall
  apply hiff.mpr
  apply Or.inr
  apply Or.inl
  constructor
  · constructor
    · decide
    · intro x _ hx
      have hnone : rewound.disk.fileAt id (fifoPath TableBalance.quiet.stray) = none := by
        decide
      cases hnone.symm.trans hx
  · exact ⟨ascii "cd", by decide, by decide, Or.inr (by decide)⟩

/-- A longer first line is written over the beginning of the second. -/
theorem next_line_overwritten :
    AtStart id (ascii "a") 0 0 (ofLines twoLines) rewound ∧
    (∀ l ∈ twoLines, newline ∉ l ∧ l.length < 1023) ∧ newline ∉ ascii "xyz" ∧
    (writeFile id TableBalance.quiet (ascii "a") (1 : ℕ) (ascii "xyz") rewound).map
      (fun p => holds id (ascii "a") p.1.disk) = some (some (ascii "xyz
d
")) ∧
    ascii "xyz
d
" ≠ ofLines (twoLines.set 0 (ascii "xyz")) := by
  refine ⟨rewound_start, ?_⟩
  decide

end CSE344.TableLines
