import SystemProgramming.TableBalance

/-!
# The bounds of the file table and of the file names

The array has room for 100 entries with names of 255 bytes, and `handle_client`
reads a name into 256 bytes by `%s`. Neither `list_files` nor `upload_file` looks
at the index, and `%s` takes a word of any length, so the bounds are those of the
directory and of the requests.
-/

set_option autoImplicit false

namespace CSE344.TableBounds
open CString ProcessFiles Scanf TableCalls TableEffects RequestGrammar TransitionRun
open TableDescriptors (fifoPath)
open TableMachine (Entry maxFiles)

def nameSize : ℕ := 256

section Scans

/-- The calls of `sscanf` in `handle_client`, in their order. -/
def scans : List (String × (List Field → Option Request)) :=
  [("readF %s %d", readFLine), ("readF %s", readFWhole), ("writeT %s %d %s", writeTLine),
    ("writeT %s %s", writeTEnd), ("upload %s", RequestGrammar.uploadFile),
    ("download %s", RequestGrammar.downloadFile)]

theorem cascade_scans : cascade = [exactly "help" .help, exactly "list" .list] ++
    scans.map (fun p => scanned p.1 p.2) ++
    [exactly "quit" .quit, exactly "killServer" .killServer] := rfl

/-- The string stored by the first `%s` of a format, which is the one for `file`. -/
def firstString : List Field → Option Bytes
  | .string w::_ => some w
  | _ => none

def stored (fmt : String) (text : Bytes) : Option Bytes :=
  firstString (sscanf (format (ascii fmt)) text)

/-- What the calls up to the first successful one store in `file`. -/
def stores : List (String × (List Field → Option Request)) → Bytes → List Bytes
  | [], _ => []
  | (fmt, build)::rest, text =>
    (stored fmt text).toList ++ if (scanned fmt build text).isSome then [] else stores rest text

def fileStores (text : Bytes) : List Bytes :=
  if text = ascii "help" ∨ text = ascii "list" then [] else stores scans text

def scanKeywords : List Bytes :=
  [ascii "readF", ascii "writeT", ascii "upload", ascii "download"]

/-- The word behind the keyword of a request about a file. -/
def fileWord (text : Bytes) : Option Bytes :=
  (scanKeywords.find? (·.isPrefixOf text)).bind (fun k =>
    (scanString (text.drop k.length)).map Prod.fst)

variable {text w : Bytes}

theorem stored_word {fmt word : String} {ds : List Directive}
    (hfmt : format (ascii fmt) = (ascii word).map .literal ++ .blank::.string::ds) :
    stored fmt text = if ascii word <+: text then
      (scanString (text.drop (ascii word).length)).map Prod.fst else none := by
  rw [stored, hfmt]
  split_ifs with h
  · obtain ⟨rest, rfl⟩ := h
    rw [sscanf_literals, sscanf_blank_string, List.drop_left]
    cases scanString rest <;> rfl
  · rw [sscanf_other _ h]
    rfl

theorem scans_keyword : ∀ p ∈ scans, ∃ k ∈ scanKeywords, stored p.1 text =
    if k <+: text then (scanString (text.drop k.length)).map Prod.fst else none := by
  intro p hp
  simp only [scans, List.mem_cons, List.not_mem_nil, or_false] at hp
  rcases hp with rfl | rfl | rfl | rfl | rfl | rfl
  · exact ⟨ascii "readF", by simp [scanKeywords], stored_word format_readFLine⟩
  · exact ⟨ascii "readF", by simp [scanKeywords], stored_word format_readFWhole⟩
  · exact ⟨ascii "writeT", by simp [scanKeywords], stored_word format_writeTLine⟩
  · exact ⟨ascii "writeT", by simp [scanKeywords], stored_word format_writeTEnd⟩
  · exact ⟨ascii "upload", by simp [scanKeywords], stored_word format_upload⟩
  · exact ⟨ascii "download", by simp [scanKeywords], stored_word format_download⟩

theorem keyword_scans : ∀ k ∈ scanKeywords, ∃ p ∈ scans, stored p.1 text =
    if k <+: text then (scanString (text.drop k.length)).map Prod.fst else none := by
  intro k hk
  simp only [scanKeywords, List.mem_cons, List.not_mem_nil, or_false] at hk
  rcases hk with rfl | rfl | rfl | rfl
  · exact ⟨_, List.mem_cons_self, stored_word format_readFLine⟩
  · exact ⟨("writeT %s %d %s", writeTLine), by simp [scans], stored_word format_writeTLine⟩
  · exact ⟨("upload %s", RequestGrammar.uploadFile), by simp [scans], stored_word format_upload⟩
  · exact ⟨("download %s", RequestGrammar.downloadFile), by simp [scans],
      stored_word format_download⟩

theorem keyword_unique {k k' : Bytes} (hk : k ∈ scanKeywords) (hk' : k' ∈ scanKeywords)
    (h : k <+: text) (h' : k' <+: text) : k = k' := by
  have hletters : ∀ a ∈ scanKeywords, ∀ b ∈ scanKeywords, a ≠ [] ∧ (a.head? = b.head? → a = b) := by
    decide
  have hhead {a : Bytes} (ha : a ∈ scanKeywords) (hp : a <+: text) : a.head? = text.head? :=
    first_letter (hletters a ha a ha).1 hp
  exact (hletters k hk k' hk').2 ((hhead hk h).trans (hhead hk' h').symm)

theorem fileWord_keyword {k : Bytes} (hk : k ∈ scanKeywords) (h : k <+: text) :
    fileWord text = (scanString (text.drop k.length)).map Prod.fst := by
  have hfind : scanKeywords.find? (·.isPrefixOf text) = some k := by
    cases hf : scanKeywords.find? (·.isPrefixOf text) with
    | none =>
      have := List.find?_eq_none.mp hf k hk
      rw [List.isPrefixOf_iff_prefix] at this
      exact absurd h this
    | some k' =>
      have hsome : k'.isPrefixOf text = true := by simpa using List.find?_some hf
      rw [keyword_unique hk (List.mem_of_find?_eq_some hf) h
        (List.isPrefixOf_iff_prefix.mp hsome)]
  rw [fileWord, hfind, Option.bind_some]

theorem fileWord_none (h : ∀ k ∈ scanKeywords, ¬ k <+: text) : fileWord text = none := by
  have hfind : scanKeywords.find? (·.isPrefixOf text) = none := by
    rw [List.find?_eq_none]
    intro k hk hp
    exact h k hk (List.isPrefixOf_iff_prefix.mp hp)
  rw [fileWord, hfind, Option.bind_none]

theorem fileWord_prefix (h : fileWord text = some w) : ∃ k ∈ scanKeywords, k <+: text := by
  by_contra hno
  rw [fileWord_none (fun k hk hp => hno ⟨k, hk, hp⟩)] at h
  cases h

theorem scanned_none : ∀ p ∈ scans, stored p.1 text = none → scanned p.1 p.2 text = none := by
  have hbuild : ∀ p ∈ scans, ∀ fields, firstString fields = none → p.2 fields = none := by
    intro p hp fields hf
    simp only [scans, List.mem_cons, List.not_mem_nil, or_false] at hp
    rcases fields with _ | ⟨_ | _, fields⟩
    · rcases hp with rfl | rfl | rfl | rfl | rfl | rfl <;> rfl
    · cases hf
    · rcases hp with rfl | rfl | rfl | rfl | rfl | rfl <;> rfl
  intro p hp h
  exact hbuild p hp _ h

theorem mem_stores (l : List (String × (List Field → Option Request)))
    (hl : ∀ p ∈ l, stored p.1 text = none ∨ stored p.1 text = some w)
    (hnone : ∀ p ∈ l, stored p.1 text = none → scanned p.1 p.2 text = none) :
    (∀ v ∈ stores l text, v = w) ∧
      (w ∈ stores l text ↔ ∃ p ∈ l, stored p.1 text = some w) := by
  induction l with
  | nil => simp [stores]
  | cons p l ih =>
    obtain ⟨hall, hiff⟩ := ih (fun q hq => hl q (by simp [hq])) (fun q hq => hnone q (by simp [hq]))
    rcases hl p List.mem_cons_self with h | h
    · have hs := hnone p List.mem_cons_self h
      simp only [stores, h, hs, Option.toList_none, List.nil_append, Option.isSome_none,
        Bool.false_eq_true, if_false]
      refine ⟨hall, hiff.trans ?_⟩
      simp [h]
    · simp only [stores, h, Option.toList_some, List.singleton_append, List.mem_cons, true_or,
        forall_eq_or_imp, true_and]
      refine ⟨?_, iff_of_true trivial ⟨p, Or.inl rfl, h⟩⟩
      split_ifs
      · exact List.forall_mem_nil _
      · exact hall

/-- All that goes into `file` is the word behind the keyword. -/
theorem mem_fileStores (text v : Bytes) : v ∈ fileStores text ↔ fileWord text = some v := by
  by_cases hplain : text = ascii "help" ∨ text = ascii "list"
  · rw [fileStores, if_pos hplain]
    have hnone : fileWord text = none := by
      rcases hplain with rfl | rfl <;> decide
    rw [hnone]
    exact iff_of_false List.not_mem_nil nofun
  rw [fileStores, if_neg hplain]
  have hstored : ∀ p ∈ scans, stored p.1 text = none ∨ stored p.1 text = fileWord text := by
    intro p hp
    obtain ⟨k, hk, hs⟩ := scans_keyword p hp
    rw [hs]
    split_ifs with h
    · exact Or.inr (fileWord_keyword hk h).symm
    · exact Or.inl rfl
  cases hword : fileWord text with
  | none =>
    rw [hword] at hstored
    have hno : ∀ p ∈ scans, stored p.1 text = none := fun p hp => (hstored p hp).elim id id
    rw [(mem_stores scans (fun p hp => Or.inl (hno p hp)) scanned_none).2]
    refine iff_of_false ?_ nofun
    rintro ⟨p, hp, hv⟩
    cases (hno p hp).symm.trans hv
  | some w =>
    rw [hword] at hstored
    obtain ⟨hall, hmem⟩ := mem_stores scans hstored scanned_none
    constructor
    · intro hv
      rw [hall v hv]
    · rintro ⟨⟩
      obtain ⟨k, hk, hp⟩ := fileWord_prefix hword
      obtain ⟨p, hps, hs⟩ := keyword_scans k hk
      apply hmem.mpr
      refine ⟨p, hps, ?_⟩
      rw [hs, if_pos hp, ← fileWord_keyword hk hp, hword]

theorem upload_word {file : Bytes} (h : request text = .upload file) :
    fileWord text = some file := by
  have hprefix : ascii "upload" <+: text := by
    by_contra hno
    have hkind := command_kind text
    rw [h] at hkind
    simp only [FifoSession.command, scanned_off hno, Bool.false_eq_true, if_false] at hkind
    split_ifs at hkind <;> cases hkind
  rw [fileWord_keyword (by simp [scanKeywords]) hprefix]
  obtain ⟨rest, rfl⟩ := hprefix
  rw [request_upload, sscanf_blank_string] at h
  rw [List.drop_left]
  cases hs : scanString rest with
  | none =>
    rw [hs] at h
    cases h
  | some p =>
    rw [hs] at h
    have hp : Request.upload p.1 = .upload file := h
    cases hp
    rfl

end Scans

variable {Loc : Type*}

/-- The entries in use are in the array, and their names in their fields. -/
structure InTable (s : State Loc) : Prop where
  count : s.numFiles ≤ maxFiles
  names : ∀ e ∈ s.entries, e.name.length < nameSize

/-- The new name that a request adds to the table. -/
def newName (r : Serving) (s : State Loc) : Option Bytes :=
  match dispatch r.buffer with
  | .upload file => if s.find file = none then some file else none
  | _ => none

/-- Everything a request stores, it stores within bounds: the name it is parsed
into, the entry at `numFiles`, and what the table is afterwards. -/
def InBounds [DecidableEq Loc] (place : Bytes → Loc) (r : Serving) (s : State Loc) : Prop :=
  s.alive = true → (∀ w ∈ fileStores r.text.bytes, w.length < nameSize) ∧
    (newName r s ≠ none → s.numFiles < maxFiles) ∧ InTable s ∧
    ∀ t, serve place r s = some t → InTable t

/-- The name of the request is short, and a new one finds fewer than 100 in the table. -/
def Guard (r : Serving) (s : State Loc) : Prop :=
  s.alive = true → (∀ w ∈ fileWord r.text.bytes, w.length < nameSize) ∧
    (newName r s ≠ none → (s.entries.map Entry.name).length < maxFiles)

section Requests

/-- At most one name more, and no other. -/
structure Change (new : Option Bytes) (s t : State Loc) : Prop where
  names : ∀ e ∈ t.entries, e.name ∈ s.entries.map Entry.name ∨ new = some e.name
  count : t.numFiles ≤ s.numFiles+new.toList.length

variable {s t : State Loc}

theorem change_of_names (h : t.entries.map Entry.name = s.entries.map Entry.name) :
    Change none s t := by
  refine ⟨fun e he => Or.inl ?_, ?_⟩
  · rw [← h]
    exact List.mem_map_of_mem he
  · have hlen := congrArg List.length h
    rw [List.length_map, List.length_map, entries_length, entries_length] at hlen
    simpa using hlen.le

theorem change_refl (s : State Loc) : Change none s s := change_of_names rfl

theorem newName_word {r : Serving} {name : Bytes} (h : newName r s = some name) :
    fileWord r.text.bytes = some name := by
  unfold newName at h
  split at h
  · rename_i file hd
    split_ifs at h
    cases h
    rw [dispatch_buffer] at hd
    exact upload_word hd
  · cases h

theorem inTable_change {new : Option Bytes} (hs : InTable s) (hc : Change new s t)
    (hnew : ∀ name ∈ new, name.length < nameSize ∧ s.numFiles < maxFiles) : InTable t := by
  constructor
  · have hcount := hc.count
    cases new with
    | none => exact le_trans hcount hs.count
    | some name =>
      have := (hnew name rfl).2
      rw [Option.toList_some, List.length_singleton] at hcount
      omega
  · intro e he
    rcases hc.names e he with h | h
    · obtain ⟨e', he', hname⟩ := List.mem_map.mp h
      rw [← hname]
      exact hs.names e' he'
    · exact (hnew e.name h).1

variable [DecidableEq Loc] {place : Bytes → Loc} {env : Env} {file string : Bytes} {line : ℤ}

theorem readFile_change : Change none s (TableCalls.readFile place env file line s).1 := by
  have ho := readFile_outcome place env file line s
  generalize TableCalls.readFile place env file line s = r at ho ⊢
  cases ho with
  | absent hi m => exact change_of_names rfl
  | crashed i hi hline hfd => exact change_of_names (map_setEntry Entry.name s i rfl)
  | failed i hi hline hfd m => exact change_of_names rfl
  | read i hi x offset c hfd pos hle hend said hsaid m => exact change_of_names rfl

theorem writeFile_change {said : Said}
    (h : TableCalls.writeFile place env file line string s = some (t, said)) :
    Change none s t := by
  have ho := writeFile_outcome place env file line string s
  rw [h] at ho
  cases ho with
  | absent hi m => exact change_of_names rfl
  | crashed i hi hidle hline hfd => exact change_of_names (map_setEntry Entry.name s i rfl)
  | short i hi hidle hline x offset c hfd hshort pos hle hend => exact change_of_names rfl
  | line i hi hidle hline x offset c hfd hlong start pos m => exact change_of_names rfl
  | lost i hi hidle hline hfd m => exact change_of_names rfl
  | append i hi hidle hline x offset c hfd m => exact change_of_names rfl

theorem uploadFile_change : Change (if s.find file = none then some file else none) s
    (TableCalls.uploadFile place env file s).1 := by
  have ho := uploadFile_outcome place env file s
  generalize TableCalls.uploadFile place env file s = r at ho ⊢
  cases ho with
  | present i hi m =>
    rw [hi, if_neg (Option.some_ne_none i)]
    exact change_of_names rfl
  | uploaded hi d fd hok hfail m =>
    rw [if_pos hi]
    refine ⟨(forall_push s s.server d _).mpr ⟨fun e he => ?_, ?_⟩, le_refl _⟩
    · exact Or.inl (List.mem_map_of_mem he)
    · exact Or.inr rfl

theorem downloadFile_change {said : Said}
    (h : TableCalls.downloadFile place env file s = some (t, said)) : Change none s t := by
  have ho := downloadFile_outcome place env file s
  rw [h] at ho
  cases ho with
  | absent hi m => exact change_of_names rfl
  | downloaded i hi hidle server hnone hsome m =>
    refine ⟨fun e he => Or.inl ?_, ?_⟩
    · have he' : e ∈ s.entries.eraseIdx i := entries_shift s (find_some hi).1 ▸ he
      exact List.mem_map_of_mem (List.mem_of_mem_eraseIdx he')
    · exact Nat.le_trans (Nat.sub_le _ _) (Nat.le_add_right _ _)

theorem finish_change {new : Option Bytes} {r : Serving} {s₀ : State Loc}
    {p : State Loc × Option Said} (h : Change new s p.1) :
    Change new s (finish place r s₀ p).1 := by
  unfold finish
  split_ifs
  · exact h
  · exact ⟨h.names, h.count⟩

theorem serveRequest_change {r : Serving} {p : State Loc × Option Said}
    (h : serveRequest place r s = some p) : Change (newName r s) s p.1 := by
  unfold serveRequest at h
  unfold newName
  cases hd : dispatch r.buffer with
  | readF file line =>
    rw [hd] at h
    cases h
    exact readFile_change
  | writeT file line string =>
    rw [hd] at h
    obtain ⟨q, hq, rfl⟩ := Option.map_eq_some_iff.mp h
    exact writeFile_change hq
  | upload file =>
    rw [hd] at h
    cases h
    exact uploadFile_change
  | download file =>
    rw [hd] at h
    obtain ⟨q, hq, rfl⟩ := Option.map_eq_some_iff.mp h
    exact downloadFile_change hq
  | quit =>
    rw [hd] at h
    obtain ⟨q, hq, rfl⟩ := Option.map_eq_some_iff.mp h
    exact writeFile_change hq
  | killServer =>
    rw [hd] at h
    cases h
    exact change_of_names rfl
  | help =>
    rw [hd] at h
    cases h
    exact change_refl s
  | list =>
    rw [hd] at h
    cases h
    exact change_refl s
  | invalid =>
    rw [hd] at h
    cases h
    exact change_refl s

theorem serve_change {r : Serving} (h : serve place r s = some t) : Change (newName r s) s t := by
  unfold serve handleClient at h
  split_ifs at h
  obtain ⟨q, hq, rfl⟩ := Option.map_eq_some_iff.mp h
  obtain ⟨p, hp, rfl⟩ := Option.map_eq_some_iff.mp hq
  have hchange := serveRequest_change hp
  exact finish_change ⟨hchange.names, hchange.count⟩

theorem inBounds_iff (hs : InTable s) (r : Serving) : InBounds place r s ↔ Guard r s := by
  have hnames : (s.entries.map Entry.name).length = s.numFiles := by
    rw [List.length_map, entries_length]
  unfold InBounds Guard
  rw [hnames]
  apply imp_congr_right
  intro halive
  constructor
  · rintro ⟨hstores, hroom, -, -⟩
    exact ⟨fun w hw => hstores w ((mem_fileStores _ w).mpr hw), hroom⟩
  · rintro ⟨hword, hroom⟩
    refine ⟨fun w hw => hword w ((mem_fileStores _ w).mp hw), hroom, hs, fun t ht => ?_⟩
    apply inTable_change hs (serve_change ht)
    intro name hname
    refine ⟨hword name (newName_word hname), hroom ?_⟩
    rw [hname]
    exact Option.some_ne_none name

theorem guard_keeps {r : Serving} (hs : InTable s) (hg : Guard r s)
    (h : serve place r s = some t) : InTable t := by
  have halive : s.alive = true := by
    unfold serve at h
    split_ifs at h with halive
    exact halive
  exact ((inBounds_iff hs r).mpr hg halive).2.2.2 t h

end Requests

section Runs

variable {place : Bytes → Loc}

theorem listFiles_inTable (cfg : Config place) : InTable (listFiles place cfg) ↔
    (cfg.opendirOk = true → (cfg.entries.filter (·.regular)).length ≤ maxFiles) := by
  obtain ⟨-, hnames, -⟩ := listFiles_listing cfg
  have hcount := congrArg List.length hnames
  rw [List.length_map, entries_length] at hcount
  constructor
  · intro h hok
    have hle := h.count
    rw [hcount, if_pos hok, List.length_map] at hle
    exact hle
  · intro h
    constructor
    · rw [hcount]
      split_ifs with hok
      · rw [List.length_map]
        exact h hok
      · exact Nat.zero_le _
    · intro e he
      have hmem : e.name ∈ (listFiles place cfg).entries.map Entry.name := List.mem_map_of_mem he
      rw [hnames] at hmem
      split_ifs at hmem
      · obtain ⟨d, hd, hname⟩ := List.mem_map.mp hmem
        rw [← hname]
        exact cfg.short d (List.mem_of_mem_filter hd)
      · cases hmem

/-- If each request is served to its end before the next, the table and the
names stay in bounds exactly if the directory has at most 100 files, no name in
a request is too long and no upload finds the table full. -/
theorem serve_bounds_iff [DecidableEq Loc] (cfg : Config place) (rs : List Serving) :
    (InTable (listFiles place cfg) ∧
        Meets (serve place) (InBounds place) rs (listFiles place cfg)) ↔
      ((cfg.opendirOk = true → (cfg.entries.filter (·.regular)).length ≤ maxFiles) ∧
        Meets (serve place) Guard rs (listFiles place cfg)) := by
  rw [listFiles_inTable]
  apply and_congr_right
  intro hcount
  exact meets_congr_guarded (serve place) (InBounds place) Guard InTable
    (fun _ _ _ hs hg h => guard_keeps hs hg h) (fun r _ hs => inBounds_iff hs r) rs _
    ((listFiles_inTable cfg).mpr hcount)

end Runs

end CSE344.TableBounds
