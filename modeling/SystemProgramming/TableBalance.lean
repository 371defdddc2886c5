import SystemProgramming.TableEffects

/-!
# The file table between two calls

With requests served one at a time, every helper that returns leaves the
counters of all entries at 0 and the names distinct. What can go wrong is a
descriptor that the child does not have: `fdopen` then returns a null pointer,
`fgets` kills the child, and the counter stays up for good.
-/

set_option autoImplicit false

namespace CSE344.TableBalance
open CString ProcessFiles TableCalls TableEffects TransitionRun
open TableMachine (Entry)

variable {Loc : Type*}

/-- No name twice and no entry in use. -/
structure Balanced (s : State Loc) : Prop where
  names : (s.entries.map Entry.name).Nodup
  idle : ∀ e ∈ s.entries, e.readers = 0 ∧ e.writers = 0

/-- What a call is meant to do to the list of entries. -/
def Effect (c : Call) (s t : State Loc) : Prop :=
  match c with
  | .readFile _ _ => t.entries = s.entries
  | .writeFile _ _ _ => t.entries = s.entries
  | .uploadFile file =>
    if file ∈ s.entries.map Entry.name then t.entries = s.entries
    else ∃ e, e.name = file ∧ t.entries = s.entries ++ [e]
  | .downloadFile file => t.entries = s.entries.filter (fun e => e.name ≠ file)

/-- The table is balanced, the call comes back, and it has its effect and no other. -/
def Right [DecidableEq Loc] (place : Bytes → Loc) (a : Call × Env) (s : State Loc) : Prop :=
  Balanced s ∧ ∃ t, callStep place a s = some t ∧ Effect a.1 s t ∧ Balanced t

/-- The server itself has the file of the entry open. -/
def Open (s : State Loc) (e : Entry) : Prop :=
  0 ≤ e.fd ∧ ∃ x offset, lookup s.server e.fd.toNat = some (.file x offset)

/-- The line that the call reads or overwrites, if it asks for one. -/
def Call.line : Call → Option (Bytes × ℤ)
  | .readFile file line => some (file, line)
  | .writeFile file line _ => some (file, line)
  | _ => none

/-- Lines are asked for only of files that `list_files` has opened. -/
def Guard (a : Call × Env) (s : State Loc) : Prop :=
  ∀ p ∈ Call.line a.1, 0 < p.2 → ∀ e ∈ s.entries, e.name = p.1 → Open s e

/-- The invariant behind it. -/
structure Between (s : State Loc) : Prop where
  balanced : Balanced s
  regular : Regular s.server s.disk

section Entries

variable {s t : State Loc} {file : Bytes}

theorem Balanced.idle_at (h : Balanced s) {i : ℕ} (hi : s.find file = some i) : ¬ Busy i s := by
  obtain ⟨hr, hw⟩ := h.idle _ (find_some hi).2.2
  rw [Busy, hr, hw]
  omega

theorem Balanced.unique (h : Balanced s) {i : ℕ} (hi : s.find file = some i) {e : Entry}
    (he : e ∈ s.entries) (hname : e.name = file) : e = s.table i := by
  obtain ⟨-, hiname, hmem⟩ := find_some hi
  exact List.inj_on_of_nodup_map h.names he hmem (hname.trans hiname.symm)

theorem open_iff (h : Regular s.server s.disk) (e : Entry) :
    Open s e ↔ s.file e.fd ≠ none := by
  constructor
  · rintro ⟨hfd, x, offset, hopen⟩
    obtain ⟨c, hc⟩ := h.file hfd hopen
    rw [hc]
    exact Option.some_ne_none _
  · intro hne
    obtain ⟨⟨x, offset, c⟩, hc⟩ := Option.ne_none_iff_exists'.mp hne
    obtain ⟨hfd, hopen, -⟩ := file_some hc
    exact ⟨hfd, x, offset, hopen⟩

theorem balanced_of_entries (h : Balanced s) (ht : t.entries = s.entries) : Balanced t := by
  refine ⟨?_, ?_⟩
  · rw [ht]
    exact h.names
  · rw [ht]
    exact h.idle

theorem balanced_add (h : Balanced s) {e : Entry} (ht : t.entries = s.entries ++ [e])
    (hnew : e.name ∉ s.entries.map Entry.name) (hidle : e.readers = 0 ∧ e.writers = 0) :
    Balanced t := by
  refine ⟨?_, ?_⟩
  · rw [ht, List.map_append]
    apply List.Nodup.append h.names (List.nodup_singleton _)
    intro n hn hn'
    rw [List.mem_singleton.mp hn'] at hn
    exact hnew hn
  · intro e' he'
    rw [ht] at he'
    rcases List.mem_append.mp he' with he' | he'
    · exact h.idle e' he'
    · rw [List.mem_singleton.mp he']
      exact hidle

theorem balanced_filter (h : Balanced s) {p : Entry → Bool} (ht : t.entries = s.entries.filter p) :
    Balanced t := by
  refine ⟨?_, ?_⟩
  · rw [ht]
    exact (List.filter_sublist.map _).nodup h.names
  · intro e he
    rw [ht] at he
    exact h.idle e (List.mem_of_mem_filter he)

theorem not_balanced_readers (h : Balanced s) {i : ℕ} (hi : s.find file = some i) :
    ¬ Balanced (s.addReaders i 1) := by
  intro ht
  obtain ⟨hlt, -, hmem⟩ := find_some hi
  have hentry : (s.addReaders i 1).table i = { s.table i with readers := (s.table i).readers+1 } :=
    Function.update_self _ _ _
  have hzero := (ht.idle _ (mem_entries.mpr ⟨i, hlt, hentry⟩)).1
  have hold := (h.idle _ hmem).1
  dsimp only at hzero
  omega

theorem not_balanced_writers (h : Balanced s) {i : ℕ} (hi : s.find file = some i) :
    ¬ Balanced (s.addWriters i 1) := by
  intro ht
  obtain ⟨hlt, -, hmem⟩ := find_some hi
  have hentry : (s.addWriters i 1).table i = { s.table i with writers := (s.table i).writers+1 } :=
    Function.update_self _ _ _
  have hzero := (ht.idle _ (mem_entries.mpr ⟨i, hlt, hentry⟩)).2
  have hold := (h.idle _ hmem).2
  dsimp only at hzero
  omega

end Entries

section Calls

variable [DecidableEq Loc] {place : Bytes → Loc} {s t : State Loc} {env : Env}
  {file string : Bytes} {line : ℤ}

theorem right_iff_effect (hs : Balanced s) {a : Call × Env}
    (h : callStep place a s = some t) : Right place a s ↔ Effect a.1 s t ∧ Balanced t := by
  constructor
  · rintro ⟨-, u, hu, heffect⟩
    rw [h] at hu
    cases hu
    exact heffect
  · intro heffect
    exact ⟨hs, t, h, heffect⟩

theorem readFile_right_iff (hs : Between s) :
    Right place (.readFile file line, env) s ↔ Guard (.readFile file line, env) s := by
  have hguard : Guard (.readFile file line, env) s ↔
      (0 < line → ∀ e ∈ s.entries, e.name = file → Open s e) := by simp [Guard, Call.line]
  have hstep : callStep place (.readFile file line, env) s =
      some (readFile place env file line s).1 := rfl
  rw [hguard, right_iff_effect hs.balanced hstep]
  have ho := readFile_outcome place env file line s
  generalize readFile place env file line s = r at ho ⊢
  cases ho with
  | absent hi m =>
    refine iff_of_true ⟨rfl, balanced_of_entries hs.balanced rfl⟩ (fun _ e he hname => ?_)
    exact absurd hname (find_none.mp hi e he)
  | crashed i hi hline hfd =>
    refine iff_of_false (fun h => not_balanced_readers hs.balanced hi h.2) (fun h => ?_)
    obtain ⟨-, hname, hmem⟩ := find_some hi
    exact (open_iff hs.regular _).mp (h hline _ hmem hname) hfd
  | failed i hi hline hfd m =>
    exact iff_of_true ⟨rfl, balanced_of_entries hs.balanced rfl⟩ (fun h => absurd h hline)
  | read i hi x offset c hfd pos hle hend said hsaid m =>
    refine iff_of_true ⟨rfl, balanced_of_entries hs.balanced rfl⟩ (fun _ e he hname => ?_)
    rw [hs.balanced.unique hi he hname, open_iff hs.regular, hfd]
    exact Option.some_ne_none _

theorem writeFile_right_iff (hs : Between s) :
    Right place (.writeFile file line string, env) s ↔
      Guard (.writeFile file line string, env) s := by
  have hguard : Guard (.writeFile file line string, env) s ↔
      (0 < line → ∀ e ∈ s.entries, e.name = file → Open s e) := by simp [Guard, Call.line]
  have hstep : callStep place (.writeFile file line string, env) s =
      (writeFile place env file line string s).map Prod.fst := rfl
  rw [hguard]
  have ho := writeFile_outcome place env file line string s
  generalize writeFile place env file line string s = r at ho hstep
  have hopen {i : ℕ} (hi : s.find file = some i) {x offset : ℕ} {c : Bytes}
      (hfd : s.file (s.table i).fd = some (x, offset, c)) :
      0 < line → ∀ e ∈ s.entries, e.name = file → Open s e := by
    intro _ e he hname
    rw [hs.balanced.unique hi he hname, open_iff hs.regular, hfd]
    exact Option.some_ne_none _
  cases ho with
  | absent hi m =>
    rw [right_iff_effect hs.balanced hstep]
    refine iff_of_true ⟨rfl, balanced_of_entries hs.balanced rfl⟩ (fun _ e he hname => ?_)
    exact absurd hname (find_none.mp hi e he)
  | asleep i hi hbusy => exact absurd hbusy (hs.balanced.idle_at hi)
  | crashed i hi hidle hline hfd =>
    rw [right_iff_effect hs.balanced hstep]
    refine iff_of_false (fun h => not_balanced_writers hs.balanced hi h.2) (fun h => ?_)
    obtain ⟨-, hname, hmem⟩ := find_some hi
    exact (open_iff hs.regular _).mp (h hline _ hmem hname) hfd
  | short i hi hidle hline x offset c hfd hshort pos hle hend =>
    rw [right_iff_effect hs.balanced hstep]
    exact iff_of_true ⟨rfl, balanced_of_entries hs.balanced rfl⟩ (hopen hi hfd)
  | line i hi hidle hline x offset c hfd hlong start pos m =>
    rw [right_iff_effect hs.balanced hstep]
    exact iff_of_true ⟨rfl, balanced_of_entries hs.balanced rfl⟩ (hopen hi hfd)
  | lost i hi hidle hline hfd m =>
    rw [right_iff_effect hs.balanced hstep]
    exact iff_of_true ⟨rfl, balanced_of_entries hs.balanced rfl⟩ (fun h => absurd h hline)
  | append i hi hidle hline x offset c hfd m =>
    rw [right_iff_effect hs.balanced hstep]
    exact iff_of_true ⟨rfl, balanced_of_entries hs.balanced rfl⟩ (hopen hi hfd)

/-- An upload is always right: the new slot is cleared before it is counted. -/
theorem uploadFile_right (hs : Balanced s) : Right place (.uploadFile file, env) s := by
  have hstep : callStep place (.uploadFile file, env) s =
      some (uploadFile place env file s).1 := rfl
  rw [right_iff_effect hs hstep]
  have ho := uploadFile_outcome place env file s
  generalize uploadFile place env file s = r at ho ⊢
  cases ho with
  | present i hi m =>
    refine ⟨?_, balanced_of_entries hs rfl⟩
    rw [Effect, if_pos (named_iff.mpr ⟨i, hi⟩)]
    rfl
  | uploaded hi d fd hok hfail m =>
    have hnew := not_named hi
    have hentries := entries_push s s.server d
      ⟨file, counted env.chunks (s.table s.numFiles).size, fd, 0, 0⟩
    refine ⟨?_, balanced_add hs hentries hnew ⟨rfl, rfl⟩⟩
    rw [Effect, if_neg hnew]
    exact ⟨_, rfl, hentries⟩

theorem downloadFile_right (hs : Balanced s) : Right place (.downloadFile file, env) s := by
  have hstep : callStep place (.downloadFile file, env) s =
      (downloadFile place env file s).map Prod.fst := rfl
  have ho := downloadFile_outcome place env file s
  generalize downloadFile place env file s = r at ho hstep
  cases ho with
  | absent hi m =>
    rw [right_iff_effect hs hstep]
    refine ⟨?_, balanced_of_entries hs rfl⟩
    have hall : s.entries.filter (fun e => e.name ≠ file) = s.entries := by
      rw [List.filter_eq_self]
      simpa using find_none.mp hi
    rw [Effect, hall]
    rfl
  | asleep i hi hbusy => exact absurd hbusy (hs.idle_at hi)
  | downloaded i hi hidle server hnone hsome m =>
    rw [right_iff_effect hs hstep]
    have hentries := entries_removed hs.names hi
    exact ⟨hentries, balanced_filter hs hentries⟩

section Regularity

theorem readFile_regular (hs : Regular s.server s.disk) :
    Regular (readFile place env file line s).1.server (readFile place env file line s).1.disk := by
  have ho := readFile_outcome place env file line s
  generalize readFile place env file line s = r at ho ⊢
  cases ho with
  | absent hi m => exact hs.grows (grows_reply place env _ m)
  | crashed i hi hline hfd => exact hs
  | failed i hi hline hfd m => exact hs.grows (grows_reply place env _ m)
  | read i hi x offset c hfd pos hle hend said hsaid m =>
    exact Regular.grows (s := s.seek _ x pos) (hs.seek hfd) (grows_reply place env _ m)

theorem writeFile_regular (hs : Regular s.server s.disk) {said : Said}
    (h : writeFile place env file line string s = some (t, said)) :
    Regular t.server t.disk := by
  have ho := writeFile_outcome place env file line string s
  rw [h] at ho
  have hput (x pos : ℕ) (data m : Bytes) :
      Grows s.disk ((s.disk.put x pos data).reply place env m) :=
    (grows_put _ x pos data).trans (grows_reply place env _ m)
  cases ho with
  | absent hi m => exact hs.grows (grows_reply place env _ m)
  | crashed i hi hidle hline hfd => exact hs
  | short i hi hidle hline x offset c hfd hshort pos hle hend => exact hs.seek hfd
  | line i hi hidle hline x offset c hfd hlong start pos m =>
    exact Regular.grows (s := s.seek _ x pos) (hs.seek hfd) (hput _ _ _ m)
  | lost i hi hidle hline hfd m => exact hs.grows (grows_reply place env _ m)
  | append i hi hidle hline x offset c hfd m =>
    exact Regular.grows (s := s.seek _ x (c.length+string.length)) (hs.seek hfd) (hput _ _ _ m)

theorem uploadFile_regular (hs : Regular s.server s.disk) :
    Regular (uploadFile place env file s).1.server (uploadFile place env file s).1.disk := by
  have ho := uploadFile_outcome place env file s
  generalize uploadFile place env file s = r at ho ⊢
  cases ho with
  | present i hi m => exact hs.grows (grows_reply place env _ m)
  | uploaded hi d fd hok hfail m =>
    have hd : Grows s.disk d := by
      cases hopen : env.openOk with
      | true =>
        rw [(hok hopen).2]
        exact (grows_creat place file s.disk).trans (grows_stored _ _ _ _)
      | false =>
        rw [(hfail hopen).2]
        exact Grows.refl _
    exact hs.grows (hd.trans (grows_reply place env _ m))

theorem downloadFile_regular (hs : Regular s.server s.disk) {said : Said}
    (h : downloadFile place env file s = some (t, said)) : Regular t.server t.disk := by
  have ho := downloadFile_outcome place env file s
  rw [h] at ho
  have hdisk (path m : Bytes) : Grows s.disk ((s.disk.unlink place env path).reply place env m) :=
    (grows_unlink place env path _).trans (grows_reply place env _ m)
  cases ho with
  | absent hi m => exact hs.grows (grows_reply place env _ m)
  | downloaded i hi hidle server hnone hsome m =>
    cases hfd : s.file (s.table i).fd with
    | none =>
      rw [hnone hfd]
      exact hs.grows (hdisk _ m)
    | some p =>
      obtain ⟨x, offset, c⟩ := p
      rw [hsome x offset c hfd]
      exact Regular.grows (s := s.seek _ x (max offset c.length)) (hs.seek hfd) (hdisk _ m)

end Regularity

theorem call_regular {a : Call × Env} (hs : Regular s.server s.disk)
    (h : callStep place a s = some t) : Regular t.server t.disk := by
  apply callStep_keeps (P := fun t => Regular t.server t.disk) _ _ _ _ h
  · exact fun _ _ _ => readFile_regular hs
  · exact fun _ _ _ _ _ _ hcall => writeFile_regular hs hcall
  · exact fun _ _ => uploadFile_regular hs
  · exact fun _ _ _ _ hcall => downloadFile_regular hs hcall

theorem call_right_iff (hs : Between s) (a : Call × Env) : Right place a s ↔ Guard a s := by
  obtain ⟨c, env⟩ := a
  cases c with
  | readFile file line => exact readFile_right_iff hs
  | writeFile file line string => exact writeFile_right_iff hs
  | uploadFile file => exact iff_of_true (uploadFile_right hs.balanced) nofun
  | downloadFile file => exact iff_of_true (downloadFile_right hs.balanced) nofun

theorem call_between {a : Call × Env} (hs : Between s) (hg : Guard a s)
    (h : callStep place a s = some t) : Between t := by
  obtain ⟨-, u, hu, -, hbalanced⟩ := (call_right_iff hs a).mpr hg
  rw [h] at hu
  cases hu
  exact ⟨hbalanced, call_regular hs.regular h⟩

end Calls

section Runs

variable {place : Bytes → Loc}

theorem listFiles_between (cfg : Config place) : Between (listFiles place cfg) := by
  obtain ⟨-, hnames, hregular, hentries, -⟩ := listFiles_listing cfg
  refine ⟨⟨?_, fun e he => (hentries e he).2⟩, hregular⟩
  rw [hnames]
  split_ifs
  · exact (List.filter_sublist.map _).nodup cfg.distinct
  · exact List.nodup_nil

/-- Calls made one after the other are right as long as no line is asked for of
a file that `list_files` has not opened, and no longer. -/
theorem calls_right_iff [DecidableEq Loc] (cfg : Config place) (cs : List (Call × Env)) :
    Balanced (listFiles place cfg) ∧
      (Meets (callStep place) (Right place) cs (listFiles place cfg) ↔
        Meets (callStep place) Guard cs (listFiles place cfg)) := by
  have hstart := listFiles_between cfg
  refine ⟨hstart.balanced, ?_⟩
  exact meets_congr_guarded (callStep place) (Right place) Guard Between
    (fun _ _ _ hs hg h => call_between hs hg h) (fun a _ hs => call_right_iff hs a) cs _ hstart

end Runs

def emptyDirectory : Config (id : Bytes → Bytes) where
  inherited := [some (), some (), some ()]
  disk := ⟨⟨fun _ => none, 0, []⟩, fun _ => none⟩
  segment := fun _ => ⟨[], 0, 0, 0, 0⟩
  opendirOk := true
  entries := []
  old := nofun
  distinct := List.nodup_nil
  short := nofun
  regular := nofun

def quiet : Env where
  stray := 0
  rest := []
  chunks := []
  nonempty := no_chunks
  ahead := 0
  openOk := true
  unlinkOk := fun _ => true

/-- Asking for a line of an uploaded file kills the child with the file in use. -/
theorem uploaded_line_kills :
    ((run (callStep id) [(.uploadFile (ascii "a"), quiet), (.readFile (ascii "a") 1, quiet)]
      (listFiles id emptyDirectory)).map State.entries = some [⟨ascii "a", 0, 4, 1, 0⟩]) ∧
    ¬ Meets (callStep id) (Right id)
      [(.uploadFile (ascii "a"), quiet), (.readFile (ascii "a") 1, quiet)]
      (listFiles id emptyDirectory) := by
  constructor
  · decide
  · intro h
    obtain ⟨-, t, hstep, -, hbalanced⟩ := (h.tail rfl).1
    have hentries : t.entries = [⟨ascii "a", 0, 4, 1, 0⟩] := by
      have hrun : (callStep id (.readFile (ascii "a") 1, quiet)
          (uploadFile id quiet (ascii "a") (listFiles id emptyDirectory)).1).map State.entries =
            some [⟨ascii "a", 0, 4, 1, 0⟩] := by decide
      rw [hstep] at hrun
      exact Option.some.inj hrun
    have hidle := (hbalanced.idle ⟨ascii "a", 0, 4, 1, 0⟩ (by rw [hentries]; simp)).1
    cases hidle

end CSE344.TableBalance
