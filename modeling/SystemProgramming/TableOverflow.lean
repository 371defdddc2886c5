import SystemProgramming.TableBounds
import SystemProgramming.TableIdentity

/-!
# The bounds of the file table under children that run at the same time

The server forks a child for every request and does not wait for it. An upload
takes `num_files` as its index, and counts its file only when all of it has
come, so others may take the same index, or count theirs, in between.
-/

set_option autoImplicit false

namespace CSE344.TableOverflow
open CString ProcessFiles RequestGrammar TransitionRun
open TableMachine TableInvariant TableSteps TableIdentity TableBounds
open TableCalls (Config listFiles logFile)

variable {n : ℕ} {Loc : Type*} {place : Bytes → Loc}

/-- The call of a request on the table. -/
def callOf : Request → Option Call
  | .readF file line => some ⟨.readFile, file, line.getD 0⟩
  | .writeT file line _ => some ⟨.writeFile, file, line.getD 0⟩
  | .upload file => some ⟨.uploadFile, file, 0⟩
  | .download file => some ⟨.downloadFile, file, 0⟩
  | .quit => some ⟨.writeFile, logFile, 0⟩
  | _ => none

/-- A child that has parsed its request, with the descriptors of the server and
its FIFO. -/
def childOf (cfg : Config place) (text : CStr) : Child :=
  let opens (fd : ℤ) := decide (0 ≤ fd) && (lookup (listFiles place cfg).child fd.toNat).isSome
  match callOf (request text.bytes) with
  | some call => ⟨call, opens, true, .look 0⟩
  | none => ⟨⟨.readFile, [], 0⟩, opens, true, .done⟩

/-- The table of `list_files`, and a child for every request. -/
def opening (cfg : Config place) (texts : Fin n → CStr) : State n where
  table i := (listFiles place cfg).table i.toNat
  numFiles := (listFiles place cfg).numFiles
  children p := childOf cfg (texts p)

theorem opening_table (cfg : Config place) (texts : Fin n → CStr) (i : ℤ) :
    (opening cfg texts).table i = (listFiles place cfg).table i.toNat := rfl

theorem opening_numFiles (cfg : Config place) (texts : Fin n → CStr) :
    (opening cfg texts).numFiles = (listFiles place cfg).numFiles := rfl

/-- Uploads store into the array, and names that fit; and the number of files is
at most that of the array. -/
structure Fits (s : State n) : Prop where
  stores : ∀ p k st, (s.children p).pc = .add k st → st ≠ .numInc → k < maxFiles
  names : ∀ p k, (s.children p).pc = .add k .setName → (s.children p).call.file.length < nameSize
  count : s.numFiles ≤ maxFiles

/-- Whatever a child is parsed into, the table of `list_files` and all that
happens to it are within bounds. -/
structure InBounds (cfg : Config place) (texts : Fin n → CStr) (as : List (Act n)) : Prop where
  listed : InTable (listFiles place cfg)
  parsed : ∀ p, ∀ w ∈ fileStores (texts p).bytes, w.length < nameSize
  served : Throughout step Fits as (opening cfg texts)

/-- An upload takes its index, or counts its file. -/
def needsRoom : Pc → Bool
  | .pick => true
  | .add _ .numInc => true
  | _ => false

/-- There are fewer than 100 files when an upload takes its index, and again
when it counts its file. -/
def Room (a : Act n) (s : State n) : Prop :=
  needsRoom (s.children a.child).pc = true → s.numFiles < maxFiles

instance (a : Act n) (s : State n) : Decidable (Room a s) := inferInstanceAs (Decidable (_ → _))

/-- The names of uploads fit. -/
structure Uploads (s : State n) : Prop where
  names : ∀ p, (s.children p).call.operation = .uploadFile →
    (s.children p).call.file.length < nameSize
  picks : ∀ p, (s.children p).pc = .pick → (s.children p).call.operation = .uploadFile

section Steps

variable {s t u : State n}

theorem fits_goto (h : Fits s) (hchildren : u.children = s.children)
    (hcount : u.numFiles ≤ maxFiles)
    {p : Fin n} {pc : Pc} (hpc : ∀ k st, pc = .add k st → (st ≠ .numInc → k < maxFiles) ∧
      (st = .setName → (s.children p).call.file.length < nameSize)) : Fits (u.goto p pc) where
  stores q k st hq hst := by
    rcases goto_pc hq with ⟨rfl, hn⟩ | ⟨-, hold⟩
    · exact (hpc k st hn).1 hst
    · exact h.stores q k st (hchildren ▸ hold) hst
  names q k hq := by
    rw [goto_call, hchildren]
    rcases goto_pc hq with ⟨rfl, hn⟩ | ⟨-, hold⟩
    · exact (hpc k _ hn).2 rfl
    · exact h.names q k (hchildren ▸ hold)
  count := hcount

theorem fits_kill (h : Fits s) (p : Fin n) : Fits (s.kill p) where
  stores q k st hq := h.stores q k st (by simpa using hq)
  names q k hq := by simpa using h.names q k (by simpa using hq)
  count := h.count

theorem uploads_goto (h : Uploads s) (hchildren : u.children = s.children) {p : Fin n} {pc : Pc}
    (hpc : pc = .pick → (s.children p).call.operation = .uploadFile) : Uploads (u.goto p pc) where
  names q := by
    rw [goto_call, hchildren]
    exact h.names q
  picks q hq := by
    rw [goto_call, hchildren]
    rcases goto_pc hq with ⟨rfl, hn⟩ | ⟨-, hold⟩
    · exact hpc hn
    · exact h.picks q (hchildren ▸ hold)

theorem uploads_kill (h : Uploads s) (p : Fin n) : Uploads (s.kill p) where
  names q hq := by simpa using h.names q (by simpa using hq)
  picks q hq := by simpa using h.picks q (by simpa using hq)

theorem missing_pick (c : Call) (h : c.missing = .pick) : c.operation = .uploadFile := by
  unfold Call.missing at h
  split_ifs at h with hop
  exact hop

theorem access_uploads (h : Uploads s) {a : Act n} (hstep : access a s = some t) : Uploads t := by
  unfold access at hstep
  dsimp only at hstep
  cases hpc : (s.children a.child).pc <;> rw [hpc] at hstep
  case look i =>
    cases hstep
    refine uploads_goto h rfl (fun hpick => ?_)
    split_ifs at hpick
    exact missing_pick _ hpick
  case compare i =>
    cases hstep
    refine uploads_goto h rfl (fun hpick => ?_)
    split_ifs at hpick
    unfold Call.found at hpick
    cases hop : (s.children a.child).call.operation <;> rw [hop] at hpick <;> cases hpick
  case hold k st =>
    cases hstep
    apply uploads_goto h
    · rfl
    · intro hpick
      rcases (holdStep_spec (s.children a.child).call a.value k (s.table k) st).next with
        ⟨st', hn⟩ | hn | ⟨hn, -⟩ <;> rw [hn] at hpick <;> cases hpick
  case shift k i st =>
    cases hstep
    cases st <;>
      · apply uploads_goto h
        · rfl
        · exact fun hpick => by cases hpick
  case pick =>
    cases hstep
    exact uploads_goto h rfl (fun hpick => by cases hpick)
  case add k st =>
    cases st <;> cases hstep <;>
      · apply uploads_goto h
        · rfl
        · exact fun hpick => by cases hpick
  case done => cases hstep

theorem addStep_named (c : Call) (v : ℤ) (e : Entry) (st : Add) :
    (addStep c v e st).2 ≠ .setName := by
  cases st
  case receive =>
    unfold addStep
    split_ifs <;> exact fun h => by cases h
  all_goals exact fun h => by cases h

theorem missing_ne_add (c : Call) (k : ℤ) (st : Add) : c.missing ≠ .add k st := by
  intro h
  unfold Call.missing at h
  split_ifs at h

theorem found_ne_add (c : Call) (i k : ℤ) (st : Add) : c.found i ≠ .add k st := by
  intro h
  unfold Call.found at h
  cases hop : c.operation <;> rw [hop] at h <;> cases h

theorem holdStep_ne_add (c : Call) (v k : ℤ) (e : Entry) (st : Hold) (j : ℤ) (ad : Add) :
    (holdStep c v k e st).2 ≠ .add j ad := by
  intro h
  rcases (holdStep_spec c v k e st).next with ⟨st', hn⟩ | hn | ⟨hn, -⟩ <;> rw [hn] at h <;> cases h

/-- Outside the accesses of an upload only the number of files matters. -/
theorem fits_elsewhere (h : Fits s) (hchildren : u.children = s.children)
    (hcount : u.numFiles ≤ maxFiles) {p : Fin n} {pc : Pc} (hpc : ∀ k st, pc ≠ .add k st) :
    Fits (u.goto p pc) :=
  fits_goto h hchildren hcount (fun k st hadd => absurd hadd (hpc k st))

theorem shift_fits (hs : Fits s) (p : Fin n) (k i : ℤ) (st : Shift) :
    Fits (shiftStep p k i s st) := by
  have hcount := hs.count
  cases st with
  | test =>
    refine fits_elsewhere hs rfl hcount (fun j ad hadd => ?_)
    cases hadd
  | load => exact fits_elsewhere hs rfl hcount (fun j ad hadd => by cases hadd)
  | store e =>
    exact fits_elsewhere (u := s.store i e) hs rfl hcount (fun j ad hadd => by cases hadd)
  | numDec =>
    refine fits_elsewhere (u := { s with numFiles := s.numFiles-1 }) hs rfl ?_
      (fun j ad hadd => by cases hadd)
    dsimp only
    omega

theorem pick_fits_iff (hs : Fits s) (hu : Uploads s) {p : Fin n}
    (hpc : (s.children p).pc = .pick) :
    Fits (s.goto p (.add s.numFiles .setName)) ↔ s.numFiles < maxFiles := by
  constructor
  · intro h
    exact h.stores p s.numFiles .setName (by rw [goto_self]) (by decide)
  · intro hroom
    refine fits_goto hs rfl hs.count fun k st hadd => ?_
    cases hadd
    exact ⟨fun _ => hroom, fun _ => hu.names p (hu.picks p hpc)⟩

theorem numInc_fits_iff (hs : Fits s) (p : Fin n) :
    Fits ({ s with numFiles := s.numFiles+1 }.goto p .done) ↔ s.numFiles < maxFiles := by
  constructor
  · intro h
    have hafter := h.count
    rw [goto_numFiles] at hafter
    dsimp only at hafter
    omega
  · intro hroom
    refine fits_elsewhere (u := { s with numFiles := s.numFiles+1 }) hs rfl ?_
      (fun j ad hadd => by cases hadd)
    dsimp only
    omega

theorem add_fits (hs : Fits s) {p : Fin n} {k : ℤ} {st : Add}
    (hpc : (s.children p).pc = .add k st) (hst : st ≠ .numInc) (v : ℤ) :
    Fits ((s.store k (addStep (s.children p).call v (s.table k) st).1).goto p
      (.add k (addStep (s.children p).call v (s.table k) st).2)) := by
  refine fits_goto (u := s.store k _) hs rfl hs.count (fun j ad hadd => ?_)
  cases hadd
  exact ⟨fun _ => hs.stores p k st hpc hst, fun hname => absurd hname (addStep_named _ _ _ _)⟩

theorem room_of_not_needed {a : Act n} (h : needsRoom (s.children a.child).pc = false) :
    Room a s := by
  intro hneeded
  rw [h] at hneeded
  cases hneeded

theorem room_iff {a : Act n} (h : needsRoom (s.children a.child).pc = true) :
    Room a s ↔ s.numFiles < maxFiles :=
  ⟨fun hroom => hroom h, fun hroom _ => hroom⟩

/-- An access keeps the bounds just if there is room. -/
theorem access_fits (hs : Fits s) (hu : Uploads s) {a : Act n} (hstep : access a s = some t) :
    Fits t ↔ Room a s := by
  have hcount := hs.count
  unfold access at hstep
  dsimp only at hstep
  cases hpc : (s.children a.child).pc <;> rw [hpc] at hstep
  case look i =>
    cases hstep
    refine iff_of_true (fits_elsewhere hs rfl hcount (fun k st => ?_))
      (room_of_not_needed (by rw [hpc]; rfl))
    split_ifs
    · exact fun hadd => by cases hadd
    · exact missing_ne_add _ k st
  case compare i =>
    cases hstep
    refine iff_of_true (fits_elsewhere hs rfl hcount (fun k st => ?_))
      (room_of_not_needed (by rw [hpc]; rfl))
    split_ifs
    · exact found_ne_add _ i k st
    · exact fun hadd => by cases hadd
  case hold k st =>
    cases hstep
    exact iff_of_true (fits_elsewhere (u := s.store k _) hs rfl hcount
      (holdStep_ne_add _ _ _ _ _)) (room_of_not_needed (by rw [hpc]; rfl))
  case shift k i st =>
    cases hstep
    exact iff_of_true (shift_fits hs _ k i st) (room_of_not_needed (by rw [hpc]; rfl))
  case pick =>
    cases hstep
    rw [room_iff (by rw [hpc]; rfl), pick_fits_iff hs hu hpc]
  case add k st =>
    by_cases hst : st = .numInc
    · subst hst
      cases hstep
      rw [room_iff (by rw [hpc]; rfl), numInc_fits_iff hs]
    · have hfits := add_fits hs hpc hst a.value
      cases st with
      | numInc => exact absurd rfl hst
      | _ =>
        cases hstep
        exact iff_of_true hfits (room_of_not_needed (by rw [hpc]; rfl))
  case done => cases hstep

theorem step_fits (hs : Fits s) (hu : Uploads s) {a : Act n} (hstep : step a s = some t) :
    Fits t ↔ Room a s := by
  obtain ⟨-, ⟨hcrash, rfl⟩ | ⟨-, haccess⟩⟩ := step_cases hstep
  · refine iff_of_true (fits_kill hs _) ?_
    unfold Child.Crashes at hcrash
    split at hcrash
    · rename_i hpc
      exact room_of_not_needed (by rw [hpc]; rfl)
    · rename_i hpc
      exact room_of_not_needed (by rw [hpc]; rfl)
    · exact hcrash.elim
  · exact access_fits hs hu haccess

theorem step_uploads (hu : Uploads s) {a : Act n} (hstep : step a s = some t) : Uploads t := by
  obtain ⟨-, ⟨-, rfl⟩ | ⟨-, haccess⟩⟩ := step_cases hstep
  · exact uploads_kill hu _
  · exact access_uploads hu haccess

end Steps

section Runs

theorem childOf_uploads (cfg : Config place) (text : CStr)
    (h : (childOf cfg text).call.operation = .uploadFile) :
    fileWord text.bytes = some (childOf cfg text).call.file := by
  cases hr : request text.bytes with
  | upload file => simpa [childOf, hr, callOf] using upload_word hr
  | _ => simp [childOf, hr, callOf] at h

theorem opening_uploads (cfg : Config place) (texts : Fin n → CStr)
    (hwords : ∀ p, ∀ w ∈ fileWord (texts p).bytes, w.length < nameSize) :
    Uploads (opening cfg texts) where
  names p hop := hwords p _ (childOf_uploads cfg (texts p) hop)
  picks p hpick := by
    simp only [opening, childOf] at hpick
    split at hpick <;> cases hpick

theorem opening_fits (cfg : Config place) (texts : Fin n → CStr)
    (h : InTable (listFiles place cfg)) : Fits (opening cfg texts) where
  stores p k st hadd := by
    simp only [opening, childOf] at hadd
    split at hadd <;> cases hadd
  names p k hadd := by
    simp only [opening, childOf] at hadd
    split at hadd <;> cases hadd
  count := Int.ofNat_le.mpr h.count

/-- Whatever the requests and the order of their accesses, everything is within
bounds exactly if the directory has at most 100 files, no name in a request is
too long, and uploads have room. -/
theorem overflow_iff (cfg : Config place) (texts : Fin n → CStr) (as : List (Act n)) (t : State n)
    (hrun : run step as (opening cfg texts) = some t) : InBounds cfg texts as ↔
      (cfg.opendirOk = true → (cfg.entries.filter (·.regular)).length ≤ maxFiles) ∧
        (∀ p, ∀ w ∈ fileWord (texts p).bytes, w.length < nameSize) ∧
        Meets step Room as (opening cfg texts) := by
  have hparsed : (∀ p, ∀ w ∈ fileStores (texts p).bytes, w.length < nameSize) ↔
      ∀ p, ∀ w ∈ fileWord (texts p).bytes, w.length < nameSize := by
    simp only [mem_fileStores, Option.mem_def]
  have hserved (hlisted : InTable (listFiles place cfg))
      (hwords : ∀ p, ∀ w ∈ fileWord (texts p).bytes, w.length < nameSize) :
      Throughout step Fits as (opening cfg texts) ↔ Meets step Room as (opening cfg texts) :=
    throughout_iff_meets step Room Fits Uploads (fun _ _ _ hs hu h => step_fits hs hu h)
      (fun _ _ _ _ hu _ h => step_uploads hu h) as _ t (opening_fits cfg texts hlisted)
      (opening_uploads cfg texts hwords) hrun
  rw [← listFiles_inTable]
  constructor
  · rintro ⟨hlisted, hstores, hall⟩
    exact ⟨hlisted, hparsed.mp hstores, (hserved hlisted (hparsed.mp hstores)).mp hall⟩
  · rintro ⟨hlisted, hwords, hroom⟩
    exact ⟨hlisted, hparsed.mpr hwords, (hserved hlisted hwords).mpr hroom⟩

end Runs

def uploadA : Fin 1 → CStr := fun _ => ⟨ascii "upload a", by decide⟩

/-- An upload to an empty directory, up to its end. -/
theorem overflow_iff_upload : InBounds TableBalance.emptyDirectory uploadA (plain 0 8) := by
  have hends :
      (run step (plain 0 8) (opening TableBalance.emptyDirectory uploadA)).isSome = true := by
    decide +kernel
  obtain ⟨t, ht⟩ := Option.isSome_iff_exists.mp hends
  exact (overflow_iff TableBalance.emptyDirectory uploadA (plain 0 8) t ht).mpr
    ⟨by decide, by decide +kernel, by decide +kernel⟩

section Solo

variable {s : State n} {p : Fin n} (halive : (s.children p).alive = true)

theorem goto_goto (s : State n) (p : Fin n) (pc pc' : Pc) :
    (s.goto p pc).goto p pc' = s.goto p pc' := by
  simp [State.goto]

include halive

theorem look_step {i : ℤ} (hpc : (s.children p).pc = .look i) :
    step ⟨p, 0⟩ s = some (s.goto p
      (if i < s.numFiles then .compare i else (s.children p).call.missing)) := by
  simp [step, halive, hpc, Pc.Inside, Pc.index, Child.Crashes, access]

theorem compare_step {i : ℤ} (hpc : (s.children p).pc = .compare i) (hi : 0 ≤ i ∧ i < maxFiles)
    (hname : (s.table i).name ≠ (s.children p).call.file) :
    step ⟨p, 0⟩ s = some (s.goto p (.look (i+1))) := by
  simp [step, halive, hpc, Pc.Inside, Pc.index, hi, Child.Crashes, access, hname]

theorem look_run {i : ℤ} (hpc : (s.children p).pc = .look i)
    (hop : (s.children p).call.operation = .uploadFile) (m : ℕ) (hi : 0 ≤ i)
    (hm : i+m = s.numFiles) (hroom : s.numFiles ≤ maxFiles)
    (hnames : ∀ j, i ≤ j → j < s.numFiles → (s.table j).name ≠ (s.children p).call.file) :
    run step (plain p (2*m+1)) s = some (s.goto p .pick) := by
  induction m generalizing s i with
  | zero =>
    have hlook := look_step halive hpc
    rw [if_neg (by omega), Call.missing, if_pos hop] at hlook
    exact (run_cons_iff step _ _ _ _).mpr ⟨_, hlook, rfl⟩
  | succ m ih =>
    have hlook := look_step halive hpc
    rw [if_pos (by omega)] at hlook
    have hcompare := compare_step (s := s.goto p (.compare i)) (p := p) (by simpa using halive)
      (i := i) (by rw [goto_self]) (by omega)
      (by rw [goto_table, goto_call]; exact hnames i (le_refl i) (by omega))
    rw [goto_goto] at hcompare
    have hrest := ih (s := s.goto p (.look (i+1))) (i := i+1) (by simpa using halive)
      (by rw [goto_self]) (by simpa using hop) (by omega) (by rw [goto_numFiles]; omega) hroom
      (fun j hj hjn => by rw [goto_call]; exact hnames j (by omega) hjn)
    rw [goto_goto] at hrest
    exact (run_cons_iff step _ _ _ _).mpr
      ⟨_, hlook, (run_cons_iff step _ _ _ _).mpr ⟨_, hcompare, hrest⟩⟩

theorem add_run {k : ℤ} (hpc : (s.children p).pc = .add k .setName) (hk : 0 ≤ k ∧ k < maxFiles) :
    run step (plain p 6) s = some ({ s with
      table := Function.update s.table k
        { s.table k with name := (s.children p).call.file, fd := 0, readers := 0, writers := 0 }
      numFiles := s.numFiles+1 }.goto p .done) := by
  simp [plain, run, step, halive, hpc, Pc.Inside, Pc.index, hk, Child.Crashes, access, addStep,
    State.goto, State.store]

theorem pick_step (hpc : (s.children p).pc = .pick) :
    step ⟨p, 0⟩ s = some (s.goto p (.add s.numFiles .setName)) := by
  simp [step, halive, hpc, Pc.Inside, Pc.index, Child.Crashes, access]

end Solo

/-- A directory of `m` files `aa`, `ab` and so on. -/
def crowded (m : ℕ) (hm : m ≤ 101) : Config (id : Bytes → Bytes) where
  inherited := []
  disk := ⟨⟨fun _ => some 0, 1, []⟩, fun _ => some []⟩
  segment := fun _ => ⟨[], 0, 0, 0, 0⟩
  opendirOk := true
  entries := (List.range m).map
    (fun i => ⟨[UInt8.ofNat (97+i/10), UInt8.ofNat (97+i%10)], true, true⟩)
  old := by
    rintro l x ⟨⟩
    exact Nat.zero_lt_one
  distinct := by
    rw [List.map_map]
    apply List.Nodup.map_on _ List.nodup_range
    intro i hi j hj heq
    have hi := List.mem_range.mp hi
    have hj := List.mem_range.mp hj
    have hletters : UInt8.ofNat (97+i/10) = UInt8.ofNat (97+j/10) ∧
        UInt8.ofNat (97+i%10) = UInt8.ofNat (97+j%10) := by simpa using heq
    simp only [← UInt8.toNat_inj, UInt8.toNat_ofNat'] at hletters
    omega
  short := by
    intro e he
    obtain ⟨i, -, rfl⟩ := List.mem_map.mp he
    show 2 < 256
    decide
  regular := fun _ _ _ => ⟨0, [], rfl, rfl⟩

theorem crowded_table (m : ℕ) (hm : m ≤ 101) : (listFiles id (crowded m hm)).numFiles = m ∧
    ∀ i < m, ((listFiles id (crowded m hm)).table i).name.length = 2 := by
  have hnames := (TableEffects.listFiles_listing (crowded m hm)).2.1
  have hfilter : (crowded m hm).entries.filter (·.regular) = (crowded m hm).entries := by
    rw [List.filter_eq_self]
    intro e he
    obtain ⟨i, -, rfl⟩ := List.mem_map.mp he
    rfl
  rw [if_pos (show (crowded m hm).opendirOk = true from rfl), hfilter] at hnames
  have hlength : (crowded m hm).entries.length = m := by simp [crowded]
  have hcount := congrArg List.length hnames
  rw [List.length_map, TableEffects.entries_length, List.length_map, hlength] at hcount
  refine ⟨hcount, fun i hi => ?_⟩
  have hmem : ((listFiles id (crowded m hm)).table i).name ∈
      (listFiles id (crowded m hm)).entries.map Entry.name := by
    apply List.mem_map_of_mem
    exact List.mem_map_of_mem (List.mem_range.mpr (by omega))
  rw [hnames] at hmem
  obtain ⟨e, he, hname⟩ := List.mem_map.mp hmem
  obtain ⟨j, -, rfl⟩ := List.mem_map.mp he
  rw [← hname]
  rfl

def uploads : Fin 2 → CStr
  | 0 => ⟨ascii "upload x", by decide⟩
  | 1 => ⟨ascii "upload y", by decide⟩

theorem uploads_one (cfg : Config place) (p : Fin 2) :
    ((opening cfg uploads).children p).alive = true ∧
      ((opening cfg uploads).children p).pc = .look 0 ∧
      ((opening cfg uploads).children p).call.operation = .uploadFile ∧
      ((opening cfg uploads).children p).call.file.length = 1 := by
  have hrequest : ∃ c, request (uploads p).bytes = .upload [c] := by
    match p with
    | 0 => exact ⟨120, by decide⟩
    | 1 => exact ⟨121, by decide⟩
  obtain ⟨c, hc⟩ := hrequest
  simp [opening, childOf, hc, callOf]

/-- Uploads that have taken their indices both count their files. -/
theorem both_add {s : State 2} {k : ℤ} (hk : 0 ≤ k ∧ k < maxFiles)
    (h : ∀ p, (s.children p).alive = true ∧ (s.children p).pc = .add k .setName) :
    ∃ t, run step (plain 0 6 ++ plain 1 6) s = some t ∧ t.numFiles = s.numFiles+2 := by
  have hfirst := add_run (h 0).1 (h 0).2 hk
  generalize hu : State.goto _ _ _ = u at hfirst
  have hother : u.children 1 = s.children 1 := by
    rw [← hu]
    exact goto_other _ _ (by decide)
  have hsecond := add_run (s := u) (p := 1) (hother ▸ (h 1).1) (hother ▸ (h 1).2) hk
  refine ⟨_, (run_append_iff step _ _ _ _).mpr ⟨u, hfirst, hsecond⟩, ?_⟩
  rw [goto_numFiles, ← hu, goto_numFiles]
  dsimp only
  omega

/-- Two uploads that both find 99 names. -/
def bothPick : List (Act 2) :=
  plain first 199 ++ (plain second 199 ++ (plain first 1 ++ (plain second 1 ++
    (plain first 6 ++ plain second 6))))

theorem both_counted {s : State 2} (hfiles : s.numFiles = 99)
    (hchild : ∀ p, (s.children p).alive = true ∧ (s.children p).pc = .look 0 ∧
      (s.children p).call.operation = .uploadFile)
    (hnames : ∀ p j, 0 ≤ j → j < s.numFiles → (s.table j).name ≠ (s.children p).call.file) :
    ∃ t, run step bothPick s = some t ∧ t.numFiles = 101 := by
  have hmax : maxFiles = 100 := rfl
  have halive (p : Fin 2) (a b c d : Pc) : (((((s.goto 0 a).goto 1 b).goto 0 c).goto 1 d).children
      p).alive = true := by simpa using (hchild p).1
  -- both look in vain
  have hfirst := look_run (hchild 0).1 (hchild 0).2.1 (hchild 0).2.2 99 (le_refl 0)
    (by omega) (by omega) (hnames 0)
  have hsecond := look_run (s := s.goto 0 .pick) (p := 1) (i := 0) (by simpa using (hchild 1).1)
    (by rw [goto_other _ _ (by decide)]; exact (hchild 1).2.1) (by simpa using (hchild 1).2.2) 99
    (le_refl 0) (by rw [goto_numFiles]; omega) (by rw [goto_numFiles]; omega)
    (fun j hj hjn => by rw [goto_call]; exact hnames 1 j hj hjn)
  -- and take the same index
  have hthird := pick_step (s := (s.goto 0 .pick).goto 1 .pick) (p := 0)
    (by simpa using (hchild 0).1) (by rw [goto_other _ _ (by decide), goto_self])
  have hfourth := pick_step (s := ((s.goto 0 .pick).goto 1 .pick).goto 0 (.add s.numFiles .setName))
    (p := 1) (by simpa using (hchild 1).1) (by rw [goto_other _ _ (by decide), goto_self])
  obtain ⟨t, ht, hnum⟩ := both_add (s := ((((s.goto 0 .pick).goto 1 .pick).goto 0
      (.add s.numFiles .setName)).goto 1 (.add s.numFiles .setName))) (k := s.numFiles)
    (by omega) (fun p => ⟨halive p _ _ _ _, by
      match p with
      | 0 => rw [goto_other _ _ (by decide), goto_self]
      | 1 => rw [goto_self]⟩)
  refine ⟨t, ?_, by rw [hnum]; simp only [goto_numFiles]; omega⟩
  have hone (p : Fin 2) {u v : State 2} (h : step ⟨p, 0⟩ u = some v) :
      run step (plain p 1) u = some v := (run_cons_iff step _ _ _ _).mpr ⟨v, h, rfl⟩
  exact (run_append_iff step _ _ _ _).mpr ⟨_, hfirst, (run_append_iff step _ _ _ _).mpr
    ⟨_, hsecond, (run_append_iff step _ _ _ _).mpr ⟨_, hone 0 hthird,
      (run_append_iff step _ _ _ _).mpr ⟨_, hone 1 hfourth, ht⟩⟩⟩⟩

/-- 101 files run over `num_files`, a long name over `file`, and two uploads that
both find 99 names make 101 of them. -/
theorem table_overflows :
    (∀ (texts : Fin 0 → CStr), ¬ InBounds (crowded 101 (by decide)) texts []) ∧
    (∀ (texts : Fin 1 → CStr), (texts 0).bytes = ascii "readF " ++ List.replicate 256 97 →
      ¬ InBounds TableBalance.emptyDirectory texts []) ∧
    ¬ InBounds (crowded 99 (by decide)) uploads bothPick := by
  refine ⟨fun texts h => ?_, fun texts htext h => ?_, fun h => ?_⟩
  · have hle := (listFiles_inTable _).mp h.listed rfl
    revert hle
    decide
  · have hlong := h.parsed 0 (List.replicate 256 97)
      ((mem_fileStores _ _).mpr (by rw [htext]; decide +kernel))
    revert hlong
    decide +kernel
  · obtain ⟨hnum, hlength⟩ := crowded_table 99 (by decide)
    have hone := uploads_one (crowded 99 (by decide))
    obtain ⟨t, ht, hcount⟩ := both_counted (s := opening (crowded 99 (by decide)) uploads)
      (by rw [opening_numFiles, hnum, Nat.cast_ofNat])
      (fun p => ⟨(hone p).1, (hone p).2.1, (hone p).2.2.1⟩)
      (fun p j hj hjn heq => by
        rw [opening_numFiles, hnum] at hjn
        have hfile := (hone p).2.2.2
        rw [← heq, opening_table, hlength j.toNat (by omega)] at hfile
        cases hfile)
    have hbound := (h.served.last ht).count
    have hmax : maxFiles = 100 := rfl
    omega

end CSE344.TableOverflow
