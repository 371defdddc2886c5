import SystemProgramming.TableCalls

/-!
# What the helpers of the midterm server do

One lemma for each helper says all it can do to the table, the descriptors and
the disk. The table is read as the list of its entries in use: an upload adds
one at the end, a download erases one, and everything else leaves the list as
it was, unless the child crashes in between.
-/

set_option autoImplicit false

namespace CSE344.TableEffects
open CString ProcessFiles FileBytes TableCalls
open TableDescriptors (fifoPath)
open TableMachine (Entry asInt asInt_asInt asInt_add)
open FifoSession (overlay)

variable {Loc : Type*}

section Entries

variable {s : State Loc} {file : Bytes} {i : ℕ}

theorem mem_entries {e : Entry} : e ∈ s.entries ↔ ∃ i, i < s.numFiles ∧ s.table i = e := by
  simp [State.entries]

theorem entries_length (s : State Loc) : s.entries.length = s.numFiles := by simp [State.entries]

theorem find_some (h : s.find file = some i) :
    i < s.numFiles ∧ (s.table i).name = file ∧ s.table i ∈ s.entries := by
  have hmem := List.mem_of_find?_eq_some h
  have hname := List.find?_some h
  have hi : i < s.numFiles := List.mem_range.mp hmem
  exact ⟨hi, by simpa using hname, mem_entries.mpr ⟨i, hi, rfl⟩⟩

theorem find_none : s.find file = none ↔ ∀ e ∈ s.entries, e.name ≠ file := by
  simp [State.find, State.entries]

theorem named_iff : file ∈ s.entries.map Entry.name ↔ ∃ i, s.find file = some i := by
  rw [← Option.isSome_iff_exists, ← Option.ne_none_iff_isSome, ne_eq, find_none]
  simp

theorem not_named (h : s.find file = none) : file ∉ s.entries.map Entry.name := by
  rw [named_iff, h]
  rintro ⟨i, hi⟩
  cases hi

theorem shiftLeft_apply (k n : ℕ) (table : ℕ → Entry) (i : ℕ) :
    shiftLeft k n table i = if k ≤ i ∧ i+1 < n then table (i+1) else table i := by
  have hloop (m : ℕ) : ∀ (k : ℕ) (t : ℕ → Entry),
      (List.range' k m).foldl (fun t i => Function.update t i (t (i+1))) t i =
        if k ≤ i ∧ i < k+m then t (i+1) else t i := by
    induction m with
    | zero =>
      intro k t
      rw [if_neg (by omega)]
      rfl
    | succ m ih =>
      intro k t
      rw [List.range'_succ, List.foldl_cons, ih]
      by_cases hk : i = k
      · subst hk
        rw [if_neg (by omega), if_pos (by omega), Function.update_self]
      · rw [Function.update_of_ne hk]
        split_ifs with h h' h'
        · rw [Function.update_of_ne (by omega)]
        · omega
        · omega
        · rfl
  rw [shiftLeft, hloop]
  congr 1
  rw [eq_iff_iff]
  omega

theorem entries_shift (s : State Loc) (h : i < s.numFiles) :
    (List.range (s.numFiles-1)).map (shiftLeft i s.numFiles s.table) = s.entries.eraseIdx i := by
  apply List.ext_getElem
  · rw [List.length_eraseIdx_of_lt (by rwa [entries_length]), entries_length]
    simp
  · intro j h₁ h₂
    simp only [List.length_map, List.length_range] at h₁
    rw [List.getElem_map, List.getElem_range, shiftLeft_apply, List.getElem_eraseIdx]
    simp only [State.entries, List.getElem_map, List.getElem_range]
    split_ifs <;> first | rfl | omega

theorem map_setEntry {β : Type*} (g : Entry → β) (s : State Loc) (i : ℕ) {e : Entry}
    (he : g e = g (s.table i)) : (s.setEntry i e).entries.map g = s.entries.map g := by
  simp only [State.entries, State.setEntry, List.map_map]
  apply List.map_congr_left
  intro j _
  by_cases hj : j = i
  · subst hj
    simpa using he
  · simp [Function.update_of_ne hj]

theorem entries_push (s : State Loc) (server : Table Description) (d : Disk Loc) (e : Entry) :
    State.entries { s with
      server := server
      disk := d
      table := Function.update s.table s.numFiles e
      numFiles := s.numFiles+1 } = s.entries ++ [e] := by
  simp only [State.entries, List.range_succ, List.map_append, List.map_cons, List.map_nil,
    Function.update_self]
  congr 1
  apply List.map_congr_left
  intro i hi
  rw [Function.update_of_ne (Nat.ne_of_lt (List.mem_range.mp hi))]

theorem forall_push {P : Entry → Prop} (s : State Loc) (server : Table Description) (d : Disk Loc)
    (e : Entry) : (∀ e' ∈ State.entries { s with
      server := server
      disk := d
      table := Function.update s.table s.numFiles e
      numFiles := s.numFiles+1 }, P e') ↔ (∀ e' ∈ s.entries, P e') ∧ P e := by
  rw [entries_push, List.forall_mem_append, List.forall_mem_singleton]

theorem eraseIdx_filter (l : List Entry) (hl : (l.map Entry.name).Nodup) (hi : i < l.length) :
    l.eraseIdx i = l.filter (fun e => e.name ≠ l[i].name) := by
  induction l generalizing i with
  | nil => cases hi
  | cons e l ih =>
    obtain ⟨hnot, hl⟩ := List.nodup_cons.mp hl
    cases i with
    | zero =>
      have hall : ∀ e' ∈ l, e'.name ≠ e.name := by
        intro e' he' heq
        exact hnot (heq ▸ List.mem_map_of_mem he')
      simp only [List.eraseIdx_cons_zero, List.getElem_cons_zero]
      rw [List.filter_cons_of_neg (by simp), List.filter_eq_self.mpr (by simpa using hall)]
    | succ i =>
      have hi' : i < l.length := by simpa using hi
      have hne : e.name ≠ l[i].name := by
        intro heq
        exact hnot (heq ▸ List.mem_map_of_mem (List.getElem_mem hi'))
      simp only [List.eraseIdx_cons_succ, List.getElem_cons_succ]
      rw [List.filter_cons_of_pos (by simpa using hne), ih hl hi']

theorem entries_removed (hnames : (s.entries.map Entry.name).Nodup) (hi : s.find file = some i) :
    (List.range (s.numFiles-1)).map (shiftLeft i s.numFiles s.table) =
      s.entries.filter (fun e => e.name ≠ file) := by
  obtain ⟨hlt, hname, -⟩ := find_some hi
  have hlen : i < s.entries.length := by rwa [entries_length]
  have hget : s.entries[i].name = file := by simpa [State.entries] using hname
  have hfilter := eraseIdx_filter s.entries hnames hlen
  rw [hget] at hfilter
  exact (entries_shift s hlt).trans hfilter

end Entries

section Descriptors

variable {s : State Loc} {fd : ℤ} {x offset : ℕ} {c : Bytes}

theorem lookup_child {n : ℕ} {d : Description} (h : lookup s.child n = some d) (hd : d ≠ .other) :
    lookup s.server n = some d := by
  by_cases hn : n = free s.server
  · rw [hn, State.child, lookup_install_free] at h
    exact absurd (Option.some.inj h).symm hd
  · rwa [State.child, lookup_install_ne _ _ hn] at h

theorem file_some (h : s.file fd = some (x, offset, c)) :
    0 ≤ fd ∧ lookup s.server fd.toNat = some (.file x offset) ∧ s.disk.contents x = some c := by
  unfold State.file at h
  split_ifs at h with hfd
  split at h
  · rename_i x' offset' hlook
    obtain ⟨c', hc, heq⟩ := Option.map_eq_some_iff.mp h
    cases heq
    exact ⟨by omega, lookup_child hlook nofun, hc⟩
  · cases h

theorem file_of_open (hfd : 0 ≤ fd) (hopen : lookup s.server fd.toNat = some (.file x offset))
    (hc : s.disk.contents x = some c) : s.file fd = some (x, offset, c) := by
  have hchild : lookup s.child fd.toNat = some (.file x offset) := lookup_install hopen _
  rw [State.file, if_neg (by omega), hchild]
  simp [hc]

theorem lookup_free_child (s : State Loc) : lookup s.server (free s.child) = none := by
  rw [Option.eq_none_iff_forall_ne_some]
  intro d h
  cases (lookup_install h .other).symm.trans (lookup_free s.child)

theorem lookup_seek (s : State Loc) {n : ℕ} {d : Description}
    (h : lookup s.server fd.toNat = some d) :
    lookup (s.seek fd x offset).server n =
      if n = fd.toNat then some (.file x offset) else lookup s.server n := by
  have hlt : fd.toNat < s.server.length := by
    by_contra hlt
    rw [lookup, List.getElem?_eq_none (by omega)] at h
    cases h
  rw [lookup, State.seek]
  split_ifs with hn
  · rw [hn, List.getElem?_set_self hlt]
    rfl
  · rw [List.getElem?_set_ne (Ne.symm hn), lookup]

end Descriptors

section Counters

variable (s : State Loc) (i : ℕ)

theorem update_twice {α : Type*} (t : ℕ → α) (e : α) :
    Function.update (Function.update t i e) i (t i) = t := by
  rw [Function.update_idem, Function.update_eq_self]

theorem file_addReaders (k fd : ℤ) : (s.addReaders i k).file fd = s.file fd := rfl

theorem file_addWriters (k fd : ℤ) : (s.addWriters i k).file fd = s.file fd := rfl

theorem addReaders_cancel : (s.addReaders i 1).addReaders i (-1) = s := by
  have h : (s.table i).readers+1+(-1) = (s.table i).readers := by omega
  simp only [State.addReaders, State.setEntry, Function.update_self, h]
  rw [update_twice]

theorem addWriters_cancel : (s.addWriters i 1).addWriters i (-1) = s := by
  have h : (s.table i).writers+1+(-1) = (s.table i).writers := by omega
  simp only [State.addWriters, State.setEntry, Function.update_self, h]
  rw [update_twice]

end Counters

section Chunks

/-- The disk after the chunks were stored. -/
def stored (x : Option ℕ) : List Bytes → ℕ → Disk Loc → Disk Loc
  | [], _, d => d
  | b::bs, pos, d => stored x bs (pos+b.length) (x.elim d (fun x => d.put x pos b))

/-- The size after the chunks were counted. -/
def counted (bs : List Bytes) (size : ℤ) : ℤ := bs.foldl (fun n b => asInt (n + b.length)) size

theorem counted_eq (bs : List Bytes) {size : ℤ} (h : asInt size = size) :
    counted bs size = asInt (size + bs.flatten.length) := by
  induction bs generalizing size with
  | nil =>
    rw [List.flatten_nil, List.length_nil, Nat.cast_zero, add_zero, h]
    rfl
  | cons b bs ih =>
    show counted bs (asInt (size + b.length)) = _
    rw [ih (asInt_asInt _), asInt_add, List.flatten_cons, List.length_append, Nat.cast_add,
      add_assoc]

theorem receive_eq (x : Option ℕ) (i : ℕ) (bs : List Bytes) (pos : ℕ) (s : State Loc) :
    receive x i bs pos s = { s with disk := stored x bs pos s.disk }.setEntry i
      { s.table i with size := counted bs (s.table i).size } := by
  induction bs generalizing pos s with
  | nil => simp [receive, stored, counted, State.setEntry]
  | cons b bs ih =>
    rw [receive, ih]
    simp only [State.setEntry, stored, counted, Function.update_self, Function.update_idem,
      List.foldl_cons]

theorem stored_none (bs : List Bytes) (pos : ℕ) (d : Disk Loc) : stored none bs pos d = d := by
  induction bs generalizing pos with
  | nil => rfl
  | cons b bs ih => exact ih _

end Chunks

section Outcomes

variable [DecidableEq Loc] (place : Bytes → Loc) (env : Env) (file : Bytes) (line : ℤ)
  (string : Bytes) (s : State Loc)

inductive ReadOutcome : State Loc × Said → Prop
  | absent (hi : s.find file = none) (m : Bytes) : ReadOutcome (s.reply place env m, .noFile)
  | crashed (i : ℕ) (hi : s.find file = some i) (hline : 0 < line)
      (hfd : s.file (s.table i).fd = none) : ReadOutcome (s.addReaders i 1, .crashed)
  | failed (i : ℕ) (hi : s.find file = some i) (hline : ¬ 0 < line)
      (hfd : s.file (s.table i).fd = none) (m : Bytes) :
      ReadOutcome (s.reply place env m, .readError)
  | read (i : ℕ) (hi : s.find file = some i) (x offset : ℕ) (c : Bytes)
      (hfd : s.file (s.table i).fd = some (x, offset, c)) (pos : ℕ) (hle : offset ≤ pos)
      (hend : pos ≤ max offset c.length) (said : Said) (hsaid : said ≠ .crashed) (m : Bytes) :
      ReadOutcome ((s.seek (s.table i).fd x pos).reply place env m, said)

theorem fgetsLoop_flatten (n turns : ℕ) (c : Bytes) :
    (Stdio.fgetsLoop n turns c).flatten.length ≤ c.length := by
  induction turns generalizing c with
  | zero => simp [Stdio.fgetsLoop]
  | succ turns ih =>
    rw [Stdio.fgetsLoop]
    cases h : Stdio.fgets n c with
    | none => simp
    | some p =>
      have hsplit := congrArg List.length (Stdio.fgets_append h)
      have := ih p.2
      rw [List.length_append] at hsplit
      simp only [List.flatten_cons, List.length_append]
      omega

theorem streamLines_length (offset : ℕ) (c : Bytes) :
    (streamLines line offset c).flatten.length ≤ c.length-offset := by
  have h := fgetsLoop_flatten FifoSession.maxLine line.toNat (c.drop offset)
  rwa [List.length_drop] at h

theorem readFile_outcome : ReadOutcome place env file line s (readFile place env file line s) := by
  unfold readFile
  cases hi : s.find file with
  | none => exact .absent hi _
  | some i =>
    dsimp only
    rw [file_addReaders]
    cases hfd : s.file (s.table i).fd with
    | none =>
      split_ifs with hline
      · exact .crashed i hi hline hfd
      · dsimp only
        rw [addReaders_cancel]
        exact .failed i hi hline hfd _
    | some p =>
      obtain ⟨x, offset, c⟩ := p
      have hseek (pos : ℕ) : ((s.addReaders i 1).seek (s.table i).fd x pos).addReaders i (-1) =
          s.seek (s.table i).fd x pos := addReaders_cancel (s.seek (s.table i).fd x pos) i
      split_ifs with hline
      · dsimp only
        rw [hseek]
        have := streamLines_length line offset c
        apply ReadOutcome.read i hi x offset c hfd
        · omega
        · omega
        · split_ifs <;> exact nofun
      · dsimp only
        rw [hseek]
        have hlen : ((c.drop offset).take FifoSession.maxLine).length ≤ c.length-offset := by
          rw [List.length_take, List.length_drop]
          omega
        apply ReadOutcome.read i hi x offset c hfd
        · omega
        · omega
        · split_ifs <;> exact nofun

inductive WriteOutcome : Option (State Loc × Said) → Prop
  | absent (hi : s.find file = none) (m : Bytes) :
      WriteOutcome (some (s.reply place env m, .noFile))
  | asleep (i : ℕ) (hi : s.find file = some i) (hbusy : Busy i s) : WriteOutcome none
  | crashed (i : ℕ) (hi : s.find file = some i) (hidle : ¬ Busy i s) (hline : 0 < line)
      (hfd : s.file (s.table i).fd = none) : WriteOutcome (some (s.addWriters i 1, .crashed))
  | short (i : ℕ) (hi : s.find file = some i) (hidle : ¬ Busy i s) (hline : 0 < line)
      (x offset : ℕ) (c : Bytes) (hfd : s.file (s.table i).fd = some (x, offset, c))
      (hshort : (streamLines line offset c).length < line.toNat) (pos : ℕ) (hle : offset ≤ pos)
      (hend : pos ≤ max offset c.length) :
      WriteOutcome (some (s.seek (s.table i).fd x pos, .lineMissing))
  | line (i : ℕ) (hi : s.find file = some i) (hidle : ¬ Busy i s) (hline : 0 < line)
      (x offset : ℕ) (c : Bytes) (hfd : s.file (s.table i).fd = some (x, offset, c))
      (hlong : ¬ (streamLines line offset c).length < line.toNat) (start pos : ℕ) (m : Bytes) :
      WriteOutcome (some (({ s with disk := s.disk.put x start (string ++ [Stdio.newline]) }.seek
        (s.table i).fd x pos).reply place env m, .written))
  | lost (i : ℕ) (hi : s.find file = some i) (hidle : ¬ Busy i s) (hline : ¬ 0 < line)
      (hfd : s.file (s.table i).fd = none) (m : Bytes) :
      WriteOutcome (some (s.reply place env m, .written))
  | append (i : ℕ) (hi : s.find file = some i) (hidle : ¬ Busy i s) (hline : ¬ 0 < line)
      (x offset : ℕ) (c : Bytes) (hfd : s.file (s.table i).fd = some (x, offset, c)) (m : Bytes) :
      WriteOutcome (some (({ s with disk := s.disk.put x c.length string }.seek
        (s.table i).fd x (c.length+string.length)).reply place env m, .written))

theorem writeFile_outcome :
    WriteOutcome place env file line string s (writeFile place env file line string s) := by
  unfold writeFile
  cases hi : s.find file with
  | none => exact .absent hi _
  | some i =>
    dsimp only
    split_ifs with hbusy
    · exact .asleep i hi hbusy
    · unfold writeBody
      rw [file_addWriters]
      cases hfd : s.file (s.table i).fd with
      | none =>
        split_ifs with hline
        · exact .crashed i hi hbusy hline hfd
        · dsimp only
          rw [addWriters_cancel]
          exact .lost i hi hbusy hline hfd _
      | some p =>
        obtain ⟨x, offset, c⟩ := p
        have hback (d : Disk Loc) (pos : ℕ) :
            ({ s.addWriters i 1 with disk := d }.seek (s.table i).fd x pos).addWriters i (-1) =
              { s with disk := d }.seek (s.table i).fd x pos :=
          addWriters_cancel (State.seek (s.table i).fd x pos { s with disk := d }) i
        have := streamLines_length line offset c
        split_ifs with hline
        · simp only [Option.map_some]
          split_ifs with hshort
          · have hseek : ((s.addWriters i 1).seek (s.table i).fd x _).addWriters i (-1) = _ :=
              hback s.disk (offset+(streamLines line offset c).flatten.length+min env.ahead
                (c.length-(offset+(streamLines line offset c).flatten.length)))
            dsimp only
            rw [hseek]
            apply WriteOutcome.short i hi hbusy hline x offset c hfd hshort
            · omega
            · omega
          · dsimp only
            rw [hback]
            exact .line i hi hbusy hline x offset c hfd hshort _ _ _
        · dsimp only
          rw [hback]
          exact .append i hi hbusy hline x offset c hfd _

inductive UploadOutcome : State Loc × Said → Prop
  | present (i : ℕ) (hi : s.find file = some i) (m : Bytes) :
      UploadOutcome (s.reply place env m, .present)
  | uploaded (hi : s.find file = none) (d : Disk Loc) (fd : ℤ)
      (hok : env.openOk = true → fd = free s.child ∧
        d = stored ((s.disk.creat place file).fileAt place file) env.chunks 0
          (s.disk.creat place file))
      (hfail : env.openOk = false → fd = -1 ∧ d = s.disk) (m : Bytes) :
      UploadOutcome (State.reply place env m { s with
        disk := d
        table := Function.update s.table s.numFiles
          ⟨file, counted env.chunks (s.table s.numFiles).size, fd, 0, 0⟩
        numFiles := s.numFiles+1 }, .uploaded)

theorem uploadFile_outcome : UploadOutcome place env file s (uploadFile place env file s) := by
  unfold uploadFile
  cases hi : s.find file with
  | some i => exact .present i hi _
  | none =>
    dsimp only
    rw [receive_eq]
    simp only [State.setEntry, Function.update_self, Function.update_idem]
    cases hok : env.openOk with
    | true => exact .uploaded hi _ _ (fun _ => ⟨rfl, rfl⟩) (fun h => by cases hok.symm.trans h) _
    | false =>
      simp only [Bool.false_eq_true, if_false, stored_none]
      exact .uploaded hi _ _ (fun h => by cases hok.symm.trans h) (fun _ => ⟨rfl, rfl⟩) _

inductive DownloadOutcome : Option (State Loc × Said) → Prop
  | absent (hi : s.find file = none) (m : Bytes) :
      DownloadOutcome (some (s.reply place env m, .noFile))
  | asleep (i : ℕ) (hi : s.find file = some i) (hbusy : Busy i s) : DownloadOutcome none
  | downloaded (i : ℕ) (hi : s.find file = some i) (hidle : ¬ Busy i s) (server : Table Description)
      (hnone : s.file (s.table i).fd = none → server = s.server)
      (hsome : ∀ x offset c, s.file (s.table i).fd = some (x, offset, c) →
        server = (s.seek (s.table i).fd x (max offset c.length)).server) (m : Bytes) :
      DownloadOutcome (some (State.reply place env m { s with
        server := server
        disk := s.disk.unlink place env (s.table i).name
        table := shiftLeft i s.numFiles s.table
        numFiles := s.numFiles-1 }, .downloaded))

theorem downloadFile_outcome :
    DownloadOutcome place env file s (downloadFile place env file s) := by
  unfold downloadFile
  cases hi : s.find file with
  | none => exact .absent hi _
  | some i =>
    dsimp only
    split_ifs with hbusy
    · exact .asleep i hi hbusy
    · rw [file_addWriters]
      cases hfd : s.file (s.table i).fd with
      | none =>
        dsimp only
        rw [addWriters_cancel]
        apply DownloadOutcome.downloaded i hi hbusy s.server (fun _ => rfl)
        intro _ _ _ h
        cases hfd.symm.trans h
      | some p =>
        obtain ⟨x, offset, c⟩ := p
        have hback : ((s.addWriters i 1).seek (s.table i).fd x (max offset c.length)).addWriters
            i (-1) = s.seek (s.table i).fd x (max offset c.length) :=
          addWriters_cancel (s.seek (s.table i).fd x (max offset c.length)) i
        dsimp only
        rw [hback]
        apply DownloadOutcome.downloaded i hi hbusy
        · intro h
          cases hfd.symm.trans h
        · intro x' offset' c' h
          cases hfd.symm.trans h
          rfl

variable {place env s} {t : State Loc}

/-- What the four helpers keep, a call keeps. -/
theorem callStep_keeps {P : State Loc → Prop} {c : Call}
    (hread : ∀ file line, c = .readFile file line → P (readFile place env file line s).1)
    (hwrite : ∀ file line string t said, c = .writeFile file line string →
      writeFile place env file line string s = some (t, said) → P t)
    (hupload : ∀ file, c = .uploadFile file → P (uploadFile place env file s).1)
    (hdownload : ∀ file t said, c = .downloadFile file →
      downloadFile place env file s = some (t, said) → P t)
    (h : callStep place (c, env) s = some t) : P t := by
  obtain ⟨⟨u, said⟩, hcall, rfl⟩ := Option.map_eq_some_iff.mp h
  cases c with
  | readFile file line =>
    have heq : readFile place env file line s = (u, said) := Option.some.inj hcall
    rw [show u = (readFile place env file line s).1 by rw [heq]]
    exact hread file line rfl
  | writeFile file line string => exact hwrite file line string u said rfl hcall
  | uploadFile file =>
    have heq : uploadFile place env file s = (u, said) := Option.some.inj hcall
    rw [show u = (uploadFile place env file s).1 by rw [heq]]
    exact hupload file rfl
  | downloadFile file => exact hdownload file u said rfl hcall

end Outcomes

section Disks

variable (d : Disk Loc) (x pos : ℕ) (data : Bytes)

theorem put_self : (d.put x pos data).contents x = (d.contents x).map (writeAt pos data) :=
  Function.update_self _ _ _

theorem put_other {y : ℕ} (h : y ≠ x) : (d.put x pos data).contents y = d.contents y :=
  Function.update_of_ne h _ _

variable [DecidableEq Loc] {d} {place : Bytes → Loc} {path : Bytes}

theorem create_next (h : d.fileAt place path = none) :
    (d.directory.create (place path)).next = d.directory.next+1 := by
  unfold Directory.create
  rw [show d.directory.files (place path) = none from h]

theorem create_files (h : d.fileAt place path = none) :
    (d.directory.create (place path)).files =
      Function.update d.directory.files (place path) (some d.directory.next) := by
  unfold Directory.create
  rw [show d.directory.files (place path) = none from h]

end Disks

section Growth

/-- Files stay files, and no number is given out twice. -/
structure Grows (d d' : Disk Loc) : Prop where
  next : d.directory.next ≤ d'.directory.next
  kept : ∀ x < d.directory.next, (d.contents x).isSome = true → (d'.contents x).isSome = true

theorem Grows.refl (d : Disk Loc) : Grows d d := ⟨le_refl _, fun _ _ h => h⟩

theorem Grows.trans {d d' d'' : Disk Loc} (h : Grows d d') (h' : Grows d' d'') : Grows d d'' :=
  ⟨le_trans h.next h'.next,
    fun x hx hc => h'.kept x (lt_of_lt_of_le hx h.next) (h.kept x hx hc)⟩

theorem grows_put (d : Disk Loc) (x pos : ℕ) (data : Bytes) : Grows d (d.put x pos data) := by
  refine ⟨le_refl _, fun y _ hc => ?_⟩
  by_cases hy : y = x
  · subst hy
    rw [put_self]
    simpa using hc
  · rwa [put_other _ _ _ _ hy]

theorem grows_stored (x : Option ℕ) (bs : List Bytes) (pos : ℕ) (d : Disk Loc) :
    Grows d (stored x bs pos d) := by
  induction bs generalizing pos d with
  | nil => exact Grows.refl d
  | cons b bs ih =>
    cases x with
    | none => exact ih _ d
    | some x => exact (grows_put d x pos b).trans (ih _ _)

theorem grows_overwrite (place : Bytes → Loc) (path data : Bytes) (d : Disk Loc) :
    Grows d (d.overwrite place path data) := by
  unfold Disk.overwrite
  split
  · exact grows_put d _ 0 data
  · exact Grows.refl d

variable [DecidableEq Loc] (place : Bytes → Loc) (env : Env) (path : Bytes) (d : Disk Loc)

theorem grows_create (content : Option Bytes) (h : d.fileAt place path = none) :
    Grows d ⟨d.directory.create (place path),
      Function.update d.contents d.directory.next content⟩ := by
  refine ⟨?_, fun x hx hc => ?_⟩
  · rw [create_next h]
    exact Nat.le_succ _
  · simpa only [Function.update_of_ne (Nat.ne_of_lt hx)] using hc

theorem grows_mkfifo : Grows d (d.mkfifo place path) := by
  unfold Disk.mkfifo
  cases h : d.fileAt place path with
  | some x => exact Grows.refl d
  | none => exact grows_create place path d none h

theorem grows_creat : Grows d (d.creat place path) := by
  unfold Disk.creat
  cases h : d.fileAt place path with
  | some x =>
    refine ⟨le_refl _, fun y _ hc => ?_⟩
    by_cases hy : y = x
    · subst hy
      simpa using hc
    · simpa only [Function.update_of_ne hy] using hc
  | none => exact grows_create place path d (some []) h

theorem grows_unlink : Grows d (d.unlink place env path) := by
  unfold Disk.unlink
  split_ifs
  · exact ⟨le_refl _, fun _ _ h => h⟩
  · exact Grows.refl d

theorem grows_reply (m : Bytes) : Grows d (d.reply place env m) :=
  ((grows_mkfifo place _ d).trans (grows_overwrite place _ _ _)).trans (grows_unlink place env _ _)

end Growth

section Frames

/-- The name still stands for the file, and the file holds what it held. -/
structure Keeps (place : Bytes → Loc) (name : Bytes) (x : ℕ) (d d' : Disk Loc) : Prop where
  place : d'.fileAt place name = some x
  content : d'.contents x = d.contents x
  next : d.directory.next ≤ d'.directory.next

/-- The path is not another way to the file of the name. -/
def Apart (place : Bytes → Loc) (d : Disk Loc) (name path : Bytes) : Prop :=
  place name ≠ place path ∧
    ∀ x, d.fileAt place name = some x → d.fileAt place path ≠ some x

variable {place : Bytes → Loc} {d d' d'' : Disk Loc} {name path : Bytes} {x y : ℕ}

theorem Keeps.trans (h : Keeps place name x d d') (h' : Keeps place name x d' d'') :
    Keeps place name x d d'' :=
  ⟨h'.place, h'.content.trans h.content, le_trans h.next h'.next⟩

theorem put_keeps (hx : d.fileAt place name = some x) (hy : x ≠ y) (pos : ℕ) (data : Bytes) :
    Keeps place name x d (d.put y pos data) :=
  ⟨hx, Function.update_of_ne hy _ _, le_refl _⟩

variable [DecidableEq Loc] (hx : d.fileAt place name = some x) (hnew : x < d.directory.next)

include hx in
theorem create_fileAt (hpath : d.fileAt place path = none) :
    (d.directory.create (place path)).files (place name) = some x ∧
      (d.directory.create (place path)).files (place path) = some d.directory.next := by
  have hne : place name ≠ place path := by
    intro heq
    rw [Disk.fileAt, heq] at hx
    cases hpath.symm.trans hx
  rw [create_files hpath, Function.update_of_ne hne, Function.update_self]
  exact ⟨hx, rfl⟩

include hx hnew in
theorem create_keeps (hpath : d.fileAt place path = none) (content : Option Bytes) :
    Keeps place name x d ⟨d.directory.create (place path),
      Function.update d.contents d.directory.next content⟩ :=
  ⟨(create_fileAt hx hpath).1, Function.update_of_ne (Nat.ne_of_lt hnew) _ _,
    (grows_create place path d content hpath).next⟩

include hx hnew in
theorem mkfifo_keeps : Keeps place name x d (d.mkfifo place path) := by
  unfold Disk.mkfifo
  cases h : d.fileAt place path with
  | some y => exact ⟨hx, rfl, le_refl _⟩
  | none => exact create_keeps hx hnew h none

include hx in
theorem unlink_keeps (env : Env) (h : place name ≠ place path) :
    Keeps place name x d (d.unlink place env path) := by
  unfold Disk.unlink
  split_ifs
  · exact ⟨(Function.update_of_ne h _ _).trans hx, rfl, le_refl _⟩
  · exact ⟨hx, rfl, le_refl _⟩

theorem unlink_fileAt (env : Env) {p : Bytes} {y : ℕ}
    (h : (d.unlink place env path).fileAt place p = some y) : d.fileAt place p = some y := by
  unfold Disk.unlink at h
  split_ifs at h
  · have h' : Function.update d.directory.files (place path) none (place p) = some y := h
    by_cases heq : place p = place path
    · rw [heq, Function.update_self] at h'
      cases h'
    · rwa [Function.update_of_ne heq] at h'
  · exact h

theorem Apart.unlink {p : Bytes} (h : Apart place d name p) (env : Env) :
    Apart place (d.unlink place env path) name p :=
  ⟨h.1, fun y hy hp => h.2 y (unlink_fileAt env hy) (unlink_fileAt env hp)⟩

include hx hnew in
theorem reply_keeps (env : Env) (m : Bytes) (h : Apart place d name (fifoPath env.stray)) :
    Keeps place name x d (d.reply place env m) := by
  have hfifo := @mkfifo_keeps Loc place d name (fifoPath env.stray) x _ hx hnew
  have hother : (d.mkfifo place (fifoPath env.stray)).fileAt place (fifoPath env.stray) ≠
      some x := by
    unfold Disk.mkfifo
    cases hpath : d.fileAt place (fifoPath env.stray) with
    | some y =>
      intro heq
      exact h.2 x hx heq
    | none =>
      intro heq
      have hnext := (create_fileAt hx hpath).2.symm.trans heq
      cases hnext
      exact Nat.lt_irrefl _ hnew
  have hover : Keeps place name x d ((d.mkfifo place (fifoPath env.stray)).overwrite place
      (fifoPath env.stray) (overlay (fifoPath env.stray) (m++env.rest))) := by
    unfold Disk.overwrite
    split
    · rename_i y hy
      refine hfifo.trans (put_keeps hfifo.place ?_ 0 _)
      rintro rfl
      exact hother hy
    · exact hfifo
  exact hover.trans (unlink_keeps hover.place env h.1)

end Frames

section Old

/-- The numbers of the files in use have been given out. -/
def Old (d : Disk Loc) : Prop := ∀ l x, d.directory.files l = some x → x < d.directory.next

variable [DecidableEq Loc] {place : Bytes → Loc} {d : Disk Loc} {path : Bytes}

theorem create_old (h : Old d) (hpath : d.fileAt place path = none) (content : Option Bytes) :
    Old ⟨d.directory.create (place path),
      Function.update d.contents d.directory.next content⟩ := by
  intro l x hl
  show x < (d.directory.create (place path)).next
  rw [create_next hpath]
  have hl' : (d.directory.create (place path)).files l = some x := hl
  rw [create_files hpath] at hl'
  by_cases heq : l = place path
  · rw [heq, Function.update_self] at hl'
    cases hl'
    exact Nat.lt_succ_self _
  · rw [Function.update_of_ne heq] at hl'
    exact Nat.lt_succ_of_lt (h l x hl')

theorem mkfifo_old (h : Old d) : Old (d.mkfifo place path) := by
  unfold Disk.mkfifo
  cases hpath : d.fileAt place path with
  | some x => exact h
  | none => exact create_old h hpath none

theorem creat_old (h : Old d) : Old (d.creat place path) := by
  unfold Disk.creat
  cases hpath : d.fileAt place path with
  | some x => exact h
  | none => exact create_old h hpath (some [])

theorem unlink_old (h : Old d) (env : Env) : Old (d.unlink place env path) := by
  unfold Disk.unlink
  split_ifs
  · intro l x hl
    have hl' : Function.update d.directory.files (place path) none l = some x := hl
    by_cases heq : l = place path
    · rw [heq, Function.update_self] at hl'
      cases hl'
    · rw [Function.update_of_ne heq] at hl'
      exact h l x hl'
  · exact h

theorem reply_old (h : Old d) (env : Env) (m : Bytes) : Old (d.reply place env m) := by
  apply unlink_old
  unfold Disk.overwrite
  split <;> exact mkfifo_old h

end Old

section Stored

variable {d : Disk Loc} {x : ℕ} {c : Bytes}

theorem stored_directory (x : Option ℕ) (bs : List Bytes) (pos : ℕ) (d : Disk Loc) :
    (stored x bs pos d).directory = d.directory := by
  induction bs generalizing pos d with
  | nil => rfl
  | cons b bs ih =>
    rw [stored, ih]
    cases x <;> rfl

theorem stored_old {x : Option ℕ} {bs : List Bytes} {pos : ℕ} (h : Old d) :
    Old (stored x bs pos d) := by
  intro l y hl
  rw [stored_directory] at hl ⊢
  exact h l y hl

theorem stored_other (bs : List Bytes) (pos : ℕ) (d : Disk Loc) {y : ℕ} (h : y ≠ x) :
    (stored (some x) bs pos d).contents y = d.contents y := by
  induction bs generalizing pos d with
  | nil => rfl
  | cons b bs ih =>
    rw [stored, ih]
    exact Function.update_of_ne h _ _

theorem stored_content (bs : List Bytes) (h : d.contents x = some c) :
    (stored (some x) bs c.length d).contents x = some (c ++ bs.flatten) := by
  induction bs generalizing c d with
  | nil => simpa [stored] using h
  | cons b bs ih =>
    have hput : (d.put x c.length b).contents x = some (c++b) := by
      rw [put_self, h, Option.map_some, writeAt_end]
    have hrest := ih hput
    rw [List.length_append] at hrest
    rw [stored, Option.elim_some, hrest, List.append_assoc, List.flatten_cons]

/-- What `open` for an upload followed by the chunks leaves: the name stands
for a file that holds them, and every other file is as it was. -/
structure Uploaded (place : Bytes → Loc) (file : Bytes) (chunks : List Bytes) (d d' : Disk Loc)
    (x : ℕ) : Prop where
  bound : d'.fileAt place file = some x
  content : d'.contents x = some chunks.flatten
  origin : d.fileAt place file = some x ∨ d.fileAt place file = none ∧ x = d.directory.next
  names : ∀ p y, d.fileAt place p = some y → d'.fileAt place p = some y
  others : ∀ y, y < d.directory.next → y ≠ x → d'.contents y = d.contents y
  back : ∀ p y, d'.fileAt place p = some y → d.fileAt place p = some y ∨ place p = place file

theorem uploaded [DecidableEq Loc] {place : Bytes → Loc} {file : Bytes}
    (hreg : ∀ x, d.fileAt place file = some x → d.contents x ≠ none) (chunks : List Bytes) :
    ∃ x, Uploaded place file chunks d (stored ((d.creat place file).fileAt place file) chunks 0
      (d.creat place file)) x := by
  have hat (x : Option ℕ) (p : Bytes) (d : Disk Loc) :
      (stored x chunks 0 d).fileAt place p = d.fileAt place p := by
    rw [Disk.fileAt, stored_directory, Disk.fileAt]
  cases h : d.fileAt place file with
  | some x =>
    obtain ⟨c, hc⟩ := Option.ne_none_iff_exists'.mp (hreg x h)
    have hcreat : d.creat place file =
        { d with contents := Function.update d.contents x (some []) } := by
      simp only [Disk.creat, h, hc, Option.map_some]
    have hfile : (d.creat place file).fileAt place file = some x := by rw [hcreat]; exact h
    have hempty : (d.creat place file).contents x = some [] := by
      rw [hcreat]
      exact Function.update_self _ _ _
    refine ⟨x, ?_, ?_, Or.inl h, ?_, ?_, ?_⟩
    · rw [hat, hfile]
    · rw [hfile]
      exact stored_content chunks hempty
    · intro p y hp
      rw [hat, hcreat]
      exact hp
    · intro y _ hy
      rw [hfile, stored_other _ _ _ hy, hcreat]
      exact Function.update_of_ne hy _ _
    · intro p y hp
      rw [hat, hcreat] at hp
      exact Or.inl hp
  | none =>
    have hcreat : d.creat place file = ⟨d.directory.create (place file),
        Function.update d.contents d.directory.next (some [])⟩ := by
      simp only [Disk.creat, h]
    have hfiles : (d.creat place file).directory.files =
        Function.update d.directory.files (place file) (some d.directory.next) := by
      rw [hcreat]
      exact create_files h
    have hfile : (d.creat place file).fileAt place file = some d.directory.next := by
      rw [Disk.fileAt, hfiles, Function.update_self]
    have hempty : (d.creat place file).contents d.directory.next = some [] := by
      rw [hcreat]
      exact Function.update_self _ _ _
    refine ⟨d.directory.next, ?_, ?_, Or.inr ⟨h, rfl⟩, ?_, ?_, ?_⟩
    · rw [hat, hfile]
    · rw [hfile]
      exact stored_content chunks hempty
    · intro p y hp
      have hne : place p ≠ place file := by
        intro heq
        rw [Disk.fileAt, heq] at hp
        cases h.symm.trans hp
      rw [hat, Disk.fileAt, hfiles, Function.update_of_ne hne]
      exact hp
    · intro y _ hy
      rw [hfile, stored_other _ _ _ hy, hcreat]
      exact Function.update_of_ne hy _ _
    · intro p y hp
      by_cases heq : place p = place file
      · exact Or.inr heq
      · rw [hat, Disk.fileAt, hfiles, Function.update_of_ne heq] at hp
        exact Or.inl hp

end Stored

section Regular

/-- Every description of a file that the server holds is one of a regular file. -/
def Regular (server : Table Description) (d : Disk Loc) : Prop :=
  ∀ n x offset, lookup server n = some (.file x offset) →
    x < d.directory.next ∧ (d.contents x).isSome = true

variable {s : State Loc} {d : Disk Loc} {fd : ℤ} {x offset pos : ℕ} {c : Bytes}

theorem Regular.grows (h : Regular s.server s.disk) (hd : Grows s.disk d) :
    Regular s.server d := by
  intro n x offset hlook
  obtain ⟨hx, hc⟩ := h n x offset hlook
  exact ⟨lt_of_lt_of_le hx hd.next, hd.kept x hx hc⟩

theorem Regular.seek (h : Regular s.server d) (hfd : s.file fd = some (x, offset, c)) :
    Regular (s.seek fd x pos).server d := by
  obtain ⟨-, hlook, -⟩ := file_some hfd
  intro n y offset' hn
  rw [lookup_seek s hlook] at hn
  split_ifs at hn with heq
  · cases hn
    exact h fd.toNat x offset hlook
  · exact h n y offset' hn

theorem Regular.file (h : Regular s.server s.disk) (hfd : 0 ≤ fd)
    (hopen : lookup s.server fd.toNat = some (.file x offset)) :
    ∃ c, s.file fd = some (x, offset, c) := by
  obtain ⟨c, hc⟩ := Option.isSome_iff_exists.mp (h fd.toNat x offset hopen).2
  exact ⟨c, file_of_open hfd hopen hc⟩

end Regular

section Listing

variable {place : Bytes → Loc}

/-- What `list_files` makes of a file: an entry without a descriptor, or one
whose description stands at the end of the file. -/
def Listed (place : Bytes → Loc) (s : State Loc) (e : Entry) : Prop :=
  (e.fd = -1 ∧ e.size = -1) ∨ ∃ x c, 0 ≤ e.fd ∧
    lookup s.server e.fd.toNat = some (.file x c.length) ∧
    s.disk.fileAt place e.name = some x ∧ s.disk.contents x = some c ∧ e.size = asInt c.length

/-- The state in the middle of the loop; the directory stream has the number `d`. -/
structure Listing (cfg : Config place) (d : ℕ) (done : List Dirent) (s : State Loc) : Prop where
  stream : lookup s.server d = some .other
  disk : s.disk = cfg.disk
  names : s.entries.map Entry.name = (done.filter (·.regular)).map Dirent.name
  regular : Regular s.server s.disk
  entries : ∀ e ∈ s.entries, Listed place s e ∧ e.readers = 0 ∧ e.writers = 0
  opened : (∀ e ∈ done, e.regular = true → e.openOk = true) → ∀ e ∈ s.entries, 0 ≤ e.fd

variable {cfg : Config place} {d : ℕ} {done : List Dirent} {s : State Loc}

theorem Listed.more {e : Entry} (h : Listed place s e) {t : State Loc}
    (hserver : ∀ n x offset, lookup s.server n = some (.file x offset) →
      lookup t.server n = some (.file x offset)) (hdisk : t.disk = s.disk) : Listed place t e := by
  rcases h with h | ⟨x, c, hfd, hopen, hplace, hc, hsize⟩
  · exact Or.inl h
  · right
    rw [hdisk]
    exact ⟨x, c, hfd, hserver _ x c.length hopen, hplace, hc, hsize⟩

theorem opened_some {e : Dirent} {x : ℕ} {c : Bytes} (h : opened place e s = some (x, c)) :
    s.disk.fileAt place e.name = some x ∧ s.disk.contents x = some c := by
  unfold opened at h
  split_ifs at h
  obtain ⟨y, hy, hyc⟩ := Option.bind_eq_some_iff.mp h
  obtain ⟨c', hc', heq⟩ := Option.map_eq_some_iff.mp hyc
  cases heq
  exact ⟨hy, hc'⟩

theorem listing_entry (h : Listing cfg d done s) {e : Dirent} (he : e ∈ cfg.entries) :
    Listing cfg d (done ++ [e]) (listEntry place s e) := by
  have hdone (hall : ∀ e' ∈ done ++ [e], e'.regular = true → e'.openOk = true) :
      ∀ e' ∈ s.entries, 0 ≤ e'.fd :=
    h.opened (fun e' he' => hall e' (List.mem_append_left _ he'))
  unfold listEntry
  split_ifs with hreg
  · have hnames : ((done ++ [e]).filter (·.regular)).map Dirent.name =
        (done.filter (·.regular)).map Dirent.name ++ [e.name] := by simp [hreg]
    cases hop : opened place e s with
    | none =>
      refine ⟨h.stream, h.disk, ?_, h.regular, ?_, ?_⟩
      · rw [entries_push s s.server s.disk, List.map_append, h.names, hnames]
        rfl
      · exact (forall_push s s.server s.disk _).mpr ⟨h.entries, Or.inl ⟨rfl, rfl⟩, rfl, rfl⟩
      · intro hall
        obtain ⟨x, c, hplace, hc⟩ := cfg.regular e he hreg
        rw [← h.disk] at hplace hc
        have hok := hall e (List.mem_append_right _ (List.mem_singleton_self e)) hreg
        simp [opened, hok, hplace, hc] at hop
    | some p =>
      obtain ⟨x, c⟩ := p
      obtain ⟨hplace, hc⟩ := opened_some hop
      have hkeep (n : ℕ) (y offset : ℕ) (hn : lookup s.server n = some (.file y offset)) :
          lookup (install s.server (.file x c.length)) n = some (.file y offset) :=
        lookup_install hn _
      refine ⟨lookup_install h.stream _, h.disk, ?_, ?_, ?_, ?_⟩
      · rw [entries_push s (install s.server (.file x c.length)) s.disk, List.map_append, h.names,
          hnames]
        rfl
      · intro n y offset hn
        by_cases hfree : n = free s.server
        · subst hfree
          have heq := (lookup_install_free s.server (.file x c.length)).symm.trans hn
          cases heq
          refine ⟨?_, by rw [hc]; rfl⟩
          rw [h.disk] at hplace ⊢
          exact cfg.old _ _ hplace
        · exact h.regular n y offset ((lookup_install_ne _ _ hfree).symm.trans hn)
      · refine (forall_push s _ s.disk _).mpr ⟨fun e' he' => ?_, ?_⟩
        · exact ⟨(h.entries e' he').1.more hkeep rfl, (h.entries e' he').2⟩
        · refine ⟨Or.inr ⟨x, c, Int.natCast_nonneg _, ?_, hplace, hc, ?_⟩, rfl, rfl⟩
          · exact lookup_install_free s.server _
          · dsimp only
      · intro hall
        exact (forall_push s _ s.disk _).mpr ⟨hdone hall, Int.natCast_nonneg _⟩
  · refine ⟨h.stream, h.disk, ?_, h.regular, h.entries, hdone⟩
    rw [h.names, List.filter_append, List.filter_cons_of_neg hreg]
    simp

theorem listing_loop (h : Listing cfg d done s) (es : List Dirent)
    (hes : ∀ e ∈ es, e ∈ cfg.entries) :
    Listing cfg d (done++es) (es.foldl (listEntry place) s) := by
  induction es generalizing done s with
  | nil => simpa using h
  | cons e es ih =>
    have hnext := ih (listing_entry h (hes e (by simp))) (fun e' he' => hes e' (by simp [he']))
    rwa [List.append_assoc] at hnext

theorem no_inherited_file (t : Table Unit) (n : ℕ) {x offset : ℕ} :
    lookup (t.map (Option.map (fun _ => Description.other))) n ≠ some (.file x offset) := by
  rw [lookup, List.getElem?_map]
  rcases t[n]? with _ | _ | _ <;> simp

/-- The table that `list_files` leaves: an entry for each regular file, in the
order of the directory, and none in use. -/
theorem listFiles_listing (cfg : Config place) :
    (listFiles place cfg).disk = cfg.disk ∧
    (listFiles place cfg).entries.map Entry.name =
      (if cfg.opendirOk then (cfg.entries.filter (·.regular)).map Dirent.name else []) ∧
    Regular (listFiles place cfg).server (listFiles place cfg).disk ∧
    (∀ e ∈ (listFiles place cfg).entries,
      Listed place (listFiles place cfg) e ∧ e.readers = 0 ∧ e.writers = 0) ∧
    ((∀ e ∈ cfg.entries, e.regular = true → e.openOk = true) →
      ∀ e ∈ (listFiles place cfg).entries, 0 ≤ e.fd) := by
  unfold listFiles
  dsimp only
  split_ifs with hok
  · have hstart : Listing cfg (free cfg.before.server) []
        { cfg.before with server := install cfg.before.server .other } := by
      refine ⟨lookup_install_free _ _, rfl, rfl, ?_, nofun, fun _ => nofun⟩
      intro n x offset hn
      by_cases hfree : n = free cfg.before.server
      · rw [hfree, lookup_install_free] at hn
        cases hn
      · rw [lookup_install_ne _ _ hfree] at hn
        exact absurd hn (no_inherited_file _ n)
    have hend := listing_loop hstart cfg.entries (fun _ he => he)
    rw [List.nil_append] at hend
    generalize cfg.entries.foldl (listEntry place) _ = t at hend
    have hne {n x offset : ℕ} (hn : lookup t.server n = some (.file x offset)) :
        n ≠ free cfg.before.server := by
      rintro rfl
      rw [hend.stream] at hn
      cases hn
    have hclose {n x offset : ℕ} (hn : lookup t.server n = some (.file x offset)) :
        lookup (close t.server (free cfg.before.server)) n = some (.file x offset) :=
      (lookup_close_ne _ (hne hn)).trans hn
    refine ⟨hend.disk, hend.names, ?_, ?_, hend.opened⟩
    · intro n x offset hn
      by_cases hfree : n = free cfg.before.server
      · rw [hfree, lookup_close] at hn
        cases hn
      · exact hend.regular n x offset ((lookup_close_ne _ hfree).symm.trans hn)
    · intro e he
      exact ⟨(hend.entries e he).1.more (fun n x offset hn => hclose hn) rfl, (hend.entries e he).2⟩
  · exact ⟨rfl, rfl, fun n x offset hn => absurd hn (no_inherited_file _ n), nofun, fun _ => nofun⟩

end Listing

end CSE344.TableEffects
