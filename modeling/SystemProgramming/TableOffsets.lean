import SystemProgramming.TableSizes

/-!
# The offset that a read finds

`list_files` leaves every description at the end of its file, and no request
that keeps the content moves it from there: a stream finds the end at once, and
an append that adds something changes the content. So what `read_file` finds
does not depend on the requests before it, and it is the end of the file.
-/

set_option autoImplicit false

namespace CSE344.TableOffsets
open CString ProcessFiles Stdio TableCalls TableEffects TransitionRun
open TableDescriptors (fifoPath)
open TableMachine (Entry)
open TableBalance (Open)
open FifoSession (maxLine overlay)

variable {Loc : Type*}

/-- What the file of a name holds; nothing without a regular file. -/
def holds (place : Bytes → Loc) (f : Bytes) (d : Disk Loc) : Option Bytes :=
  (d.fileAt place f).bind d.contents

/-- What `read_file` is to find in a file that holds `c`: its line `k`, or its
beginning if `k` is 0. -/
def wanted (c : Bytes) (k : ℕ) : Said :=
  if k = 0 then if c = [] then .endOfFile else .chunk (c.take maxLine)
  else match (lines c)[k-1]? with
    | some line => .line line
    | none => .lineMissing

/-- The descriptions behind the entries of `f` belong to file `x` and stand behind `c`. -/
def AtEnd (f : Bytes) (x : ℕ) (c : Bytes) (s : State Loc) : Prop :=
  ∀ e ∈ s.entries, e.name = f → ∀ y offset, 0 ≤ e.fd →
    lookup s.server e.fd.toNat = some (.file y offset) → y = x ∧ offset = c.length

/-- The file `x` of the name `f` holds `c`, and its descriptions stand behind it. -/
structure Held (place : Bytes → Loc) (f : Bytes) (x : ℕ) (c : Bytes) (s : State Loc) : Prop where
  old : Old s.disk
  file : s.disk.fileAt place f = some x
  content : s.disk.contents x = some c
  atEnd : AtEnd f x c s

/-- The same unless the name or the content was lost. -/
structure Steady (place : Bytes → Loc) (f : Bytes) (x : ℕ) (c : Bytes) (s : State Loc) : Prop where
  old : Old s.disk
  file : s.disk.fileAt place f = some x ∨ holds place f s.disk = none
  atEnd : holds place f s.disk = some c → AtEnd f x c s

variable {place : Bytes → Loc} {f : Bytes} {x : ℕ} {c : Bytes} {s t : State Loc}

theorem Held.holds (h : Held place f x c s) : holds place f s.disk = some c := by
  rw [TableOffsets.holds, h.file, Option.bind_some, h.content]

theorem Held.steady (h : Held place f x c s) : Steady place f x c s :=
  ⟨h.old, Or.inl h.file, fun _ => h.atEnd⟩

theorem Steady.held (h : Steady place f x c s) (hc : TableOffsets.holds place f s.disk = some c) :
    Held place f x c s := by
  rcases h.file with hfile | hnone
  · refine ⟨h.old, hfile, ?_, h.atEnd hc⟩
    rwa [TableOffsets.holds, hfile, Option.bind_some] at hc
  · rw [hnone] at hc
    cases hc

section Disks

/-- The name keeps its file or is left without a regular one, and files only grow. -/
structure Fades (place : Bytes → Loc) (f : Bytes) (d d' : Disk Loc) : Prop where
  lost : holds place f d = none → holds place f d' = none
  file : holds place f d' = none ∨ d'.fileAt place f = d.fileAt place f
  next : d.directory.next ≤ d'.directory.next
  longer : ∀ y < d.directory.next, ∀ c, d.contents y = some c →
    ∃ c', d'.contents y = some c' ∧ c.length ≤ c'.length

variable {d d' d'' : Disk Loc}

theorem Fades.refl (place : Bytes → Loc) (f : Bytes) (d : Disk Loc) : Fades place f d d :=
  ⟨id, Or.inr rfl, le_refl _, fun _ _ c h => ⟨c, h, le_refl _⟩⟩

theorem Fades.trans (h : Fades place f d d') (h' : Fades place f d' d'') :
    Fades place f d d'' where
  lost hd := h'.lost (h.lost hd)
  file := by
    rcases h'.file with hlost | hfile'
    · exact Or.inl hlost
    rcases h.file with hlost | hfile
    · exact Or.inl (h'.lost hlost)
    · exact Or.inr (hfile'.trans hfile)
  next := le_trans h.next h'.next
  longer y hy c hc := by
    obtain ⟨c', hc', hle⟩ := h.longer y hy c hc
    obtain ⟨c'', hc'', hle'⟩ := h'.longer y (lt_of_lt_of_le hy h.next) c' hc'
    exact ⟨c'', hc'', le_trans hle hle'⟩

theorem Fades.shorter (h : Fades place f d d') (hfile : d.fileAt place f = some x)
    (hx : x < d.directory.next) {c' : Bytes} (hc : d.contents x = some c')
    (hafter : holds place f d' = some c) : c'.length ≤ c.length := by
  obtain ⟨c'', hc'', hle⟩ := h.longer x hx c' hc
  rcases h.file with hlost | hsame
  · rw [hlost] at hafter
    cases hafter
  · rw [holds, hsame, hfile, Option.bind_some, hc''] at hafter
    cases hafter
    exact hle

theorem holds_eq_none : holds place f d = none ↔
    ∀ y, d.fileAt place f = some y → d.contents y = none := by
  rw [holds, Option.bind_eq_none_iff]

theorem fades_put (y pos : ℕ) (data : Bytes) (d : Disk Loc) :
    Fades place f d (d.put y pos data) where
  lost := by
    rw [holds_eq_none, holds_eq_none]
    intro h z hz
    have hnone : d.contents z = none := h z hz
    by_cases heq : z = y
    · subst heq
      rw [put_self, hnone]
      rfl
    · rwa [put_other _ _ _ _ heq]
  file := Or.inr rfl
  next := le_refl _
  longer := by
    intro z _ c hc
    by_cases hz : z = y
    · subst hz
      exact ⟨FileBytes.writeAt pos data c, by rw [put_self, hc]; rfl,
        FileBytes.writeAt_length pos data c⟩
    · exact ⟨c, by rwa [put_other _ _ _ _ hz], le_refl _⟩

theorem fades_overwrite (path data : Bytes) (d : Disk Loc) :
    Fades place f d (d.overwrite place path data) := by
  unfold Disk.overwrite
  split
  · exact fades_put _ 0 data d
  · exact Fades.refl place f d

variable [DecidableEq Loc]

theorem fades_at (path : Bytes) (hnext : d.directory.next ≤ d'.directory.next)
    (hat : place f = place path → holds place f d' = none)
    (hother : place f ≠ place path → d'.fileAt place f = d.fileAt place f)
    (hempty : ∀ y, d.contents y = none → d'.contents y = none)
    (hkept : ∀ y < d.directory.next, d'.contents y = d.contents y) : Fades place f d d' where
  lost := by
    intro h
    by_cases hf : place f = place path
    · exact hat hf
    · rw [holds_eq_none] at h ⊢
      intro y hy
      exact hempty y (h y ((hother hf).symm.trans hy))
  file := by
    by_cases hf : place f = place path
    · exact Or.inl (hat hf)
    · exact Or.inr (hother hf)
  next := hnext
  longer y hy c hc := ⟨c, (hkept y hy).trans hc, le_refl _⟩

theorem creat_fileAt {path : Bytes} (hfile : d.fileAt place f = some x) :
    (d.creat place path).fileAt place f = some x := by
  unfold Disk.creat
  cases hpath : d.fileAt place path with
  | some y => exact hfile
  | none => exact (create_fileAt hfile hpath).1

theorem fades_mkfifo (path : Bytes) (d : Disk Loc) : Fades place f d (d.mkfifo place path) := by
  cases hpath : d.fileAt place path with
  | some y =>
    rw [show d.mkfifo place path = d by simp only [Disk.mkfifo, hpath]]
    exact Fades.refl place f d
  | none =>
    rw [show d.mkfifo place path = ⟨d.directory.create (place path),
      Function.update d.contents d.directory.next none⟩ by simp only [Disk.mkfifo, hpath]]
    apply fades_at path
    · rw [create_next hpath]
      exact Nat.le_succ _
    · intro hf
      rw [holds, Disk.fileAt, hf, create_files hpath, Function.update_self, Option.bind_some]
      exact Function.update_self _ _ _
    · intro hf
      rw [Disk.fileAt, create_files hpath, Function.update_of_ne hf, Disk.fileAt]
    · intro y hy
      by_cases heq : y = d.directory.next
      · rw [heq]
        exact Function.update_self _ _ _
      · exact (Function.update_of_ne heq _ _).trans hy
    · intro y hy
      exact Function.update_of_ne (Nat.ne_of_lt hy) _ _

theorem fades_unlink (env : Env) (path : Bytes) (d : Disk Loc) :
    Fades place f d (d.unlink place env path) := by
  unfold Disk.unlink
  split_ifs
  · apply fades_at path
    · exact le_refl _
    · intro hf
      rw [holds, Disk.fileAt, hf]
      show (Function.update d.directory.files (place path) none (place path)).bind d.contents = none
      rw [Function.update_self]
      rfl
    · intro hf
      exact Function.update_of_ne hf _ _
    · exact fun _ h => h
    · exact fun _ _ => rfl
  · exact Fades.refl place f d

theorem holds_of_unlink {env : Env} {path : Bytes}
    (h : holds place f (d.unlink place env path) = some c) : holds place f d = some c := by
  obtain ⟨y, hy, hc⟩ := Option.bind_eq_some_iff.mp h
  have hcontents : (d.unlink place env path).contents = d.contents := by
    unfold Disk.unlink
    split_ifs <;> rfl
  rw [hcontents] at hc
  rw [holds, unlink_fileAt env hy, Option.bind_some, hc]

theorem fades_reply (env : Env) (m : Bytes) (d : Disk Loc) :
    Fades place f d (d.reply place env m) :=
  ((fades_mkfifo _ d).trans (fades_overwrite _ _ _)).trans (fades_unlink env _ _)

end Disks

section Ends

theorem AtEnd.of_entries (h : AtEnd f x c s) (hserver : t.server = s.server)
    (hentries : ∀ e ∈ t.entries, e.name = f → ∃ e' ∈ s.entries, e'.name = f ∧ e'.fd = e.fd) :
    AtEnd f x c t := by
  intro e he hname y offset h0 hlook
  obtain ⟨e', he', hname', hfd⟩ := hentries e he hname
  rw [hserver] at hlook
  rw [← hfd] at h0 hlook
  exact h e' he' hname' y offset h0 hlook

theorem AtEnd.setEntry (h : AtEnd f x c s) (i : ℕ) {e : Entry} (hname : e.name = (s.table i).name)
    (hfd : e.fd = (s.table i).fd) : AtEnd f x c (s.setEntry i e) := by
  apply AtEnd.of_entries (t := s.setEntry i e) h rfl
  intro e₁ he₁ hf
  have hmem : (e₁.name, e₁.fd) ∈ (s.setEntry i e).entries.map (fun e => (e.name, e.fd)) :=
    List.mem_map_of_mem he₁
  rw [map_setEntry _ s i (by rw [hname, hfd])] at hmem
  obtain ⟨e', he', heq⟩ := List.mem_map.mp hmem
  simp only [Prod.mk.injEq] at heq
  exact ⟨e', he', heq.1.trans hf, heq.2⟩

theorem AtEnd.seek (h : AtEnd f x c s) {fd : ℤ} {y offset pos : ℕ}
    (hopen : lookup s.server fd.toNat = some (.file y offset))
    (hpos : y = x → offset = c.length → pos = c.length) : AtEnd f x c (s.seek fd y pos) := by
  intro e he hname z offset' h0 hlook
  rw [lookup_seek s hopen] at hlook
  split_ifs at hlook with heq
  · cases hlook
    rw [← heq] at hopen
    obtain ⟨hy, hoffset⟩ := h e he hname y offset h0 hopen
    exact ⟨hy, hpos hy hoffset⟩
  · exact h e he hname z offset' h0 hlook

theorem Held.seek (h : Held place f x c s) {fd : ℤ} {y offset pos : ℕ} {c' : Bytes}
    (hfd : s.file fd = some (y, offset, c')) (hle : offset ≤ pos)
    (hend : pos ≤ max offset c'.length) : AtEnd f x c (s.seek fd y pos) := by
  obtain ⟨-, hopen, hcontent⟩ := file_some hfd
  apply h.atEnd.seek hopen
  rintro rfl rfl
  obtain rfl : c = c' := Option.some.inj (h.content.symm.trans hcontent)
  omega

end Ends

section Steps

variable [DecidableEq Loc] {env : Env} {file string : Bytes} {line : ℤ}

theorem steady_reply (hold : Old s.disk)
    (hfile : s.disk.fileAt place f = some x ∨ holds place f s.disk = none) (m : Bytes)
    (hend : holds place f (s.reply place env m).disk = some c → AtEnd f x c s) :
    Steady place f x c (s.reply place env m) where
  old := reply_old hold env m
  file := by
    have hfades : Fades place f s.disk (s.reply place env m).disk := fades_reply env m s.disk
    rcases hfile with h | h
    · rw [← h]
      exact hfades.file.symm
    · exact Or.inr (hfades.lost h)
  atEnd := hend

theorem Held.reply (h : Held place f x c s) (m : Bytes) :
    Steady place f x c (s.reply place env m) :=
  steady_reply h.old (Or.inl h.file) m (fun _ => h.atEnd)

theorem streamLines_end (line : ℤ) (c : Bytes) : streamLines line c.length c = [] := by
  rw [streamLines, List.drop_length]
  cases line.toNat <;> rfl

theorem readFile_steady (h : Held place f x c s) :
    Steady place f x c (readFile place env file line s).1 := by
  have ho := readFile_outcome place env file line s
  generalize readFile place env file line s = r at ho ⊢
  cases ho with
  | absent hi m => exact h.reply m
  | crashed i hi hline hfd => exact ⟨h.old, Or.inl h.file, fun _ => h.atEnd.setEntry i rfl rfl⟩
  | failed i hi hline hfd m => exact h.reply m
  | read i hi y offset c' hfd pos hle hend said hsaid m =>
    apply steady_reply (s := s.seek _ y pos) h.old (Or.inl h.file)
    exact fun _ => h.seek hfd hle hend

theorem writeFile_steady (h : Held place f x c s) {said : Said}
    (hcall : writeFile place env file line string s = some (t, said)) :
    Steady place f x c t := by
  have ho := writeFile_outcome place env file line string s
  rw [hcall] at ho
  cases ho with
  | absent hi m => exact h.reply m
  | crashed i hi hidle hline hfd =>
    exact ⟨h.old, Or.inl h.file, fun _ => h.atEnd.setEntry i rfl rfl⟩
  | short i hi hidle hline y offset c' hfd hshort pos hle hend =>
    exact ⟨h.old, Or.inl h.file, fun _ => h.seek hfd hle hend⟩
  | line i hi hidle hline y offset c' hfd hlong start pos m =>
    obtain ⟨-, hopen, hcontent⟩ := file_some hfd
    apply steady_reply (s := State.seek _ y pos { s with disk := s.disk.put y start _ }) h.old
      (Or.inl h.file)
    intro _
    apply AtEnd.seek (s := { s with disk := s.disk.put y start _ }) h.atEnd hopen
    rintro rfl rfl
    obtain rfl : c = c' := Option.some.inj (h.content.symm.trans hcontent)
    rw [streamLines_end, List.length_nil] at hlong
    omega
  | lost i hi hidle hline hfd m => exact h.reply m
  | append i hi hidle hline y offset c' hfd m =>
    obtain ⟨-, hopen, hcontent⟩ := file_some hfd
    apply steady_reply (s := State.seek _ y _ { s with disk := s.disk.put y c'.length string })
      h.old (Or.inl h.file)
    intro hafter
    apply AtEnd.seek (s := { s with disk := s.disk.put y c'.length string }) h.atEnd hopen
    rintro rfl -
    obtain rfl : c = c' := Option.some.inj (h.content.symm.trans hcontent)
    -- what was appended is still there at the end of the call
    have hfades : Fades place f _ _ := fades_reply env m (s.disk.put y c.length string)
    have hput : (s.disk.put y c.length string).contents y = some (c++string) := by
      rw [put_self, h.content, Option.map_some, FileBytes.writeAt_end]
    have hle := hfades.shorter h.file (h.old _ _ h.file) hput hafter
    rw [List.length_append] at hle
    omega

theorem uploadFile_steady (h : Held place f x c s) :
    Steady place f x c (uploadFile place env file s).1 := by
  have ho := uploadFile_outcome place env file s
  generalize uploadFile place env file s = r at ho ⊢
  cases ho with
  | present i hi m => exact h.reply m
  | uploaded hi d fd hok hfail m =>
    have hdisk : Old d ∧ d.fileAt place f = some x := by
      cases hopen : env.openOk with
      | true =>
        rw [(hok hopen).2]
        refine ⟨stored_old (creat_old h.old), ?_⟩
        rw [Disk.fileAt, stored_directory]
        exact creat_fileAt h.file
      | false =>
        rw [(hfail hopen).2]
        exact ⟨h.old, h.file⟩
    apply steady_reply hdisk.1 (Or.inl hdisk.2)
    intro _
    refine (forall_push s s.server d _).mpr ⟨h.atEnd, fun hname y offset h0 hlook => ?_⟩
    cases hopen : env.openOk with
    | true =>
      rw [(hok hopen).1] at hlook
      cases (lookup_free_child s).symm.trans hlook
    | false =>
      rw [(hfail hopen).1] at h0
      cases h0

theorem downloadFile_steady (h : Held place f x c s) {said : Said}
    (hcall : downloadFile place env file s = some (t, said)) : Steady place f x c t := by
  have ho := downloadFile_outcome place env file s
  rw [hcall] at ho
  cases ho with
  | absent hi m => exact h.reply m
  | downloaded i hi hidle server hnone hsome m =>
    obtain ⟨hlt, -, -⟩ := find_some hi
    have hfades : Fades place f _ _ := fades_unlink env (s.table i).name s.disk
    have hserver : AtEnd f x c { s with server := server } := by
      cases hfd : s.file (s.table i).fd with
      | none =>
        rw [hnone hfd]
        exact h.atEnd
      | some p =>
        obtain ⟨y, offset, c'⟩ := p
        rw [hsome y offset c' hfd]
        exact h.seek hfd (le_max_left _ _) (le_refl _)
    apply steady_reply (unlink_old h.old env)
    · rw [← h.file]
      exact hfades.file.symm
    · intro _
      apply hserver.of_entries
      · rfl
      intro e he hname
      have he' : e ∈ s.entries.eraseIdx i := by
        rw [← entries_shift s hlt]
        exact he
      exact ⟨e, List.mem_of_mem_eraseIdx he', hname, rfl⟩

theorem serveRequest_steady (h : Held place f x c s) {r : Serving} {p : State Loc × Option Said}
    (hserve : serveRequest place r s = some p) : Steady place f x c p.1 := by
  unfold serveRequest at hserve
  split at hserve
  · cases hserve
    exact readFile_steady h
  · obtain ⟨⟨t, said⟩, hcall, rfl⟩ := Option.map_eq_some_iff.mp hserve
    exact writeFile_steady h hcall
  · cases hserve
    exact uploadFile_steady h
  · obtain ⟨⟨t, said⟩, hcall, rfl⟩ := Option.map_eq_some_iff.mp hserve
    exact downloadFile_steady h hcall
  · obtain ⟨⟨t, said⟩, hcall, rfl⟩ := Option.map_eq_some_iff.mp hserve
    exact writeFile_steady h hcall
  · cases hserve
    have hreply : Steady place f x c (s.reply place r.env (Said.killed.text [] 0)) := h.reply _
    exact ⟨hreply.old, hreply.file, hreply.atEnd⟩
  · cases hserve
    exact h.steady

/-- The state in which a child calls a helper. -/
def entered (place : Bytes → Loc) (pid : ℤ) (s : State Loc) : State Loc :=
  { s with disk := s.disk.mkfifo place (fifoPath pid) }

theorem held_entered (h : Held place f x c s) (pid : ℤ) :
    Held place f x c (entered place pid s) := by
  have hkeep := @mkfifo_keeps Loc place s.disk f (fifoPath pid) x _ h.file (h.old _ _ h.file)
  exact ⟨mkfifo_old h.old, hkeep.place, hkeep.content.trans h.content, h.atEnd⟩

/-- One request: from a state in which the content is there, the offsets stay. -/
theorem serve_steady {r : Serving} (hs : Steady place f x c s)
    (hc : holds place f s.disk = some c) (hserve : serve place r s = some t) :
    Steady place f x c t := by
  unfold serve at hserve
  split_ifs at hserve
  obtain ⟨u, hu, rfl⟩ := Option.map_eq_some_iff.mp hserve
  obtain ⟨p, hp, rfl⟩ := Option.map_eq_some_iff.mp hu
  have hsteady := serveRequest_steady (held_entered (hs.held hc) r.pid) hp
  unfold finish
  split_ifs
  · exact hsteady
  · have hfades : Fades place f _ _ := fades_unlink r.env (cstr (r.left s)) p.1.disk
    refine ⟨unlink_old hsteady.old _, ?_, ?_⟩
    · rcases hsteady.file with h | h
      · rw [← h]
        exact hfades.file.symm
      · exact Or.inr (hfades.lost h)
    · exact fun hafter => hsteady.atEnd (holds_of_unlink hafter)

end Steps

section Reads

variable [DecidableEq Loc] {env : Env} {k : ℕ}

theorem wanted_zero (c : Bytes) : wanted c 0 = .endOfFile ↔ c = [] := by
  rw [wanted, if_pos rfl]
  split_ifs with h
  · exact iff_of_true rfl h
  · exact iff_of_false nofun h

theorem wanted_lineMissing (hk : k ≠ 0) : wanted c k = .lineMissing ↔ (lines c).length < k := by
  rw [wanted, if_neg hk]
  cases hline : (lines c)[k-1]? with
  | none =>
    rw [List.getElem?_eq_none_iff] at hline
    exact iff_of_true rfl (by omega)
  | some line =>
    obtain ⟨hlt, -⟩ := List.getElem?_eq_some_iff.mp hline
    exact iff_of_false nofun (by omega)

theorem wanted_found (c : Bytes) (k : ℕ) : wanted c k ≠ .noFile ∧ wanted c k ≠ .crashed ∧
    wanted c k ≠ .readError := by
  unfold wanted
  split_ifs
  · exact ⟨nofun, nofun, nofun⟩
  · exact ⟨nofun, nofun, nofun⟩
  · cases (lines c)[k-1]? <;> exact ⟨nofun, nofun, nofun⟩

section Answers

variable {i : ℕ} {line : ℤ} (hi : s.find f = some i)

include hi in
theorem readFile_closed (hfd : s.file (s.table i).fd = none) :
    (readFile place env f line s).2 = if 0 < line then .crashed else .readError := by
  simp only [readFile, hi, file_addReaders, hfd]
  split_ifs <;> rfl

include hi in
theorem readFile_end (hfd : s.file (s.table i).fd = some (x, c.length, c)) :
    (readFile place env f line s).2 = if 0 < line then .lineMissing else .endOfFile := by
  simp only [readFile, hi, file_addReaders, hfd, streamLines_end, List.drop_length, List.length_nil]
  by_cases hline : 0 < line
  · rw [if_pos hline, if_pos hline, if_pos (by omega)]
  · rw [if_neg hline, if_neg hline]
    rfl

end Answers

theorem readFile_wanted_iff (h : Held place f x c s) :
    (readFile place env f k s).2 = wanted c k ↔ ∃ i, s.find f = some i ∧ Open s (s.table i) ∧
      if k = 0 then c = [] else (lines c).length < k := by
  obtain ⟨hnoFile, hcrashed, hreadError⟩ := wanted_found c k
  cases hi : s.find f with
  | none =>
    have hsaid : (readFile place env f k s).2 = .noFile := by simp only [readFile, hi]
    rw [hsaid]
    exact iff_of_false hnoFile.symm (by rintro ⟨i, hi, -⟩; cases hi)
  | some i =>
    obtain ⟨-, hname, hmem⟩ := find_some hi
    have hthis {p : ℕ → Prop} : (∃ j, some i = some j ∧ p j) ↔ p i := by simp
    rw [hthis]
    cases hfd : s.file (s.table i).fd with
    | none =>
      have hclosed : ¬ Open s (s.table i) := by
        rintro ⟨h0, y, offset, hopen⟩
        obtain ⟨rfl, rfl⟩ := h.atEnd _ hmem hname y offset h0 hopen
        rw [file_of_open h0 hopen h.content] at hfd
        cases hfd
      rw [readFile_closed hi hfd]
      refine iff_of_false ?_ (fun hp => hclosed hp.1)
      split_ifs
      · exact hcrashed.symm
      · exact hreadError.symm
    | some p =>
      obtain ⟨y, offset, c'⟩ := p
      obtain ⟨h0, hopen, hcontent⟩ := file_some hfd
      obtain ⟨rfl, rfl⟩ := h.atEnd _ hmem hname y offset h0 hopen
      obtain rfl : c = c' := Option.some.inj (h.content.symm.trans hcontent)
      have hopened : Open s (s.table i) := ⟨h0, y, _, hopen⟩
      rw [readFile_end hi hfd, and_iff_right hopened, eq_comm]
      by_cases hk : k = 0
      · subst hk
        exact wanted_zero c
      · rw [if_neg hk, if_pos (by omega)]
        exact wanted_lineMissing hk

end Reads

section Runs

theorem listFiles_steady (cfg : Config place)
    (hc : holds place f (listFiles place cfg).disk = some c) :
    ∃ x, Held place f x c (listFiles place cfg) := by
  obtain ⟨hdisk, -, -, hentries, -⟩ := listFiles_listing cfg
  obtain ⟨x, hfile, hcontent⟩ := Option.bind_eq_some_iff.mp hc
  refine ⟨x, ?_, hfile, hcontent, ?_⟩
  · rw [hdisk]
    exact cfg.old
  · intro e he hname y offset h0 hlook
    rcases (hentries e he).1 with ⟨hfd, -⟩ | ⟨z, c', -, hopen, hz, hc', -⟩
    · omega
    · rw [hname, hfile] at hz
      cases hz
      rw [hcontent] at hc'
      cases hc'
      cases hopen.symm.trans hlook
      exact ⟨rfl, rfl⟩

/-- However the requests before went, as long as they left the content alone,
`read_file` is right just where there is nothing to be found. -/
theorem read_right_iff [DecidableEq Loc] (cfg : Config place) (rs : List Serving) (t : State Loc)
    (hrun : run (serve place) rs (listFiles place cfg) = some t)
    (hkeep : Throughout (serve place) (fun s => holds place f s.disk = some c) rs
      (listFiles place cfg)) (pid : ℤ) (env : Env) (k : ℕ) :
    (readFile place env f k (entered place pid t)).2 = wanted c k ↔
      ∃ i, t.find f = some i ∧ Open t (t.table i) ∧
        if k = 0 then c = [] else (lines c).length < k := by
  have hstart : holds place f (listFiles place cfg).disk = some c := by
    cases rs with
    | nil => exact hkeep
    | cons r rs => exact hkeep.1
  obtain ⟨x, hx⟩ := listFiles_steady cfg hstart
  have hend : Steady place f x c t :=
    guarded_invariant (serve place) (fun _ s => holds place f s.disk = some c)
      (Steady place f x c) (fun _ _ _ hs hc hserve => serve_steady hs hc hserve) rs _ t hx.steady
      hkeep.meets hrun
  exact readFile_wanted_iff (held_entered (hend.held (hkeep.last hrun)) pid)

end Runs

def twoBytes : State Bytes := listFiles id (TableSizes.oneFile (ascii "x\n"))

/-- A client asks for line 1 and goes. -/
def asked : Serving where
  pid := 7
  text := ⟨ascii "readF a 1", by decide +kernel⟩
  short := by decide +kernel
  array := []
  env := TableBalance.quiet

theorem asked_returns : (serve id asked twoBytes).isSome = true := by decide

def afterAsked : State Bytes := (serve id asked twoBytes).get asked_returns

theorem serve_asked : serve id asked twoBytes = some afterAsked := (Option.some_get _).symm

/-- The file has one line, so a read of line 2 is right, also after another client. -/
theorem read_right_second_line :
    (readFile id TableBalance.quiet (ascii "a") 2 (entered id 8 afterAsked)).2 =
      wanted (ascii "x\n") 2 := by
  have hrun : run (serve id) [asked] twoBytes = some afterAsked := by
    rw [run, serve_asked]
    rfl
  have hkeep : Throughout (serve id) (fun s => holds id (ascii "a") s.disk = some (ascii "x\n"))
      [asked] twoBytes := by
    refine ⟨by decide, ?_⟩
    rw [serve_asked]
    show holds id (ascii "a") afterAsked.disk = some (ascii "x\n")
    decide
  exact (read_right_iff (TableSizes.oneFile (ascii "x\n")) [asked] afterAsked hrun hkeep 8
    TableBalance.quiet 2).mpr
    ⟨0, by decide, ⟨by decide, 0, 2, by decide⟩, by decide⟩

/-- Line 1 is there, and the first request of all does not find it. -/
theorem first_line_missed :
    holds id (ascii "a") twoBytes.disk = some (ascii "x\n") ∧
    (∀ l ∈ lines (ascii "x\n"), l.length < 1023) ∧
    wanted (ascii "x\n") 1 = .line (ascii "x\n") ∧
    (readFile id TableBalance.quiet (ascii "a") 1 (entered id 7 twoBytes)).2 = .lineMissing := by
  decide

end CSE344.TableOffsets
