import SystemProgramming.TableBalance

/-!
# The sizes in the file table

`list_files` stores the length of each file and `upload_file` adds what it
receives to what its slot holds, while `write_file` never touches the size. So
the sizes stay right in the runs in which no write lengthens a file, every
upload fills a slot that holds 0, and no two names lead to one file.
-/

set_option autoImplicit false

namespace CSE344.TableSizes
open CString ProcessFiles TableCalls TableEffects TransitionRun
open TableDescriptors (fifoPath)
open TableMachine (Entry asInt asInt_natCast)
open TableBalance (Open)

variable {Loc : Type*}

/-- The size of every entry is the length of the file of its name. -/
def SizesRight (place : Bytes → Loc) (s : State Loc) : Prop :=
  ∀ e ∈ s.entries, ∃ x c, s.disk.fileAt place e.name = some x ∧
    s.disk.contents x = some c ∧ e.size = c.length

/-- The entry, the file of its name and the description that the server has of
it go together; the description stands at the end. -/
structure Current (place : Bytes → Loc) (s : State Loc) (e : Entry) (x : ℕ) (c : Bytes) :
    Prop where
  place : s.disk.fileAt place e.name = some x
  content : s.disk.contents x = some c
  size : e.size = c.length
  opened : ∀ y offset, 0 ≤ e.fd → lookup s.server e.fd.toNat = some (.file y offset) →
    y = x ∧ offset = c.length

structure Exact (place : Bytes → Loc) (s : State Loc) : Prop where
  entries : ∀ e ∈ s.entries, ∃ x c, Current place s e x c
  names : (s.entries.map Entry.name).Nodup
  regular : Regular s.server s.disk
  old : Old s.disk

/-- What an upload of a new name needs: a slot that holds 0, a file that can be
opened and is not too long for an `int`, and no entry whose size was right for
the file before. -/
structure Fits (place : Bytes → Loc) (env : Env) (file : Bytes) (s : State Loc) : Prop where
  opened : env.openOk = true
  clear : (s.table s.numFiles).size = 0
  small : env.chunks.flatten.length < 2^31
  aliases : ∀ e ∈ s.entries, s.disk.fileAt place e.name = s.disk.fileAt place file →
    e.size = env.chunks.flatten.length
  regular : ∀ x, s.disk.fileAt place file = some x → s.disk.contents x ≠ none
  apart : Apart place s.disk file (fifoPath env.stray)

/-- No file is lengthened behind its entry, and no reply or download reaches
the file of another entry. -/
def Guard (place : Bytes → Loc) (a : Call × Env) (s : State Loc) : Prop :=
  match a.1 with
  | .readFile _ _ => ∀ e ∈ s.entries, Apart place s.disk e.name (fifoPath a.2.stray)
  | .writeFile file line string => ∀ e ∈ s.entries,
      (e.name = file → line ≤ 0 → string ≠ [] → ¬ Open s e) ∧
      Apart place s.disk e.name (fifoPath a.2.stray)
  | .uploadFile file => (file ∉ s.entries.map Entry.name → Fits place a.2 file s) ∧
      ∀ e ∈ s.entries, Apart place s.disk e.name (fifoPath a.2.stray)
  | .downloadFile file => ∀ e ∈ s.entries, e.name ≠ file →
      place e.name ≠ place file ∧ Apart place s.disk e.name (fifoPath a.2.stray)

theorem Fits.counted {place : Bytes → Loc} {env : Env} {file : Bytes} {s : State Loc}
    (h : Fits place env file s) :
    TableEffects.counted env.chunks (s.table s.numFiles).size = env.chunks.flatten.length := by
  rw [h.clear, counted_eq _ (by decide), zero_add]
  exact asInt_natCast.mpr h.small

theorem Exact.sizes {place : Bytes → Loc} {s : State Loc} (h : Exact place s) :
    SizesRight place s := by
  intro e he
  obtain ⟨x, c, hc⟩ := h.entries e he
  exact ⟨x, c, hc.place, hc.content, hc.size⟩

section Steps

variable {place : Bytes → Loc} {s t : State Loc}

section Uploads

variable {env : Env} {file : Bytes} {d : Disk Loc} {x y : ℕ} {c : Bytes} {e : Entry}
  (hx : Uploaded place file env.chunks s.disk d x)

include hx in
/-- An upload leaves the other entries right, also one that names the same file. -/
theorem uploaded_current (hfits : Fits place env file s) (hc : Current place s e y c)
    (hold : y < s.disk.directory.next) (he : e ∈ s.entries) (table : ℕ → Entry) (n : ℕ) :
    ∃ y c, Current place { s with disk := d, table := table, numFiles := n } e y c := by
  by_cases hy : y = x
  · subst hy
    have hbound : s.disk.fileAt place file = some y := by
      rcases hx.origin with h | ⟨-, rfl⟩
      · exact h
      · exact absurd hold (Nat.lt_irrefl _)
    have hsize := hfits.aliases e he (hc.place.trans hbound.symm)
    have hlen : c.length = env.chunks.flatten.length := by
      have := hc.size
      omega
    refine ⟨y, env.chunks.flatten, hx.names _ _ hc.place, hx.content, hsize, ?_⟩
    rw [← hlen]
    exact hc.opened
  · exact ⟨y, c, hx.names _ _ hc.place, (hx.others y hold hy).trans hc.content, hc.size,
      hc.opened⟩

include hx in
theorem uploaded_apart {name path : Bytes} (hname : s.disk.fileAt place name = some y)
    (hold : y < s.disk.directory.next) (h : Apart place s.disk name path) :
    Apart place d name path := by
  refine ⟨h.1, fun z hz hp => ?_⟩
  obtain rfl : y = z := Option.some.inj ((hx.names _ _ hname).symm.trans hz)
  rcases hx.back path y hp with hp' | hplace
  · exact h.2 y hname hp'
  · have hxy : x = y := by
      rw [Disk.fileAt, hplace] at hp
      exact Option.some.inj (hx.bound.symm.trans hp)
    subst hxy
    rcases hx.origin with hfile | ⟨-, rfl⟩
    · apply h.2 x hname
      rw [Disk.fileAt, hplace]
      exact hfile
    · exact Nat.lt_irrefl _ hold

include hx in
theorem uploaded_apart_new {path : Bytes} (hold : Old s.disk)
    (h : Apart place s.disk file path) : Apart place d file path := by
  refine ⟨h.1, fun z hz hp => ?_⟩
  obtain rfl : x = z := Option.some.inj (hx.bound.symm.trans hz)
  rcases hx.back path x hp with hp' | hplace
  · rcases hx.origin with hfile | ⟨-, rfl⟩
    · exact h.2 x hfile hp'
    · exact Nat.lt_irrefl _ (hold _ _ hp')
  · exact h.1 hplace.symm

end Uploads

theorem Exact.congr (h : Exact place s) (hserver : ∀ n, lookup t.server n = lookup s.server n)
    (hdisk : t.disk = s.disk)
    (hentries : t.entries.map (fun e => (e.name, e.size, e.fd)) =
      s.entries.map (fun e => (e.name, e.size, e.fd))) : Exact place t where
  entries := by
    intro e he
    have hmem : (e.name, e.size, e.fd) ∈ s.entries.map (fun e => (e.name, e.size, e.fd)) := by
      rw [← hentries]
      exact List.mem_map_of_mem he
    obtain ⟨e', he', heq⟩ := List.mem_map.mp hmem
    simp only [Prod.mk.injEq] at heq
    obtain ⟨hname, hsize, hfd⟩ := heq
    obtain ⟨x, c, hc⟩ := h.entries e' he'
    refine ⟨x, c, ?_, ?_, hsize ▸ hc.size, ?_⟩
    · rw [hdisk, ← hname]
      exact hc.place
    · rw [hdisk]
      exact hc.content
    · rw [← hfd]
      intro y offset h0 hlook
      exact hc.opened y offset h0 ((hserver _).symm.trans hlook)
  names := by
    have hnames := congrArg (List.map Prod.fst) hentries
    simp only [List.map_map] at hnames
    have h1 : t.entries.map Entry.name = s.entries.map Entry.name := hnames
    rw [h1]
    exact h.names
  regular := by
    rw [hdisk]
    intro n x offset hlook
    exact h.regular n x offset ((hserver n).symm.trans hlook)
  old := by
    rw [hdisk]
    exact h.old

theorem lookup_seek_same {fd : ℤ} {x pos : ℕ}
    (hopen : lookup s.server fd.toNat = some (.file x pos)) (n : ℕ) :
    lookup (s.seek fd x pos).server n = lookup s.server n := by
  rw [lookup_seek s hopen]
  split_ifs with hn
  · rw [hn, hopen]
  · rfl

theorem Exact.seek (h : Exact place s) {fd : ℤ} {x pos : ℕ}
    (hopen : lookup s.server fd.toNat = some (.file x pos)) : Exact place (s.seek fd x pos) :=
  h.congr (t := s.seek fd x pos) (lookup_seek_same hopen) rfl rfl

theorem Exact.at_end (h : Exact place s) {file : Bytes} {i : ℕ} (hi : s.find file = some i)
    {x offset : ℕ} {c : Bytes} (hfd : s.file (s.table i).fd = some (x, offset, c)) :
    offset = c.length ∧ lookup s.server (s.table i).fd.toNat = some (.file x c.length) := by
  obtain ⟨h0, hopen, hcontent⟩ := file_some hfd
  obtain ⟨y, c', hc⟩ := h.entries _ (find_some hi).2.2
  obtain ⟨rfl, rfl⟩ := hc.opened x offset h0 hopen
  obtain rfl : c' = c := Option.some.inj (hc.content.symm.trans hcontent)
  exact ⟨rfl, hopen⟩

variable [DecidableEq Loc] {env : Env}

theorem Exact.reply (h : Exact place s) (m : Bytes)
    (hapart : ∀ e ∈ s.entries, Apart place s.disk e.name (fifoPath env.stray)) :
    Exact place (s.reply place env m) where
  entries := by
    intro e he
    obtain ⟨x, c, hc⟩ := h.entries e he
    have hkeep := reply_keeps hc.place (h.old _ _ hc.place) env m (hapart e he)
    exact ⟨x, c, hkeep.place, hkeep.content.trans hc.content, hc.size, hc.opened⟩
  names := h.names
  regular := h.regular.grows (grows_reply place env _ m)
  old := reply_old h.old env m

theorem readFile_exact (h : Exact place s) (file : Bytes) (line : ℤ)
    (hapart : ∀ e ∈ s.entries, Apart place s.disk e.name (fifoPath env.stray)) :
    Exact place (readFile place env file line s).1 := by
  have ho := readFile_outcome place env file line s
  generalize readFile place env file line s = r at ho ⊢
  cases ho with
  | absent hi m => exact h.reply m hapart
  | crashed i hi hline hfd =>
    exact h.congr (fun _ => rfl) rfl (map_setEntry _ s i rfl)
  | failed i hi hline hfd m => exact h.reply m hapart
  | read i hi x offset c hfd pos hle hend said hsaid m =>
    obtain ⟨rfl, hopen⟩ := h.at_end hi hfd
    obtain rfl : pos = c.length := by omega
    exact (h.seek hopen).reply m hapart

theorem uploadFile_exact (h : Exact place s) {file : Bytes}
    (hg : Guard place (.uploadFile file, env) s) : Exact place (uploadFile place env file s).1 := by
  have ho := uploadFile_outcome place env file s
  generalize uploadFile place env file s = r at ho ⊢
  cases ho with
  | present i hi m => exact h.reply m hg.2
  | uploaded hi d fd hok hfail m =>
    have hnew := not_named hi
    have hfits := hg.1 hnew
    obtain ⟨hfd, hd⟩ := hok hfits.opened
    obtain ⟨x, hx⟩ := uploaded hfits.regular env.chunks
    rw [← hd] at hx
    have hentries := entries_push s s.server d
      ⟨file, counted env.chunks (s.table s.numFiles).size, fd, 0, 0⟩
    have hdisk : Grows s.disk d := by
      rw [hd]
      exact (grows_creat place file s.disk).trans (grows_stored _ _ _ _)
    have hexact : Exact place { s with
        disk := d
        table := Function.update s.table s.numFiles
          ⟨file, counted env.chunks (s.table s.numFiles).size, fd, 0, 0⟩
        numFiles := s.numFiles+1 } := by
      refine ⟨?_, ?_, h.regular.grows hdisk, ?_⟩
      · refine (forall_push s s.server d _).mpr ⟨fun e he => ?_, ?_⟩
        · obtain ⟨y, c, hc⟩ := h.entries e he
          exact uploaded_current hx hfits hc (h.old _ _ hc.place) he _ _
        · refine ⟨x, env.chunks.flatten, hx.bound, hx.content, hfits.counted, ?_⟩
          · intro y offset _ hlook
            rw [hfd] at hlook
            cases (lookup_free_child s).symm.trans hlook
      · rw [hentries, List.map_append]
        apply List.Nodup.append h.names (List.nodup_singleton _)
        intro n hn hn'
        rw [List.mem_singleton.mp hn'] at hn
        exact hnew hn
      · show Old d
        rw [hd]
        exact stored_old (creat_old h.old)
    apply hexact.reply m
    refine (forall_push s s.server d _).mpr ⟨fun e he => ?_, ?_⟩
    · obtain ⟨y, c, hc⟩ := h.entries e he
      exact uploaded_apart hx hc.place (h.old _ _ hc.place) (hg.2 e he)
    · exact uploaded_apart_new hx h.old hfits.apart

theorem writeFile_exact (h : Exact place s) {file string : Bytes} {line : ℤ}
    (hg : Guard place (.writeFile file line string, env) s) {said : Said}
    (hcall : writeFile place env file line string s = some (t, said)) : Exact place t := by
  have ho := writeFile_outcome place env file line string s
  rw [hcall] at ho
  have hapart : ∀ e ∈ s.entries, Apart place s.disk e.name (fifoPath env.stray) :=
    fun e he => (hg e he).2
  cases ho with
  | absent hi m => exact h.reply m hapart
  | crashed i hi hidle hline hfd =>
    exact h.congr (fun _ => rfl) rfl (map_setEntry _ s i rfl)
  | short i hi hidle hline x offset c hfd hshort pos hle hend =>
    obtain ⟨rfl, hopen⟩ := h.at_end hi hfd
    obtain rfl : pos = c.length := by omega
    exact h.seek hopen
  | line i hi hidle hline x offset c hfd hlong start pos m =>
    -- the stream is at its end before it gives a line
    obtain ⟨rfl, -⟩ := h.at_end hi hfd
    have hnone : streamLines line c.length c = [] := by
      rw [streamLines, List.drop_length]
      cases line.toNat <;> rfl
    rw [hnone, List.length_nil] at hlong
    omega
  | lost i hi hidle hline hfd m => exact h.reply m hapart
  | append i hi hidle hline x offset c hfd m =>
    obtain ⟨rfl, hopen⟩ := h.at_end hi hfd
    obtain ⟨-, hname, hmem⟩ := find_some hi
    have hstring : string = [] := by
      by_contra hne
      exact (hg _ hmem).1 hname (by omega) hne ((TableBalance.open_iff h.regular _).mpr
        (by rw [hfd]; exact Option.some_ne_none _))
    subst hstring
    have hput : s.disk.put x c.length [] = s.disk := by
      have hcontent := (file_some hfd).2.2
      simp only [Disk.put, hcontent, Option.map_some, FileBytes.writeAt_end, List.append_nil]
      rw [← hcontent, Function.update_eq_self]
    rw [hput]
    exact (h.seek hopen).reply m hapart

theorem downloadFile_exact (h : Exact place s) {file : Bytes}
    (hg : Guard place (.downloadFile file, env) s) {said : Said}
    (hcall : downloadFile place env file s = some (t, said)) : Exact place t := by
  have ho := downloadFile_outcome place env file s
  rw [hcall] at ho
  cases ho with
  | absent hi m =>
    exact h.reply m (fun e he => (hg e he (find_none.mp hi e he)).2)
  | downloaded i hi hidle server hnone hsome m =>
    have hname := (find_some hi).2.1
    have hremaining := entries_removed h.names hi
    have hserver : ∀ n, lookup server n = lookup s.server n := by
      cases hfd : s.file (s.table i).fd with
      | none =>
        rw [hnone hfd]
        exact fun _ => rfl
      | some p =>
        obtain ⟨x, offset, c⟩ := p
        obtain ⟨rfl, hopen⟩ := h.at_end hi hfd
        rw [hsome x c.length c hfd, max_self]
        exact lookup_seek_same hopen
    have hentries : ∀ e ∈ (List.range (s.numFiles-1)).map (shiftLeft i s.numFiles s.table),
        e ∈ s.entries ∧ e.name ≠ file := by
      intro e he
      rw [hremaining, List.mem_filter] at he
      exact ⟨he.1, by simpa using he.2⟩
    have hremoved : Exact place { s with
        server := server
        disk := s.disk.unlink place env (s.table i).name
        table := shiftLeft i s.numFiles s.table
        numFiles := s.numFiles-1 } := by
      refine ⟨?_, ?_, ?_, unlink_old h.old env⟩
      · intro e he
        obtain ⟨hmem, hne⟩ := hentries e he
        obtain ⟨x, c, hc⟩ := h.entries e hmem
        have hplace : place e.name ≠ place (s.table i).name := by
          rw [hname]
          exact (hg e hmem hne).1
        have hkeep := unlink_keeps hc.place env hplace
        exact ⟨x, c, hkeep.place, hkeep.content.trans hc.content, hc.size,
          fun y offset h0 hlook => hc.opened y offset h0 ((hserver _).symm.trans hlook)⟩
      · show (((List.range (s.numFiles-1)).map (shiftLeft i s.numFiles s.table)).map
          Entry.name).Nodup
        rw [hremaining]
        exact (List.filter_sublist.map _).nodup h.names
      · intro n x offset hlook
        exact (h.regular.grows (grows_unlink place env _ s.disk)) n x offset
          ((hserver n).symm.trans hlook)
    apply hremoved.reply m
    intro e he
    obtain ⟨hmem, hne⟩ := hentries e he
    exact (hg e hmem hne).2.unlink env

theorem call_exact {a : Call × Env} (h : Exact place s) (hg : Guard place a s)
    (hcall : callStep place a s = some t) : Exact place t := by
  obtain ⟨c, env⟩ := a
  apply callStep_keeps _ _ _ _ hcall
  · rintro file line rfl
    exact readFile_exact h file line hg
  · rintro file line string t said rfl hwrite
    exact writeFile_exact h hg hwrite
  · rintro file rfl
    exact uploadFile_exact h hg
  · rintro file t said rfl hdownload
    exact downloadFile_exact h hg hdownload

end Steps

section Runs

variable {place : Bytes → Loc}

variable (cfg : Config place)

/-- Every regular file can be opened and its length is an `int`. -/
def Sizable : Prop := ∀ e ∈ cfg.entries, e.regular = true → e.openOk = true ∧
  ∀ x c, cfg.disk.fileAt place e.name = some x → cfg.disk.contents x = some c → c.length < 2^31

variable {cfg}

theorem Sizable.small (h : Sizable cfg) {e : Entry} (he : e ∈ (listFiles place cfg).entries)
    {x : ℕ} {c : Bytes} (hplace : cfg.disk.fileAt place e.name = some x)
    (hc : cfg.disk.contents x = some c) : c.length < 2^31 := by
  have hname : e.name ∈ (listFiles place cfg).entries.map Entry.name := List.mem_map_of_mem he
  rw [(listFiles_listing cfg).2.1] at hname
  split_ifs at hname
  · obtain ⟨d, hd, heq⟩ := List.mem_map.mp hname
    obtain ⟨hmem, hreg⟩ := List.mem_filter.mp hd
    rw [← heq] at hplace
    exact (h d hmem hreg).2 x c hplace hc
  · cases hname

theorem listFiles_exact (h : Sizable cfg) : Exact place (listFiles place cfg) := by
  obtain ⟨hdisk, -, hregular, hentries, hopened⟩ := listFiles_listing cfg
  have hopen := hopened (fun e he hreg => (h e he hreg).1)
  refine ⟨fun e he => ?_, (TableBalance.listFiles_between cfg).balanced.names, hregular, ?_⟩
  · rcases (hentries e he).1 with ⟨hfd, -⟩ | ⟨x, c, h0, hlook, hplace, hc, hsize⟩
    · have := hopen e he
      omega
    · refine ⟨x, c, hplace, hc, ?_, fun y offset _ hy => ?_⟩
      · rw [hdisk] at hplace hc
        exact hsize.trans (asInt_natCast.mpr (h.small he hplace hc))
      · cases hlook.symm.trans hy
        exact ⟨rfl, rfl⟩
  · rw [hdisk]
    exact cfg.old

/-- In the runs that keep to the guard the sizes are right all the time. -/
theorem sizes_right [DecidableEq Loc] (hsizable : Sizable cfg) (cs : List (Call × Env))
    (t : State Loc) (hg : Meets (callStep place) (Guard place) cs (listFiles place cfg))
    (hrun : run (callStep place) cs (listFiles place cfg) = some t) : SizesRight place t :=
  (guarded_invariant (callStep place) (Guard place) (Exact place)
    (fun _ _ _ h hg hcall => call_exact h hg hcall) cs _ t (listFiles_exact hsizable) hg
    hrun).sizes

end Runs

def sending (chunk : Bytes) (h : chunk ≠ [] ∧ chunk.length ≤ FifoSession.maxLine) : Env :=
  { TableBalance.quiet with
    chunks := [chunk]
    nonempty := by
      intro b hb
      rw [List.mem_singleton.mp hb]
      exact h }

def sendX : Env := sending (ascii "x") (by decide)

theorem fits_empty : Fits id sendX (ascii "a") (listFiles id TableBalance.emptyDirectory) where
  opened := rfl
  clear := rfl
  small := by decide
  aliases := nofun
  regular := nofun
  apart := ⟨by decide, nofun⟩

theorem empty_sizable : Sizable (TableBalance.emptyDirectory : Config (id : Bytes → Bytes)) :=
  fun e he => by cases he

theorem sizes_right_upload : SizesRight id
    (uploadFile id sendX (ascii "a") (listFiles id TableBalance.emptyDirectory)).1 :=
  sizes_right empty_sizable [(.uploadFile (ascii "a"), sendX)] _
    ⟨⟨fun _ => fits_empty, nofun⟩, trivial⟩ rfl

theorem not_sizesRight {place : Bytes → Loc} {t : State Loc} {e : Entry} {c : Bytes}
    (he : e ∈ t.entries) (hc : (t.disk.fileAt place e.name).bind t.disk.contents = some c)
    (hne : e.size ≠ c.length) : ¬ SizesRight place t := by
  intro h
  obtain ⟨x, c', hx, hc', hsize⟩ := h e he
  rw [hx, Option.bind_some, hc'] at hc
  exact hne (Option.some.inj hc ▸ hsize)

def oneFile (content : Bytes) : Config (id : Bytes → Bytes) where
  inherited := [some (), some (), some ()]
  disk := ⟨⟨fun l => if l = ascii "a" then some 0 else none, 1, []⟩,
    fun x => if x = 0 then some content else none⟩
  segment := fun _ => ⟨[], 0, 0, 0, 0⟩
  opendirOk := true
  entries := [⟨ascii "a", true, true⟩]
  old := by
    intro l x h
    dsimp only at h
    split_ifs at h
    cases h
    exact Nat.zero_lt_one
  distinct := List.nodup_singleton _
  short := by decide +kernel
  regular := by
    intro e he _
    rw [List.mem_singleton.mp he]
    exact ⟨0, content, rfl, rfl⟩

/-- What a run leaves of the file `name`: its entry and its content. -/
def probe (name : Bytes) (t : State Bytes) : List Entry × Option Bytes :=
  (t.entries, (t.disk.fileAt id name).bind t.disk.contents)

/-- Writing does not touch the size, and an upload adds to what a download left in the slot. -/
theorem sizes_wrong :
    (∃ t, run (callStep id) [(.writeFile (ascii "a") 0 (ascii "y"), TableBalance.quiet)]
      (listFiles id (oneFile (ascii "x"))) = some t ∧ ¬ SizesRight id t) ∧
    ∃ t, run (callStep id) [(.uploadFile (ascii "a"), sendX),
        (.downloadFile (ascii "a"), TableBalance.quiet), (.uploadFile (ascii "b"), sendX)]
      (listFiles id TableBalance.emptyDirectory) = some t ∧ ¬ SizesRight id t := by
  constructor
  · have hprobe : (run (callStep id) [(.writeFile (ascii "a") 0 (ascii "y"), TableBalance.quiet)]
        (listFiles id (oneFile (ascii "x")))).map (probe (ascii "a")) =
          some ([⟨ascii "a", 1, 4, 0, 0⟩], some (ascii "xy")) := by decide
    obtain ⟨t, ht, hv⟩ := Option.map_eq_some_iff.mp hprobe
    simp only [probe, Prod.mk.injEq] at hv
    exact ⟨t, ht, not_sizesRight (e := ⟨ascii "a", 1, 4, 0, 0⟩) (by rw [hv.1]; simp) hv.2
      (by decide)⟩
  · have hprobe : (run (callStep id) [(.uploadFile (ascii "a"), sendX),
        (.downloadFile (ascii "a"), TableBalance.quiet), (.uploadFile (ascii "b"), sendX)]
        (listFiles id TableBalance.emptyDirectory)).map (probe (ascii "b")) =
          some ([⟨ascii "b", 2, 4, 0, 0⟩], some (ascii "x")) := by decide
    obtain ⟨t, ht, hv⟩ := Option.map_eq_some_iff.mp hprobe
    simp only [probe, Prod.mk.injEq] at hv
    exact ⟨t, ht, not_sizesRight (e := ⟨ascii "b", 2, 4, 0, 0⟩) (by rw [hv.1]; simp) hv.2
      (by decide)⟩

end CSE344.TableSizes
