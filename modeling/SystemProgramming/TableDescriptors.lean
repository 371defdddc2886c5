import SystemProgramming.CString
import SystemProgramming.ProcessFiles
import SystemProgramming.TransitionRun

/-!
# Descriptors in the midterm server's file table

`list_files` opens the files in the server process and every request is served
by a fresh child, which starts with a copy of the server's descriptors and
takes its own with it when it ends. The table in shared memory keeps the
numbers. The requests come one after the other; the segment is new and has
room for every entry, and the counters of the entries are left out.
-/

set_option autoImplicit false

namespace CSE344.TableDescriptors
open CString ProcessFiles TransitionRun

/-- `fd` is `none` for the -1 of an `open` that failed. -/
structure Entry where
  name : Bytes
  fd : Option ℕ
  deriving DecidableEq, Repr

structure Dirent where
  name : Bytes
  regular : Bool
  openOk : Bool

/-- `short` says that a line is asked for which the file does not have. -/
inductive Command where
  | help
  | list
  | readF (file : Bytes)
  | writeT (file : Bytes) (short : Bool)
  | upload (file : Bytes)
  | download (file : Bytes)
  | quit
  | killServer
  | invalid
  deriving DecidableEq, Repr

/-- A request with what the calls made for it return. `pid` is the dequeued
number, `strayPid` what the variable `pid` of the handler holds, and `buffer`
what is left in the buffer that `handle_client` unlinks at its end. -/
structure Request where
  command : Command
  pid : ℤ
  strayPid : ℤ
  buffer : Bytes
  fifoOk : Bool
  openOk : Bool
  unlinkOk : Bytes → Bool

/-- The server when `list_files` is called; `stream` is the directory opened. -/
structure Config (Loc : Type*) where
  inherited : Table ℕ
  files : Loc → Option ℕ
  next : ℕ
  old : ∀ l x, files l = some x → x < next
  opendirOk : Bool
  stream : ℕ
  entries : List Dirent

/-- `listed` is a history: the entries that `list_files` made with an `open`
that succeeded. -/
structure State (Loc : Type*) where
  server : Table ℕ
  table : List Entry
  directory : Directory Loc
  listed : List Entry
  alive : Bool

variable {Loc : Type*} (place : Bytes → Loc)

/-- One turn of the `readdir` loop. -/
def listEntry (files : Loc → Option ℕ) (l : Table ℕ × List Entry) (e : Dirent) :
    Table ℕ × List Entry :=
  if e.regular then
    match files (place e.name), e.openOk with
    | some x, true => (install l.1 x, l.2 ++ [⟨e.name, some (free l.1)⟩])
    | _, _ => (l.1, l.2 ++ [⟨e.name, none⟩])
  else l

def listFiles (cfg : Config Loc) : Table ℕ × List Entry :=
  if cfg.opendirOk then
    let l := cfg.entries.foldl (listEntry place cfg.files) (install cfg.inherited cfg.stream, [])
    (close l.1 (free cfg.inherited), l.2)
  else (cfg.inherited, [])

def init (cfg : Config Loc) : State Loc where
  server := (listFiles place cfg).1
  table := (listFiles place cfg).2
  directory := ⟨cfg.files, cfg.next, []⟩
  listed := (listFiles place cfg).2.filter (fun e => e.fd.isSome)
  alive := true

def fifoPath (pid : ℤ) : Bytes := ascii ("/tmp/" ++ toString pid)

def find (table : List Entry) (name : Bytes) : Option Entry :=
  table.find? (fun e => e.name = name)

/-- The file whose entry a handler looks up to use its descriptor. -/
def Command.file : Command → Option Bytes
  | .readF file => some file
  | .writeT file _ => some file
  | .download file => some file
  | .quit => some (ascii "log.txt")
  | _ => none

/-- The entry whose descriptor the child uses. -/
def used (r : Request) (s : State Loc) : Option Entry :=
  if s.alive ∧ r.fifoOk then r.command.file.bind (find s.table) else none

section Serving

variable [DecidableEq Loc]

/-- After `mkfifo` in `handle_client`. -/
def started (r : Request) (s : State Loc) : Directory Loc :=
  s.directory.create (place (fifoPath r.pid))

/-- The child's descriptors once it has opened the FIFO. -/
def child (r : Request) (s : State Loc) : Table ℕ :=
  install s.server (((started place r s).files (place (fifoPath r.pid))).getD 0)

def tryUnlink (r : Request) (path : Bytes) (d : Directory Loc) : Directory Loc :=
  if r.unlinkOk path then d.unlink (place path) else d

/-- The FIFO that a handler makes, writes to and unlinks. -/
def reply (r : Request) (d : Directory Loc) : Directory Loc :=
  tryUnlink place r (fifoPath r.strayPid) (d.create (place (fifoPath r.strayPid)))

def writeFile (r : Request) (file : Bytes) (short : Bool) (s : State Loc) : State Loc :=
  if short ∧ (find s.table file).isSome then s
  else { s with directory := reply place r s.directory }

def uploadFile (r : Request) (file : Bytes) (s : State Loc) : State Loc :=
  match find s.table file with
  | some _ => { s with directory := reply place r s.directory }
  | none =>
    if r.openOk then { s with
      table := s.table ++ [⟨file, some (free (child place r s))⟩]
      directory := reply place r (s.directory.create (place file)) }
    else { s with
      table := s.table ++ [⟨file, none⟩]
      directory := reply place r s.directory }

def downloadFile (r : Request) (file : Bytes) (s : State Loc) : State Loc :=
  match find s.table file with
  | none => { s with directory := reply place r s.directory }
  | some _ => { s with
      table := s.table.eraseP (fun e => e.name = file)
      directory := reply place r (tryUnlink place r file s.directory) }

def dispatch (r : Request) (s : State Loc) : State Loc :=
  match r.command with
  | .readF _ => { s with directory := reply place r s.directory }
  | .writeT file short => writeFile place r file short s
  | .upload file => uploadFile place r file s
  | .download file => downloadFile place r file s
  | .quit => writeFile place r (ascii "log.txt") false s
  | .killServer => { s with directory := reply place r s.directory, alive := false }
  | _ => s

/-- One request served by a child of its own. Without the FIFO nothing is read
and the request is taken to be invalid. -/
def handleClient (r : Request) (s : State Loc) : State Loc :=
  let s := { s with directory := started place r s }
  let s := if r.fifoOk then dispatch place r s else s
  { s with directory := tryUnlink place r r.buffer s.directory }

def serve (r : Request) (s : State Loc) : Option (State Loc) :=
  if s.alive then some (handleClient place r s) else none

/-- The number is open in the child and refers to the file of that name. -/
def Right (r : Request) (s : State Loc) : Prop :=
  ∀ e, used r s = some e → ∃ n x, e.fd = some n ∧ lookup (child place r s) n = some x ∧
    (started place r s).files (place e.name) = some x

end Serving

/-- The entry is one that `list_files` opened, and its name has not been unlinked since. -/
def Guard (r : Request) (s : State Loc) : Prop :=
  ∀ e, used r s = some e → e ∈ s.listed ∧ place e.name ∉ s.directory.unlinked

/-- The number is free in the server and is not the one a child's FIFO gets. -/
def Unowned (server : Table ℕ) (e : Entry) : Prop :=
  ∀ n, e.fd = some n → lookup server n = none ∧ n ≠ free server

/-- What the server's descriptors, the table and the directory have to do with each other. -/
structure Sound (s : State Loc) : Prop where
  listed : ∀ e ∈ s.listed, ∃ n x, e.fd = some n ∧ lookup s.server n = some x ∧
    Kept s.directory (place e.name) x
  table : ∀ e ∈ s.table, e ∈ s.listed ∨ Unowned s.server e

section Listing

variable {place}

theorem listEntry_open {files : Loc → Option ℕ} {d stream : ℕ} {l : Table ℕ × List Entry}
    (hd : lookup l.1 d = some stream)
    (hl : ∀ e ∈ l.2, ∀ n, e.fd = some n → n ≠ d ∧
      ∃ x, files (place e.name) = some x ∧ lookup l.1 n = some x) (e : Dirent) :
    lookup (listEntry place files l e).1 d = some stream ∧
      ∀ e' ∈ (listEntry place files l e).2, ∀ n, e'.fd = some n → n ≠ d ∧
        ∃ x, files (place e'.name) = some x ∧ lookup (listEntry place files l e).1 n = some x := by
  unfold listEntry
  split_ifs
  · split
    · rename_i x hx _
      refine ⟨lookup_install hd x, fun e' he' n hn => ?_⟩
      rcases List.mem_append.mp he' with he' | he'
      · obtain ⟨hne, y, hy, hlook⟩ := hl e' he' n hn
        exact ⟨hne, y, hy, lookup_install hlook x⟩
      · obtain rfl := List.mem_singleton.mp he'
        obtain rfl : free l.1 = n := Option.some.inj hn
        exact ⟨(ne_free hd).symm, x, hx, lookup_install_free l.1 x⟩
    · refine ⟨hd, fun e' he' n hn => ?_⟩
      rcases List.mem_append.mp he' with he' | he'
      · exact hl e' he' n hn
      · rw [List.mem_singleton.mp he'] at hn
        cases hn
  · exact ⟨hd, hl⟩

theorem listFiles_open (cfg : Config Loc) : ∀ e ∈ (listFiles place cfg).2, ∀ n, e.fd = some n →
    ∃ x, cfg.files (place e.name) = some x ∧ lookup (listFiles place cfg).1 n = some x := by
  unfold listFiles
  split_ifs
  · have hloop (entries : List Dirent) (l : Table ℕ × List Entry)
        (hd : lookup l.1 (free cfg.inherited) = some cfg.stream)
        (hl : ∀ e ∈ l.2, ∀ n, e.fd = some n → n ≠ free cfg.inherited ∧
          ∃ x, cfg.files (place e.name) = some x ∧ lookup l.1 n = some x) :
        ∀ e ∈ (entries.foldl (listEntry place cfg.files) l).2, ∀ n, e.fd = some n →
          n ≠ free cfg.inherited ∧ ∃ x, cfg.files (place e.name) = some x ∧
            lookup (entries.foldl (listEntry place cfg.files) l).1 n = some x := by
      induction entries generalizing l with
      | nil => exact hl
      | cons entry entries ih =>
        obtain ⟨hd', hl'⟩ := listEntry_open hd hl entry
        exact ih _ hd' hl'
    intro e he n hn
    obtain ⟨hne, x, hx, hlook⟩ := hloop cfg.entries (install cfg.inherited cfg.stream, [])
      (lookup_install_free _ _) (by simp) e he n hn
    exact ⟨x, hx, (lookup_close_ne _ hne).trans hlook⟩
  · simp

theorem sound_init (cfg : Config Loc) : Sound place (init place cfg) where
  listed := by
    intro e he
    obtain ⟨hmem, hsome⟩ := List.mem_filter.mp he
    obtain ⟨n, hn⟩ := Option.isSome_iff_exists.mp hsome
    obtain ⟨x, hx, hlook⟩ := listFiles_open cfg e hmem n hn
    refine ⟨n, x, hn, hlook, cfg.old _ x hx, ?_⟩
    simp [init, hx]
  table := by
    intro e he
    cases hfd : e.fd with
    | none =>
      right
      intro n hn
      rw [hfd] at hn
      cases hn
    | some n => exact Or.inl (List.mem_filter.mpr ⟨he, by rw [hfd]; rfl⟩)

end Listing

section Requests

/-- What one request can change: bindings are made and removed in the
directory, and the table gets no number that the server has open. -/
structure Next (s t : State Loc) : Prop where
  server : t.server = s.server
  listed : t.listed = s.listed
  directory : ∀ l x, Kept s.directory l x → Kept t.directory l x
  table : ∀ e ∈ t.table, e ∈ s.table ∨ Unowned s.server e

variable {place} {s t : State Loc}

theorem Next.refl (s : State Loc) : Next s s :=
  ⟨rfl, rfl, fun _ _ h => h, fun _ h => Or.inl h⟩

theorem Next.trans {u : State Loc} (h : Next s t) (h' : Next t u) : Next s u where
  server := h'.server.trans h.server
  listed := h'.listed.trans h.listed
  directory := fun l x hk => h'.directory l x (h.directory l x hk)
  table := by
    intro e he
    rcases h'.table e he with he | he
    · exact h.table e he
    · rw [h.server] at he
      exact Or.inr he

theorem Next.sound (h : Next s t) (hs : Sound place s) : Sound place t where
  listed := by
    rw [h.listed, h.server]
    intro e he
    obtain ⟨n, x, hn, hlook, hkept⟩ := hs.listed e he
    exact ⟨n, x, hn, hlook, h.directory _ x hkept⟩
  table := by
    rw [h.listed, h.server]
    intro e he
    rcases h.table e he with he | he
    · exact hs.table e he
    · exact Or.inr he

theorem next_directory {d : Directory Loc} (hd : ∀ l x, Kept s.directory l x → Kept d l x) :
    Next s { s with directory := d } :=
  ⟨rfl, rfl, hd, fun _ h => Or.inl h⟩

variable [DecidableEq Loc] (r : Request)

theorem tryUnlink_kept (path : Bytes) {d : Directory Loc} {l : Loc} {x : ℕ} (h : Kept d l x) :
    Kept (tryUnlink place r path d) l x := by
  unfold tryUnlink
  split_ifs
  · exact h.unlink _
  · exact h

theorem reply_kept {d : Directory Loc} {l : Loc} {x : ℕ} (h : Kept d l x) :
    Kept (reply place r d) l x :=
  tryUnlink_kept r _ (h.create _)

theorem writeFile_next (file : Bytes) (short : Bool) (s : State Loc) :
    Next s (writeFile place r file short s) := by
  unfold writeFile
  split_ifs
  · exact Next.refl s
  · exact next_directory (fun _ _ h => reply_kept r h)

theorem uploaded_unowned (s : State Loc) (file : Bytes) :
    Unowned s.server ⟨file, some (free (child place r s))⟩ := by
  intro n hn
  obtain rfl : free (child place r s) = n := Option.some.inj hn
  have hne : free (child place r s) ≠ free s.server :=
    (ne_free (lookup_install_free s.server _)).symm
  refine ⟨?_, hne⟩
  calc lookup s.server (free (child place r s))
      = lookup (child place r s) (free (child place r s)) := (lookup_install_ne _ _ hne).symm
    _ = none := lookup_free _

theorem uploadFile_next (file : Bytes) (s : State Loc) : Next s (uploadFile place r file s) := by
  unfold uploadFile
  split
  · exact next_directory (fun _ _ h => reply_kept r h)
  · split_ifs
    · refine ⟨rfl, rfl, fun l x h => reply_kept r (h.create _), fun e he => ?_⟩
      rcases List.mem_append.mp he with he | he
      · exact Or.inl he
      · rw [List.mem_singleton.mp he]
        exact Or.inr (uploaded_unowned r s file)
    · refine ⟨rfl, rfl, fun l x h => reply_kept r h, fun e he => ?_⟩
      rcases List.mem_append.mp he with he | he
      · exact Or.inl he
      · rw [List.mem_singleton.mp he]
        exact Or.inr nofun

theorem downloadFile_next (file : Bytes) (s : State Loc) :
    Next s (downloadFile place r file s) := by
  unfold downloadFile
  split
  · exact next_directory (fun _ _ h => reply_kept r h)
  · exact ⟨rfl, rfl, fun l x h => reply_kept r (tryUnlink_kept r file h),
      fun e he => Or.inl (List.mem_of_mem_eraseP he)⟩

theorem dispatch_next (s : State Loc) : Next s (dispatch place r s) := by
  unfold dispatch
  split
  · exact next_directory (fun _ _ h => reply_kept r h)
  · exact writeFile_next r _ _ s
  · exact uploadFile_next r _ s
  · exact downloadFile_next r _ s
  · exact writeFile_next r _ _ s
  · exact ⟨rfl, rfl, fun _ _ h => reply_kept r h, fun _ h => Or.inl h⟩
  · exact Next.refl s

theorem handleClient_next (s : State Loc) : Next s (handleClient place r s) := by
  have hstart : Next s { s with directory := started place r s } :=
    next_directory (fun _ _ h => h.create _)
  unfold handleClient
  split_ifs
  · exact (hstart.trans (dispatch_next r _)).trans
      (next_directory (fun _ _ h => tryUnlink_kept r _ h))
  · exact hstart.trans (next_directory (fun _ _ h => tryUnlink_kept r _ h))

theorem sound_serve (hs : Sound place s) (h : serve place r s = some t) : Sound place t := by
  unfold serve at h
  split_ifs at h
  cases h
  exact (handleClient_next r s).sound hs

theorem create_unlinked (d : Directory Loc) (l : Loc) : (d.create l).unlinked = d.unlinked := by
  unfold Directory.create
  split <;> rfl

/-- An entry serves its user exactly if `list_files` opened it and its name is still there. -/
theorem right_iff_guard (hs : Sound place s) : Right place r s ↔ Guard place r s := by
  apply forall₂_congr
  intro e hused
  have hmem : e ∈ s.table := by
    unfold used at hused
    split_ifs at hused
    obtain ⟨file, -, hfind⟩ := Option.bind_eq_some_iff.mp hused
    exact List.mem_of_find?_eq_some hfind
  have hchild {n x : ℕ} (h : lookup s.server n = some x) : lookup (child place r s) n = some x :=
    lookup_install h _
  have hstart {x : ℕ} (h : Kept s.directory (place e.name) x) :
      (started place r s).files (place e.name) = some x ↔
        place e.name ∉ s.directory.unlinked := by
    rw [← create_unlinked s.directory (place (fifoPath r.pid))]
    exact (h.create _).2
  constructor
  · rintro ⟨n, x, hn, hlook, hfile⟩
    rcases hs.table e hmem with hlisted | hout
    · obtain ⟨m, y, hm, hopen, hkept⟩ := hs.listed e hlisted
      obtain rfl : n = m := Option.some.inj (hn.symm.trans hm)
      obtain rfl : x = y := Option.some.inj (hlook.symm.trans (hchild hopen))
      exact ⟨hlisted, (hstart hkept).mp hfile⟩
    · obtain ⟨hnone, hne⟩ := hout n hn
      rw [child, lookup_install_ne _ _ hne, hnone] at hlook
      cases hlook
  · rintro ⟨hlisted, hthere⟩
    obtain ⟨n, x, hn, hopen, hkept⟩ := hs.listed e hlisted
    exact ⟨n, x, hn, hchild hopen, (hstart hkept).mpr hthere⟩

/-- Every use of a descriptor is right exactly in the runs that use only
entries made by `list_files` whose names are still there. -/
theorem descriptors_right_iff (cfg : Config Loc) (rs : List Request) :
    Meets (serve place) (Right place) rs (init place cfg) ↔
      Meets (serve place) (Guard place) rs (init place cfg) :=
  meets_congr (serve place) (Right place) (Guard place) (Sound place)
    (fun r _ _ hs h => sound_serve r hs h) (fun r _ hs => right_iff_guard r hs) rs _
    (sound_init cfg)

end Requests

def emptyDirectory : Config Bytes where
  inherited := [some 0, some 1, some 2]
  files := fun _ => none
  next := 4
  old := nofun
  opendirOk := true
  stream := 3
  entries := []

def asked (command : Command) : Request where
  command := command
  pid := -1
  strayPid := 0
  buffer := []
  fifoOk := true
  openOk := true
  unlinkOk := fun _ => true

/-- The child that serves `readF` has nothing open under the number the upload left. -/
theorem uploaded_unreadable : ¬ Meets (serve id) (Right id)
    [asked (.upload (ascii "a")), asked (.readF (ascii "a"))] (init id emptyDirectory) := by
  intro h
  obtain ⟨n, x, hn, hlook, -⟩ := (h.tail rfl).1 ⟨ascii "a", some 4⟩ (by decide)
  obtain rfl : 4 = n := Option.some.inj hn
  have hnone : lookup (child id (asked (.readF (ascii "a")))
      (handleClient id (asked (.upload (ascii "a"))) (init id emptyDirectory))) 4 = none := by
    decide
  rw [hnone] at hlook
  cases hlook

end CSE344.TableDescriptors
