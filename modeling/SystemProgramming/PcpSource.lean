import SystemProgramming.FileBytes
import SystemProgramming.PcpFifo

/-!
# What pCp does to the files

The machine of the producer and the consumers together with a file system. A
path denotes a location, however that comes about: two paths may denote the
same one. Opening a destination empties or creates the file there, and a
consumer's section copies what the source then holds: no read fails, and every
write takes all that it is given. The program never asks whether a destination
denotes one of the files that it copies from.
-/

set_option autoImplicit false

namespace CSE344.PcpSource
open CString FileBytes RingQueue TransitionRun PcpMachine PcpFifo

structure World (Loc : Type*) where
  denotes : Bytes → Loc
  isDir : Loc → Bool

structure State (Loc : Type*) where
  machine : PcpMachine.State
  files : Loc → Option Bytes

variable {Loc : Type*}

def init (cfg : Config) (files : Loc → Option Bytes) : State Loc := ⟨PcpMachine.init cfg, files⟩

/-- The source and destination file whose two opens succeed in this step. -/
def opens (a : Act) (m : PcpMachine.State) : Option (Bytes × Bytes) :=
  match a, m.producer with
  | .produce sourceFd destinationFd _, .produce sourceFile destinationFile _ =>
    if m.buf.count = bufferSize ∨ sourceFd = -1 ∨ destinationFd = -1 then none
    else some (sourceFile, destinationFile)
  | _, _ => none

/-- The slot that a consumer copies in this step. -/
def copies (a : Act) (m : PcpMachine.State) : Option Slot :=
  match a with
  | .consume _ => if m.buf.count = 0 then none else some (m.buf.buffer m.buf.out)
  | _ => none

/-- `O_RDONLY` needs a file or a directory, `O_WRONLY` no directory. -/
def Permits (w : World Loc) (a : Act) (s : State Loc) : Prop :=
  ∀ p ∈ opens a s.machine,
    ((s.files (w.denotes p.1)).isSome = true ∨ w.isDir (w.denotes p.1) = true) ∧
      w.isDir (w.denotes p.2) = false

instance Permits.decidable (w : World Loc) (a : Act) (s : State Loc) :
    Decidable (Permits w a s) := by
  unfold Permits
  infer_instance

/-- `char buffer[4096]` -/
def chunkSize : ℕ := 4096

section Step

variable [DecidableEq Loc]

def effect (w : World Loc) (a : Act) (s : State Loc) : Loc → Option Bytes :=
  match opens a s.machine, copies a s.machine with
  | some p, _ => Function.update s.files (w.denotes p.2) (some [])
  | none, some slot =>
      copy chunkSize (w.denotes slot.sourceFile) (w.denotes slot.destinationFile) s.files
  | none, none => s.files

def step (w : World Loc) (cfg : Config) (a : Act) (s : State Loc) : Option (State Loc) :=
  if Permits w a s then
    (PcpMachine.step cfg a s.machine).map (fun m => ⟨m, effect w a s⟩)
  else none

end Step

/-- A file of the source directory, as the program finds it. -/
def Source (w : World Loc) (cfg : Config) (files : Loc → Option Bytes) (l : Loc) : Prop :=
  (∃ e ∈ cfg.entries, l = w.denotes (joinPath cfg.sourceDir e)) ∧ (files l).isSome = true

def Unchanged (w : World Loc) (cfg : Config) (files : Loc → Option Bytes) (s : State Loc) :
    Prop :=
  ∀ l, Source w cfg files l → s.files l = files l

/-- A destination that denotes a source file is empty when it is opened, and
what is copied there is empty. -/
def Spares (w : World Loc) (cfg : Config) (files : Loc → Option Bytes) (a : Act)
    (s : State Loc) : Prop :=
  (∀ p ∈ opens a s.machine, Source w cfg files (w.denotes p.2) →
    readable s.files (w.denotes p.2) = []) ∧
  (∀ slot ∈ copies a s.machine, Source w cfg files (w.denotes slot.destinationFile) →
    readable s.files (w.denotes slot.sourceFile) = [])

/-- The ring is a FIFO, and the destinations opened so far were empty where
they denote source files. -/
structure Cleared (w : World Loc) (cfg : Config) (files : Loc → Option Bytes) (s : State Loc) :
    Prop where
  fifo : Fifo s.machine
  empty : ∀ slot ∈ s.machine.opened, Source w cfg files (w.denotes slot.destinationFile) →
    files (w.denotes slot.destinationFile) = some []

theorem Source.content {w : World Loc} {cfg : Config} {files : Loc → Option Bytes} {l : Loc}
    (h : Source w cfg files l) :
    files l = some (readable files l) := by
  obtain ⟨c, hc⟩ := Option.isSome_iff_exists.mp h.2
  rw [readable, hc]
  rfl

theorem cleared_init (w : World Loc) (cfg : Config) (files : Loc → Option Bytes) :
    Cleared w cfg files (init cfg files) where
  fifo := fifo_init cfg
  empty slot h := by cases h

section Proof

variable [DecidableEq Loc] {w : World Loc} {cfg : Config} {files : Loc → Option Bytes}

theorem step_cases {a : Act} {s t : State Loc} (h : step w cfg a s = some t) :
    Move cfg s.machine a t.machine ∧ t.files = effect w a s := by
  simp only [step, Option.ite_none_right_eq_some, Option.map_eq_some_iff] at h
  obtain ⟨-, m, hm, rfl⟩ := h
  exact ⟨step_move cfg a s.machine m hm, rfl⟩

theorem opens_copies (a : Act) (m : PcpMachine.State) : opens a m = none ∨ copies a m = none := by
  cases a <;> simp [opens, copies]

theorem taken_opened {m : PcpMachine.State} {a : Act} {slot : Slot} (h : Fifo m)
    (hc : copies a m = some slot) : slot ∈ m.opened := by
  cases a with
  | consume i =>
    simp only [copies, Option.ite_none_left_eq_some, Option.some.injEq] at hc
    obtain ⟨hpos, rfl⟩ := hc
    have hlt : 0 < m.buf.count := lt_of_le_of_ne h.ring.count_nonneg (Ne.symm hpos)
    rw [← h.queue, live, contents_pop h.ring hlt]
    simp
  | _ => cases hc

theorem opens_keeps {a : Act} {s : State Loc} {p : Bytes × Bytes}
    (hp : Unchanged w cfg files s) (ho : opens a s.machine = some p) :
    (∀ l, Source w cfg files l → effect w a s l = files l) ↔
      (Source w cfg files (w.denotes p.2) → readable s.files (w.denotes p.2) = []) := by
  have heff : effect w a s = Function.update s.files (w.denotes p.2) (some []) := by
    simp [effect, ho]
  rw [heff]
  constructor
  · intro h hs
    have hnew := h _ hs
    rw [Function.update_self, ← hp _ hs] at hnew
    rw [readable, ← hnew]
    rfl
  · intro h l hl
    by_cases hld : l = w.denotes p.2
    · subst hld
      rw [Function.update_self, ← hp _ hl]
      have hcontent := hl.content
      rw [← hp _ hl, show readable files (w.denotes p.2) = readable s.files (w.denotes p.2) by
        rw [readable, readable, hp _ hl], h hl] at hcontent
      exact hcontent.symm
    · rw [Function.update_of_ne hld]
      exact hp l hl

theorem copies_keeps {a : Act} {s : State Loc} {slot : Slot} (hp : Unchanged w cfg files s)
    (hq : Cleared w cfg files s) (hc : copies a s.machine = some slot) :
    (∀ l, Source w cfg files l → effect w a s l = files l) ↔
      (Source w cfg files (w.denotes slot.destinationFile) →
        readable s.files (w.denotes slot.sourceFile) = []) := by
  have ho : opens a s.machine = none := by
    rcases opens_copies a s.machine with ho | hn
    · exact ho
    · rw [hc] at hn
      cases hn
  have heff : effect w a s = copy chunkSize (w.denotes slot.sourceFile)
      (w.denotes slot.destinationFile) s.files := by
    simp [effect, ho, hc]
  rw [heff]
  constructor
  · intro h hs
    have hempty := hq.empty slot (taken_opened hq.fifo hc) hs
    have hdst : s.files (w.denotes slot.destinationFile) = some [] := by rw [hp _ hs, hempty]
    by_cases hne : w.denotes slot.sourceFile = w.denotes slot.destinationFile
    · rw [hne, readable, hdst]
      rfl
    · have hnew := h _ hs
      rw [copy_content chunkSize (by decide) _ _ hne _ hdst, hempty] at hnew
      exact Option.some.inj hnew
  · intro h l hl
    by_cases hld : l = w.denotes slot.destinationFile
    · subst hld
      rw [copy_empty chunkSize _ _ _ (h hl)]
      exact hp _ hl
    · rw [copy_frame chunkSize _ _ _ hld]
      exact hp l hl

theorem step_keeps (a : Act) (s t : State Loc) (hp : Unchanged w cfg files s)
    (hq : Cleared w cfg files s) (hs : step w cfg a s = some t) :
    Unchanged w cfg files t ↔ Spares w cfg files a s := by
  obtain ⟨-, heff⟩ := step_cases hs
  unfold Unchanged Spares
  rw [heff]
  cases ho : opens a s.machine with
  | some p =>
    have hnone := (opens_copies a s.machine).resolve_left (by simp [ho])
    rw [opens_keeps hp ho, hnone]
    simp
  | none =>
    cases hc : copies a s.machine with
    | some slot =>
      rw [copies_keeps hp hq hc]
      simp
    | none =>
      have : effect w a s = s.files := by simp [effect, ho, hc]
      rw [this]
      exact ⟨fun _ => by simp, fun _ => hp⟩

theorem opened_cases {a : Act} {m n : PcpMachine.State} (h : Move cfg m a n) (slot : Slot)
    (hs : slot ∈ n.opened) : slot ∈ m.opened ∨
      opens a m = some (slot.sourceFile, slot.destinationFile) := by
  cases h with
  | store src dst rest a b wake cs hp hfree ha hb hw =>
    rcases List.mem_append.mp hs with hs | hs
    · exact .inl hs
    · right
      rw [List.mem_singleton.mp hs]
      simp [opens, hp, hfree, ha, hb]
  | _ => exact .inl hs

theorem step_cleared (a : Act) (s t : State Loc) (hp : Unchanged w cfg files s)
    (hq : Cleared w cfg files s) (hc : Spares w cfg files a s)
    (hs : step w cfg a s = some t) : Cleared w cfg files t := by
  obtain ⟨hmove, -⟩ := step_cases hs
  refine ⟨fifo_move cfg _ _ _ hq.fifo hmove, fun slot hslot hsrc => ?_⟩
  rcases opened_cases hmove slot hslot with hold | hnew
  · exact hq.empty slot hold hsrc
  · have hread := hc.1 _ hnew hsrc
    rw [hsrc.content, readable, ← hp _ hsrc]
    exact congrArg some hread

/-- The source files stay as they are throughout a run if and only if every
opened destination that denotes one of them was empty and nothing is copied
onto one. -/
theorem source_unchanged_iff (w : World Loc) (cfg : Config) (files : Loc → Option Bytes)
    (as : List Act) (t : State Loc) (h : run (step w cfg) as (init cfg files) = some t) :
    (Throughout (step w cfg) (Unchanged w cfg files) as (init cfg files) ↔
      Meets (step w cfg) (Spares w cfg files) as (init cfg files)) ∧
    (Meets (step w cfg) (Spares w cfg files) as (init cfg files) → Unchanged w cfg files t) := by
  have hiff := throughout_iff_meets (step w cfg) (Spares w cfg files) (Unchanged w cfg files)
    (Cleared w cfg files) step_keeps step_cleared as (init cfg files) t (fun l _ => rfl)
    (cleared_init w cfg files) h
  exact ⟨hiff, fun hm => (hiff.mpr hm).last h⟩

/-- The two paths that `producer_thread` builds for an entry. -/
def FromEntry (cfg : Config) (p : Bytes × Bytes) : Prop :=
  ∃ e ∈ cfg.entries, isDot e = false ∧ p = (filePath cfg.sourceDir e, filePath cfg.destinationDir e)

def restOf : Producer → List Bytes
  | .scan rest => rest
  | .produce _ _ rest => rest
  | .asleep _ _ rest => rest
  | _ => []

def pathsOf : Producer → List (Bytes × Bytes)
  | .produce src dst _ => [(src, dst)]
  | .asleep src dst _ => [(src, dst)]
  | _ => []

/-- Every path of the machine is one of an entry. -/
structure Listed (cfg : Config) (m : PcpMachine.State) : Prop where
  rest : ∀ e ∈ restOf m.producer, e ∈ cfg.entries
  pending : ∀ p ∈ pathsOf m.producer, FromEntry cfg p
  opened : ∀ slot ∈ m.opened, FromEntry cfg (slot.sourceFile, slot.destinationFile)

theorem listed_init (cfg : Config) : Listed cfg (PcpMachine.init cfg) where
  rest e h := by cases h
  pending p h := by cases h
  opened slot h := by cases h

theorem listed_move {m n : PcpMachine.State} {a : Act} (h : Listed cfg m) (hm : Move cfg m a n) :
    Listed cfg n := by
  obtain ⟨hrest, hpending, hopened⟩ := h
  cases hm with
  | opendir ok hp =>
    refine ⟨?_, ?_, hopened⟩ <;> cases ok <;> simp [restOf, pathsOf]
  | closedir hp => exact ⟨by simp [restOf], by simp [pathsOf], hopened⟩
  | readdir name rest hp =>
    rw [hp] at hrest
    cases hdot : isDot name with
    | true => exact ⟨fun e he => hrest e (by simp_all [afterReaddir, restOf]),
        by simp [afterReaddir, hdot, pathsOf], hopened⟩
    | false =>
      refine ⟨fun e he => hrest e (by simp_all [afterReaddir, restOf]), fun p hp' => ?_, hopened⟩
      simp only [afterReaddir, hdot, Bool.false_eq_true, if_false, pathsOf,
        List.mem_singleton] at hp'
      exact ⟨name, hrest name (by simp [restOf]), hdot, hp'⟩
  | sleepFull src dst rest a b wake hp =>
    rw [hp] at hrest hpending
    exact ⟨hrest, hpending, hopened⟩
  | openFails src dst rest a b wake hp =>
    rw [hp] at hrest
    exact ⟨hrest, by simp [pathsOf], hopened⟩
  | store src dst rest a b wake cs hp =>
    rw [hp] at hrest hpending
    refine ⟨hrest, by simp [pathsOf], fun slot hslot => ?_⟩
    rcases List.mem_append.mp hslot with hslot | hslot
    · exact hopened slot hslot
    · rw [List.mem_singleton.mp hslot]
      exact hpending _ (by simp [pathsOf])
  | finish hp => exact ⟨by simp [restOf], by simp [pathsOf], hopened⟩
  | take i hi hpos =>
    have hsame : restOf (signalNotFull m.producer) = restOf m.producer ∧
        pathsOf (signalNotFull m.producer) = pathsOf m.producer := by
      cases m.producer <;> exact ⟨rfl, rfl⟩
    exact ⟨hsame.1.symm ▸ hrest, hsame.2.symm ▸ hpending, hopened⟩
  | spuriousNotFull src dst rest hp =>
    rw [hp] at hrest hpending
    exact ⟨hrest, hpending, hopened⟩
  | sleepEmpty i hi => exact ⟨hrest, hpending, hopened⟩
  | leave i hi => exact ⟨hrest, hpending, hopened⟩
  | check i hi => exact ⟨hrest, hpending, hopened⟩
  | spuriousNotEmpty i hi => exact ⟨hrest, hpending, hopened⟩

theorem opens_listed {a : Act} {m : PcpMachine.State} (h : Listed cfg m) {p : Bytes × Bytes}
    (ho : opens a m = some p) : FromEntry cfg p := by
  simp only [opens] at ho
  split at ho
  · rename_i src dst rest hp
    split_ifs at ho
    cases ho
    exact h.pending _ (by simp [hp, pathsOf])
  · cases ho

/-- If no destination path denotes a source file, no run touches one. -/
theorem source_kept_apart (w : World Loc) (cfg : Config) (files : Loc → Option Bytes)
    (hapart : ∀ e ∈ cfg.entries, isDot e = false →
      ¬ Source w cfg files (w.denotes (filePath cfg.destinationDir e)))
    (as : List Act) (t : State Loc) (h : run (step w cfg) as (init cfg files) = some t) :
    Unchanged w cfg files t := by
  have hno (p : Bytes × Bytes) (hp : FromEntry cfg p) : ¬ Source w cfg files (w.denotes p.2) := by
    obtain ⟨e, he, hdot, rfl⟩ := hp
    exact hapart e he hdot
  have hinv := run_invariant (step w cfg) (fun s => Listed cfg s.machine ∧
    Unchanged w cfg files s ∧ Cleared w cfg files s) ?_ as (init cfg files) t
    ⟨listed_init cfg, fun l _ => rfl, cleared_init w cfg files⟩ h
  · exact hinv.2.1
  rintro a s u ⟨hl, hp, hq⟩ hs
  have hspares : Spares w cfg files a s := by
    constructor
    · intro p ho hsrc
      exact absurd hsrc (hno p (opens_listed hl ho))
    · intro slot hc hsrc
      exact absurd hsrc (hno _ (hl.opened slot (taken_opened hq.fifo hc)))
  exact ⟨listed_move hl (step_cases hs).1, (step_keeps a s u hp hq hs).mpr hspares,
    step_cleared a s u hp hq hspares hs⟩

end Proof

/-- One file `a` with one byte; the same directory is source and destination. -/
def sameDir : Config := ⟨ascii "d", ascii "d", [ascii "a"], 1⟩

def byName : World Bytes := ⟨id, fun _ => false⟩

def oneFile (l : Bytes) : Option Bytes := if l = ascii "d/a" then some [1] else none

theorem source_unchanged_iff_same_dir : ∃ t,
    run (step byName sameDir) oneEntryRun (init sameDir oneFile) = some t ∧
    (Throughout (step byName sameDir) (Unchanged byName sameDir oneFile) oneEntryRun
        (init sameDir oneFile) ↔
      Meets (step byName sameDir) (Spares byName sameDir oneFile) oneEntryRun
        (init sameDir oneFile)) :=
  ⟨_, rfl, (source_unchanged_iff byName sameDir oneFile oneEntryRun _ rfl).1⟩

/-- The file copied onto itself has lost its byte. -/
theorem same_dir_emptied : ∃ t,
    run (step byName sameDir) oneEntryRun (init sameDir oneFile) = some t ∧
    ¬ Unchanged byName sameDir oneFile t ∧ oneFile (ascii "d/a") = some [1] ∧
    t.files (ascii "d/a") = some [] := by
  refine ⟨_, rfl, fun h => ?_, rfl, rfl⟩
  have := h (ascii "d/a") ⟨⟨ascii "a", by decide, rfl⟩, rfl⟩
  cases this

end CSE344.PcpSource
