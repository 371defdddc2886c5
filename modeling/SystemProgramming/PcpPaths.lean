import Mathlib.Data.List.Nodup
import SystemProgramming.PcpFifo

/-!
# The paths that pCp gives its entries

`producer_thread` formats both paths of an entry into 512 bytes, and the part
that does not fit is dropped without a word. The paths of a run are those of
the entries as `readdir` gives them, so they are right if and only if each of
them fits; then no two entries share one.
-/

set_option autoImplicit false

namespace CSE344.PcpPaths
open CString TransitionRun PcpMachine PcpFifo

/-- The arguments of the call of `produce_file_descriptor_pair` made in this step. -/
def passes (cfg : Config) (a : Act) (s : State) : List (Bytes × Bytes) :=
  match a, s.producer with
  | .readdir, .scan (name::rest) =>
    match afterReaddir cfg name rest with
    | .produce sourceFile destinationFile _ => [(sourceFile, destinationFile)]
    | _ => []
  | _, _ => []

def named (entries : List Bytes) : List Bytes := entries.filter (fun e => !isDot e)

/-- The source and the destination path of an entry. -/
def entryPaths (cfg : Config) (name : Bytes) : Bytes × Bytes :=
  (joinPath cfg.sourceDir name, joinPath cfg.destinationDir name)

/-- What the two buffers hold of them. -/
def bufferPaths (cfg : Config) (name : Bytes) : Bytes × Bytes :=
  (filePath cfg.sourceDir name, filePath cfg.destinationDir name)

/-- The calls that are still to come. -/
def owed (cfg : Config) (s : State) : List (Bytes × Bytes) :=
  (match s.producer with
    | .start => named cfg.entries
    | .scan rest => named rest
    | .produce _ _ rest => named rest
    | .asleep _ _ rest => named rest
    | .finish => []
    | .returned => []).map (bufferPaths cfg)

/-- `%s/%s` and its NUL in `char source_file[512]` -/
def Fits (dir name : Bytes) : Prop := dir.length+1+name.length < 512

instance Fits.decidable (dir name : Bytes) : Decidable (Fits dir name) :=
  inferInstanceAs (Decidable (_ < _))

theorem filePath_eq_iff (dir name : Bytes) :
    filePath dir name = joinPath dir name ↔ Fits dir name := by
  have hlen : (joinPath dir name).length = dir.length+1+name.length := by
    simp only [joinPath, List.length_append]
    rfl
  constructor
  · intro h
    have hcut := congrArg List.length h
    rw [filePath, snprintf, List.length_take, hlen] at hcut
    unfold Fits
    omega
  · intro h
    exact List.take_of_length_le (by rw [hlen]; unfold Fits at h; omega)

theorem bufferPaths_eq_iff (cfg : Config) (name : Bytes) :
    bufferPaths cfg name = entryPaths cfg name ↔
      Fits cfg.sourceDir name ∧ Fits cfg.destinationDir name := by
  rw [bufferPaths, entryPaths, Prod.mk.injEq, filePath_eq_iff, filePath_eq_iff]

theorem joinPath_injective (dir : Bytes) : Function.Injective (joinPath dir) :=
  fun _ _ h => List.append_cancel_left h

theorem passes_owed (cfg : Config) (a : Act) (s t : State) (ha : a ≠ .opendir false)
    (h : Move cfg s a t) : passes cfg a s ++ owed cfg t = owed cfg s := by
  cases h with
  | opendir ok hp =>
    cases ok with
    | false => exact absurd rfl ha
    | true => simp [passes, owed, hp]
  | closedir hp => simp [passes, owed, hp, named]
  | readdir name rest hp =>
    cases hdot : isDot name <;> simp [passes, owed, hp, named, afterReaddir, hdot, bufferPaths]
  | take i hi hpos =>
    have hsame : owed cfg { s with producer := signalNotFull s.producer } = owed cfg s := by
      unfold owed
      cases s.producer <;> rfl
    exact hsame
  | finish hp => simp [passes, owed, hp]
  | sleepFull src dst rest x y wake hp => simp [passes, owed, hp]
  | openFails src dst rest x y wake hp => simp [passes, owed, hp]
  | store src dst rest x y wake cs hp => simp [passes, owed, hp]
  | spuriousNotFull src dst rest hp => simp [passes, owed, hp]
  | sleepEmpty => rfl
  | leave => rfl
  | check => rfl
  | spuriousNotEmpty => rfl

theorem passed_owed (cfg : Config) (as : List Act) (hopen : .opendir false ∉ as) (t : State)
    (h : run (step cfg) as (init cfg) = some t) :
    outputs (step cfg) (passes cfg) as (init cfg) ++ owed cfg t =
      (named cfg.entries).map (bufferPaths cfg) := by
  refine outputs_owed (step cfg) (passes cfg) (fun a _ => a ≠ .opendir false) (owed cfg)
    (fun a s u ha hu => passes_owed cfg a s u ha (step_move cfg a s u hu)) as (init cfg) t ?_ h
  exact meets_of_notMem (step cfg) (.opendir false) as hopen (init cfg)

/-- When the producer is through, its calls were given the two paths of every
entry if and only if all of them fit their buffers; then no two calls share a
source or a destination. -/
theorem entry_paths_iff (cfg : Config) (hdistinct : cfg.entries.Nodup) (as : List Act)
    (hopen : .opendir false ∉ as) (t : State) (h : run (step cfg) as (init cfg) = some t)
    (hend : t.producer = .finish ∨ t.producer = .returned) :
    (outputs (step cfg) (passes cfg) as (init cfg) =
        (named cfg.entries).map (entryPaths cfg) ∧
      ((outputs (step cfg) (passes cfg) as (init cfg)).map Prod.fst).Nodup ∧
      ((outputs (step cfg) (passes cfg) as (init cfg)).map Prod.snd).Nodup) ↔
    ∀ name ∈ named cfg.entries, Fits cfg.sourceDir name ∧ Fits cfg.destinationDir name := by
  have hpassed := passed_owed cfg as hopen t h
  have hdone : owed cfg t = [] := by
    unfold owed
    rcases hend with hp | hp <;> rw [hp] <;> rfl
  rw [hdone, List.append_nil] at hpassed
  have hiff : outputs (step cfg) (passes cfg) as (init cfg) =
      (named cfg.entries).map (entryPaths cfg) ↔
      ∀ name ∈ named cfg.entries, Fits cfg.sourceDir name ∧ Fits cfg.destinationDir name := by
    rw [hpassed, List.map_inj_left]
    exact forall₂_congr (fun name _ => bufferPaths_eq_iff cfg name)
  rw [← hiff, and_iff_left_iff_imp]
  intro heq
  have hnamed : (named cfg.entries).Nodup := hdistinct.filter _
  rw [heq, List.map_map, List.map_map]
  exact ⟨List.Nodup.map (joinPath_injective cfg.sourceDir) hnamed,
    List.Nodup.map (joinPath_injective cfg.destinationDir) hnamed⟩

theorem entry_paths_iff_one_entry :
    ∃ t, run (step oneEntry) oneEntryRun (init oneEntry) = some t ∧
      outputs (step oneEntry) (passes oneEntry) oneEntryRun (init oneEntry) =
        [(ascii "src/a", ascii "dst/a")] :=
  ⟨_, rfl, ((entry_paths_iff oneEntry (by decide) oneEntryRun (by decide) _ rfl
    (.inr rfl)).mpr (by decide)).1⟩

/-- Two entries of a source directory whose name fills the buffer. -/
def longDir : Config := ⟨List.replicate 510 97, ascii "dst", [ascii "a", ascii "b"], 1⟩

def longDirRun : List Act :=
  [.opendir true, .readdir, .produce 3 4 none, .readdir, .produce 5 6 none, .readdir, .finish]

/-- Both are opened as the directory itself. -/
theorem long_dir_collides :
    ∃ t, run (step longDir) longDirRun (init longDir) = some t ∧ t.producer = .returned ∧
      longDir.entries.Nodup ∧
      (outputs (step longDir) (passes longDir) longDirRun (init longDir)).map Prod.fst =
        [List.replicate 510 97 ++ ascii "/", List.replicate 510 97 ++ ascii "/"] :=
  ⟨_, rfl, rfl, by decide, by decide +kernel⟩

end CSE344.PcpPaths
