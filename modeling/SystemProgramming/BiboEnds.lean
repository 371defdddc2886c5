import Mathlib.Algebra.Order.BigOperators.Group.Finset
import Mathlib.Data.Prod.Lex
import SystemProgramming.BiboIsolation
import SystemProgramming.RankedRun

/-!
# The HW4 handlers come to an end

Readers take no lock, so that a file may grow under them, and writers queue at
one mutex. Still no schedule keeps the handlers at work for ever: what a writer
puts into a file it has read before. Nor do they block one another: where
nothing can move, every command is carried out, or a thread has come to a call
whose behaviour is undefined.
-/

set_option autoImplicit false

namespace CSE344.BiboEnds
open CString Stdio BiboServer BiboThreads BiboAlone BiboInvariant BiboIsolation
open TransitionRun RankedRun

/-- How many kinds of calls a command has still before it. -/
def stage : Pc → ℕ
  | .idle => 0
  | .readOpen _ _ => 3
  | .reading _ _ _ _ => 2
  | .readClose _ _ _ => 1
  | .lock _ => 15
  | .opening _ => 14
  | .creating _ => 8
  | .firstClose _ => 13
  | .reopening _ => 12
  | .seeking _ => 11
  | .appending _ _ => 7
  | .scanning _ _ _ => 11
  | .scanClose _ _ => 10
  | .truncating _ _ => 9
  | .flushing _ _ _ => 6
  | .writeClose _ => 5
  | .unlock _ => 4
  | .uploadOpen _ => 2
  | .uploadClose _ => 1

/-- What is still to be written of a text. -/
def unwritten : Pc → ℕ
  | .flushing _ _ out => out.length
  | _ => 0

/-- What is still to be read of a file, as it is now. -/
def unread {Loc : Type*} (disk : Disk Loc) (f : Files Loc) : Pc → ℕ
  | .reading path _ pos _ => ((f (disk.denotes path)).getD []).length-pos
  | .scanning w pos _ => ((f (disk.denotes w.path)).getD []).length-pos
  | _ => 0

section Calls

theorem stage_begin (c : Command) : stage c.begin ≤ 15 := by
  cases c <;> simp [Command.begin, stage]

theorem stage_toFlush (w : Write) (pos : ℕ) (out : Bytes) : stage (toFlush w pos out) ≤ 6 := by
  unfold toFlush
  split_ifs <;> simp [stage]

variable {Loc : Type*} {disk : Disk Loc} {k : ℕ} {f : Files Loc} {pc : Pc} {r : Files Loc × Pc}

/-- A call is the last of its kind, or one of the pieces of a text, or one of the
lines of a file that it leaves alone. -/
inductive Falls (disk : Disk Loc) (f : Files Loc) (pc : Pc) (r : Files Loc × Pc) : Prop
  | stage (h : stage r.2 < stage pc)
  | piece (hstage : stage r.2 = stage pc) (h : unwritten r.2 < unwritten pc)
  | line (hstage : stage r.2 = stage pc) (hunwritten : unwritten r.2 = unwritten pc)
      (hfiles : r.1 = f) (h : unread disk f r.2 < unread disk f pc)

theorem line_taken {content l rest : Bytes} {pos : ℕ}
    (h : fgets lineSize (content.drop pos) = some (l, rest)) :
    content.length-(pos+l.length) < content.length-pos := by
  have hsplit := congrArg List.length (fgets_append h)
  have hline := List.length_pos_iff.mpr (fgets_length (by decide) h)
  rw [List.length_append, List.length_drop] at hsplit
  omega

variable [DecidableEq Loc]

theorem falls_flush {w : Write} {pos : ℕ} {out : Bytes} (h : flush disk k f w pos out = some r)
    (hpc : pc = .appending w pos ∨ pc = .flushing w pos out) : Falls disk f pc r := by
  obtain ⟨⟨hk, hle⟩, rfl⟩ := guarded_iff.mp h
  rcases hpc with rfl | rfl
  · exact .stage (lt_of_le_of_lt (stage_toFlush _ _ _) (by simp [stage]))
  · unfold toFlush
    split_ifs with hend
    · exact .stage (by simp [stage])
    · refine .piece rfl ?_
      simp only [unwritten, List.length_drop]
      omega

theorem falls_create {w : Write} {out : Bytes} (h : create disk f w out = some r)
    (hpc : 6 < stage pc) : Falls disk f pc r := by
  obtain ⟨-, rfl⟩ := guarded_iff.mp h
  exact .stage (lt_of_le_of_lt (stage_toFlush _ _ _) hpc)

theorem call_falls (h : call disk k f pc = some r) : Falls disk f pc r := by
  cases pc <;> simp only [call] at h
  case readOpen path line => split at h <;> cases h <;> exact .stage (by simp [stage])
  case reading path line pos lines =>
    obtain ⟨content, hc, rfl⟩ := Option.map_eq_some_iff.mp h
    unfold readLine
    split
    · exact .stage (by simp [stage])
    · next l rest hl =>
      split_ifs
      · exact .stage (by simp [stage])
      · refine .line rfl rfl rfl ?_
        simpa [unread, hc] using line_taken hl
  case opening w => split at h <;> cases h <;> exact .stage (by simp [stage])
  case creating w => exact falls_create h (by simp [stage])
  case reopening w => split_ifs at h <;> cases h <;> exact .stage (by simp [stage])
  case seeking w =>
    obtain ⟨content, -, rfl⟩ := Option.map_eq_some_iff.mp h
    refine .stage ?_
    dsimp only
    split_ifs <;> simp [stage]
  case appending w pos => exact falls_flush h (.inl rfl)
  case scanning w pos lines =>
    obtain ⟨content, hc, h⟩ := Option.bind_eq_some_iff.mp h
    obtain ⟨pc, hscan, rfl⟩ := Option.map_eq_some_iff.mp h
    unfold scanLine at hscan
    split at hscan
    · obtain ⟨r, -, rfl⟩ := Option.map_eq_some_iff.mp hscan
      cases r <;> exact .stage (by simp [stage])
    · next l rest hl =>
      obtain ⟨-, rfl⟩ := guarded_iff.mp hscan
      refine .line rfl rfl rfl ?_
      simpa [unread, hc] using line_taken hl
  case truncating w out => exact falls_create h (by simp [stage])
  case flushing w pos out => exact falls_flush h (.inr rfl)
  case uploadOpen path => split_ifs at h <;> cases h <;> exact .stage (by simp [stage])
  all_goals cases h <;> exact .stage (by simp [stage])

end Calls

section Rank

variable {Loc : Type*} {disk : Disk Loc} {n : ℕ}

/-- The calls before a thread, those of the commands to come included. -/
def ahead (th : Thread) : ℕ := stage th.pc+16*th.todo.length

/-- The calls still to be made, the bytes still to be written, and those still to
be read, each of no account before the next. -/
def rank (disk : Disk Loc) (s : State Loc n) : ℕ ×ₗ ℕ ×ₗ ℕ :=
  toLex (∑ i, ahead (s.threads i),
    toLex (∑ i, unwritten (s.threads i).pc, ∑ i, unread disk s.files (s.threads i).pc))

theorem sum_falls {f g : Fin n → ℕ} (i : Fin n) (hi : g i < f i) (hother : ∀ j, j ≠ i → g j = f j) :
    ∑ j, g j < ∑ j, f j := by
  refine Finset.sum_lt_sum (fun j _ => ?_) ⟨i, Finset.mem_univ i, hi⟩
  by_cases hj : j = i
  · exact hj ▸ hi.le
  · exact (hother j hj).le

theorem sum_stays {f g : Fin n → ℕ} (i : Fin n) (hi : g i = f i) (hother : ∀ j, j ≠ i → g j = f j) :
    ∑ j, g j = ∑ j, f j := by
  refine Finset.sum_congr rfl (fun j _ => ?_)
  by_cases hj : j = i
  · exact hj ▸ hi
  · exact hother j hj

theorem rank_stage {s t : State Loc n} (i : Fin n)
    (hi : ahead (t.threads i) < ahead (s.threads i))
    (hother : ∀ j, j ≠ i → t.threads j = s.threads j) : rank disk t < rank disk s := by
  refine Prod.Lex.toLex_lt_toLex.mpr (.inl (sum_falls i hi (fun j hj => ?_)))
  rw [hother j hj]

theorem rank_step [DecidableEq Loc] {a : Act n} {s t : State Loc n} (h : step disk a s = some t) :
    rank disk t < rank disk s := by
  have hm := step_move h
  have hother := fun j (hj : j ≠ a.thread) => move_other hm hj
  cases hm with
  | begin c cs hpc htodo =>
    refine rank_stage a.thread ?_ hother
    have hbegin := stage_begin c
    rw [setThread_self, ahead, ahead, hpc, htodo, List.length_cons]
    dsimp only
    omega
  | lock w hpc hfree =>
    refine rank_stage a.thread ?_ hother
    simp [ahead, State.setPc, hpc, stage]
  | unlock w hpc =>
    refine rank_stage a.thread ?_ hother
    simp [ahead, State.finish, Thread.finish, hpc, stage]
  | readClose path line reply hpc =>
    refine rank_stage a.thread ?_ hother
    simp [ahead, State.finish, Thread.finish, hpc, stage]
  | uploadClose path hpc =>
    refine rank_stage a.thread ?_ hother
    simp [ahead, State.finish, Thread.finish, hpc, stage]
  | call c r hc hr =>
    have hself : ({ s with files := r.1 }.setPc a.thread r.2).threads a.thread =
        { s.threads a.thread with pc := r.2 } := setThread_self _ _ _
    cases call_falls hr with
    | stage h =>
      refine rank_stage a.thread ?_ hother
      rw [hself, ahead, ahead]
      dsimp only
      omega
    | piece hstage h =>
      refine Prod.Lex.toLex_lt_toLex.mpr (.inr ⟨sum_stays a.thread ?_ ?_,
        Prod.Lex.toLex_lt_toLex.mpr (.inl (sum_falls a.thread ?_ ?_))⟩)
      · rw [hself, ahead, ahead, hstage]
      · exact fun j hj => by rw [hother j hj]
      · rw [hself]
        exact h
      · exact fun j hj => by rw [hother j hj]
    | line hstage hunwritten hfiles h =>
      refine Prod.Lex.toLex_lt_toLex.mpr (.inr ⟨sum_stays a.thread ?_ ?_,
        Prod.Lex.toLex_lt_toLex.mpr (.inr ⟨sum_stays a.thread ?_ ?_, sum_falls a.thread ?_ ?_⟩)⟩)
      · rw [hself, ahead, ahead, hstage]
      · exact fun j hj => by rw [hother j hj]
      · rw [hself]
        exact hunwritten
      · exact fun j hj => by rw [hother j hj]
      · rw [hself]
        show unread disk r.1 r.2 < _
        rw [hfiles]
        exact h
      · intro j hj
        rw [hother j hj]
        show unread disk r.1 _ = _
        rw [hfiles]

end Rank

section Waiting

variable {Loc : Type*} {disk : Disk Loc} {n k : ℕ} {f : Files Loc} {pc : Pc}
variable {r : Files Loc × Pc}

/-- What a call relies on: a file that was opened is there, since no command
removes one, and what is to be written is not empty. -/
def Ready (disk : Disk Loc) (f : Files Loc) : Pc → Prop
  | .reading path _ _ _ => f (disk.denotes path) ≠ none
  | .firstClose w => f (disk.denotes w.path) ≠ none
  | .reopening w => f (disk.denotes w.path) ≠ none
  | .seeking w => f (disk.denotes w.path) ≠ none
  | .scanning w _ _ => f (disk.denotes w.path) ≠ none
  | .appending w _ => w.text ≠ []
  | .flushing _ _ out => out ≠ []
  | _ => True

/-- The array of lines is full, or the line is not in it or the text too long, or
a file is not open that is written to. -/
def Undefined (disk : Disk Loc) (f : Files Loc) : Pc → Prop
  | .creating w => disk.writable (disk.denotes w.path) = false
  | .reopening w => disk.writable (disk.denotes w.path) = false
  | .scanning w pos lines => ∀ content, f (disk.denotes w.path) = some content →
      scanLine w pos lines content = none
  | .truncating w _ => disk.writable (disk.denotes w.path) = false
  | _ => False

theorem ready_mono {g : Files Loc} (hmono : ∀ p, f p ≠ none → g p ≠ none) (h : Ready disk f pc) :
    Ready disk g pc := by
  cases pc <;> first | exact hmono _ h | exact h

theorem ready_toFlush (w : Write) (pos : ℕ) (out : Bytes) : Ready disk f (toFlush w pos out) := by
  unfold toFlush
  split_ifs with hend
  · trivial
  · exact hend

/-- Who has the mutex is where the mutex is held, and every call finds what it
relies on. -/
structure Steady (disk : Disk Loc) (s : State Loc n) : Prop where
  owner : ∀ j, s.mutex = some j ↔ Holds (s.threads j).pc
  ready : ∀ j, Ready disk s.files (s.threads j).pc

theorem steady_start (programs : Fin n → List Command) (files : Files Loc) :
    Steady disk (start programs files) :=
  ⟨fun j => by simp [start, Holds], fun _ => trivial⟩

/-- A step is its thread's own affair: to the others no file gets lost, and the
mutex is taken from nobody and given to nobody else. -/
theorem Steady.moved {s t : State Loc n} (hs : Steady disk s) (i : Fin n)
    (hother : ∀ j, j ≠ i → t.threads j = s.threads j)
    (hfiles : ∀ l, s.files l ≠ none → t.files l ≠ none)
    (hmutex : ∀ j, j ≠ i → (t.mutex = some j ↔ s.mutex = some j))
    (howner : t.mutex = some i ↔ Holds (t.threads i).pc)
    (hready : Ready disk t.files (t.threads i).pc) :
    Steady disk t := by
  refine ⟨fun j => ?_, fun j => ?_⟩ <;> by_cases hj : j = i
  · exact hj ▸ howner
  · rw [hmutex j hj, hother j hj]
    exact hs.owner j
  · exact hj ▸ hready
  · rw [hother j hj]
    exact ready_mono hfiles (hs.ready j)

theorem Steady.kept {s t : State Loc n} (hs : Steady disk s) (i : Fin n)
    (hother : ∀ j, j ≠ i → t.threads j = s.threads j)
    (hfiles : ∀ l, s.files l ≠ none → t.files l ≠ none) (hmutex : t.mutex = s.mutex)
    (hholds : Holds (t.threads i).pc ↔ Holds (s.threads i).pc)
    (hready : Ready disk t.files (t.threads i).pc) : Steady disk t :=
  hs.moved i hother hfiles (fun j _ => by rw [hmutex])
    (by rw [hmutex, hholds]; exact hs.owner i) hready

variable [DecidableEq Loc]

theorem call_writes (h : call disk k f pc = some r) :
    r.1 = f ∨ ∃ l content, r.1 = Function.update f l (some content) := by
  cases pc <;> simp only [call] at h
  case readOpen path line => split at h <;> cases h <;> exact .inl rfl
  case reading path line pos lines =>
    obtain ⟨content, -, rfl⟩ := Option.map_eq_some_iff.mp h
    exact .inl rfl
  case opening w => split at h <;> cases h <;> exact .inl rfl
  case creating w => exact .inr ⟨_, (create_stores h).file⟩
  case reopening w => split_ifs at h <;> cases h <;> exact .inl rfl
  case seeking w =>
    obtain ⟨content, -, rfl⟩ := Option.map_eq_some_iff.mp h
    exact .inl rfl
  case appending w pos => exact .inr ⟨_, (flush_stores h).file⟩
  case scanning w pos lines =>
    obtain ⟨content, -, h⟩ := Option.bind_eq_some_iff.mp h
    obtain ⟨pc, -, rfl⟩ := Option.map_eq_some_iff.mp h
    exact .inl rfl
  case truncating w out => exact .inr ⟨_, (create_stores h).file⟩
  case flushing w pos out => exact .inr ⟨_, (flush_stores h).file⟩
  case uploadOpen path =>
    split_ifs at h <;> cases h
    · exact .inr ⟨_, _, rfl⟩
    · exact .inl rfl
  all_goals cases h <;> exact .inl rfl

theorem call_present (h : call disk k f pc = some r) (l : Loc) (hl : f l ≠ none) :
    r.1 l ≠ none := by
  rcases call_writes h with hsame | ⟨l', content, hsame⟩ <;> rw [hsame]
  · exact hl
  · by_cases heq : l = l'
    · subst heq
      simp
    · rwa [Function.update_of_ne heq]

theorem ready_stores {w : Write} (h : Stores disk f w r) : Ready disk r.1 r.2 := by
  obtain ⟨pos, out, hnext⟩ := h.next
  rw [hnext]
  exact ready_toFlush _ _ _

theorem ready_call (hready : Ready disk f pc) (h : call disk k f pc = some r) :
    Ready disk r.1 r.2 := by
  cases pc <;> simp only [call] at h
  case readOpen path line =>
    cases hf : f (disk.denotes path) <;> rw [hf] at h <;> cases h
    · trivial
    · simp [Ready, hf]
  case reading path line pos lines =>
    obtain ⟨content, hc, rfl⟩ := Option.map_eq_some_iff.mp h
    unfold readLine
    split
    · trivial
    · split_ifs
      · trivial
      · exact hready
  case opening w =>
    cases hf : f (disk.denotes w.path) <;> rw [hf] at h <;> cases h
    · trivial
    · simp [Ready, hf]
  case creating w => exact ready_stores (create_stores h)
  case firstClose w => cases h; exact hready
  case reopening w => split_ifs at h <;> cases h <;> exact hready
  case seeking w =>
    obtain ⟨content, -, rfl⟩ := Option.map_eq_some_iff.mp h
    dsimp only
    split_ifs with htext
    · trivial
    · exact htext
  case appending w pos => exact ready_stores (flush_stores h)
  case scanning w pos lines =>
    obtain ⟨content, -, h⟩ := Option.bind_eq_some_iff.mp h
    obtain ⟨pc, hscan, rfl⟩ := Option.map_eq_some_iff.mp h
    unfold scanLine at hscan
    split at hscan
    · obtain ⟨r, -, rfl⟩ := Option.map_eq_some_iff.mp hscan
      cases r <;> trivial
    · obtain ⟨-, rfl⟩ := guarded_iff.mp hscan
      exact hready
  case truncating w out => exact ready_stores (create_stores h)
  case flushing w pos out => exact ready_stores (flush_stores h)
  case uploadOpen path => split_ifs at h <;> cases h <;> trivial
  all_goals cases h <;> trivial

theorem holds_call_iff (h : call disk k f pc = some r) : Holds r.2 ↔ Holds pc := by
  refine ⟨fun hr => ?_, fun hpc => holds_call hpc h⟩
  cases pc <;> simp only [call] at h
  case readOpen path line => split at h <;> cases h <;> exact hr
  case reading path line pos lines =>
    obtain ⟨content, -, rfl⟩ := Option.map_eq_some_iff.mp h
    unfold readLine at hr
    split at hr
    · exact hr
    · split_ifs at hr <;> exact hr
  case uploadOpen path => split_ifs at h <;> cases h <;> exact hr
  all_goals trivial

theorem steady_move {a : Act n} {s t : State Loc n} (hs : Steady disk s) (hm : Move disk a s t) :
    Steady disk t := by
  have hother := fun j (hj : j ≠ a.thread) => move_other hm hj
  cases hm with
  | begin c cs hpc htodo =>
    refine hs.kept a.thread hother (fun _ => id) rfl ?_ ?_ <;> rw [setThread_self]
    · cases c <;> simp [Command.begin, Holds, hpc]
    · cases c <;> trivial
  | lock w hpc hfree =>
    refine hs.moved a.thread hother (fun _ => id) (fun j hj => ?_) ?_ ?_
    · simp [State.setPc, State.setThread, hfree, Ne.symm hj]
    · simp [State.setPc, State.setThread, Holds]
    · simp [State.setPc, Ready]
  | unlock w hpc =>
    have hmine : s.mutex = some a.thread := (hs.owner _).mpr (by rw [hpc]; trivial)
    refine hs.moved a.thread hother (fun _ => id) (fun j hj => ?_) ?_ ?_
    · simp [State.finish, State.setThread, hmine, Ne.symm hj]
    · simp [State.finish, State.setThread, Thread.finish, Holds]
    · simp [State.finish, Thread.finish, Ready]
  | readClose path line reply hpc =>
    refine hs.kept a.thread hother (fun _ => id) rfl ?_ ?_ <;> rw [State.finish, setThread_self]
    · simp [Thread.finish, Holds, hpc]
    · trivial
  | uploadClose path hpc =>
    refine hs.kept a.thread hother (fun _ => id) rfl ?_ ?_ <;> rw [State.finish, setThread_self]
    · simp [Thread.finish, Holds, hpc]
    · trivial
  | call c r hc hr =>
    refine hs.kept a.thread hother (call_present hr) rfl ?_ ?_ <;> rw [State.setPc, setThread_self]
    · exact holds_call_iff hr
    · exact ready_call (hs.ready _) hr

theorem steady_run {programs : Fin n → List Command} {files : Files Loc} {as : List (Act n)}
    {s : State Loc n} (h : run (step disk) as (start programs files) = some s) : Steady disk s :=
  run_invariant (step disk) (Steady disk) (fun _ _ _ hs ht => steady_move hs (step_move ht)) as _ _
    (steady_start programs files) h

end Waiting

section Ends

variable {Loc : Type*} [DecidableEq Loc] {disk : Disk Loc} {n : ℕ}

theorem flush_one {f : Files Loc} {w : Write} {pos : ℕ} {out : Bytes} (h : out ≠ []) :
    flush disk 1 f w pos out ≠ none := by
  simpa [flush] using h

theorem create_none {f : Files Loc} {w : Write} {out : Bytes} (h : create disk f w out = none) :
    disk.writable (disk.denotes w.path) = false := by
  simpa [create] using h

/-- Where a thread comes to a halt: at its end, at the mutex, or at a call whose
behaviour is undefined. -/
theorem thread_halts {s : State Loc n} (hs : Steady disk s) (i : Fin n)
    (h : step disk ⟨i, 1⟩ s = none) :
    ((s.threads i).pc = .idle ∧ (s.threads i).todo = []) ∨
      (∃ w j, (s.threads i).pc = .lock w ∧ s.mutex = some j) ∨
      Undefined disk s.files (s.threads i).pc := by
  have hready := hs.ready i
  unfold step at h
  cases hpc : (s.threads i).pc <;> rw [hpc] at h hready <;>
    simp only [Option.map_eq_none_iff, call, reduceCtorEq] at h
  case idle =>
    refine .inl ⟨rfl, ?_⟩
    split at h
    · assumption
    · cases h
  case lock w =>
    obtain ⟨j, hj⟩ := Option.ne_none_iff_exists'.mp (by simpa using h)
    exact .inr (.inl ⟨w, j, rfl, hj⟩)
  case readOpen path line => split at h <;> cases h
  case opening w => split at h <;> cases h
  case creating w => exact .inr (.inr (create_none h))
  case reopening w => exact .inr (.inr (by simpa [Undefined] using h))
  case truncating w out => exact .inr (.inr (create_none h))
  case uploadOpen path => split_ifs at h
  case reading path line pos lines => exact absurd h hready
  case seeking w => exact absurd h hready
  case appending w pos => exact absurd h (flush_one hready)
  case flushing w pos out => exact absurd h (flush_one hready)
  case scanning w pos lines =>
    refine .inr (.inr (fun content hc => ?_))
    simpa [hc] using h

/-- How it can be with a thread when nothing moves any more. -/
inductive Halted (disk : Disk Loc) (s : State Loc n) (program : List Command) (i : Fin n) : Prop
  | carriedOut (hpc : (s.threads i).pc = .idle)
      (hdone : (s.threads i).done.map Event.command = program)
  | undefined (h : Undefined disk s.files (s.threads i).pc)
  | behind (w : Write) (j : Fin n) (hpc : (s.threads i).pc = .lock w) (hheld : s.mutex = some j)
      (h : Undefined disk s.files (s.threads j).pc)

/-- The mutex is never what the threads halt at: who has it has come to a call
whose behaviour is undefined. -/
theorem holder_undefined {s : State Loc n} (hs : Steady disk s) {j : Fin n}
    (hheld : s.mutex = some j)
    (h : step disk ⟨j, 1⟩ s = none) : Undefined disk s.files (s.threads j).pc := by
  have hholds := (hs.owner j).mp hheld
  rcases thread_halts hs j h with ⟨hpc, -⟩ | ⟨w, k, hpc, -⟩ | hundefined
  · rw [hpc] at hholds
    exact hholds.elim
  · rw [hpc] at hholds
    exact hholds.elim
  · exact hundefined

theorem undefined_halts {s : State Loc n} {a : Act n}
    (h : Undefined disk s.files (s.threads a.thread).pc) : step disk a s = none := by
  unfold step
  cases hpc : (s.threads a.thread).pc <;> rw [hpc] at h
  case scanning w pos lines =>
    simp only [call, Option.map_eq_none_iff]
    cases hc : s.files (disk.denotes w.path) with
    | none => rfl
    | some content => simpa [hc] using h content hc
  case creating w => simpa [call, create, Undefined] using h
  case reopening w => simpa [call, Undefined] using h
  case truncating w out => simpa [call, create, Undefined] using h
  all_goals exact h.elim

theorem halted_iff {programs : Fin n → List Command} {s : State Loc n} (hs : Steady disk s)
    (hfollows : ∀ i, Follows (programs i) (s.threads i)) :
    (∀ a, step disk a s = none) ↔ ∀ i, Halted disk s (programs i) i := by
  constructor
  · intro h i
    rcases thread_halts hs i (h _) with ⟨hpc, htodo⟩ | ⟨w, j, hpc, hj⟩ | hundefined
    · refine .carriedOut hpc ?_
      simpa [Follows, hpc, htodo, current] using hfollows i
    · exact .behind w j hpc hj (holder_undefined hs hj (h _))
    · exact .undefined hundefined
  · intro h a
    cases h a.thread with
    | carriedOut hpc hdone =>
      have htodo := hfollows a.thread
      rw [Follows, hpc, hdone, List.append_assoc, List.append_right_eq_self] at htodo
      have hnil : (s.threads a.thread).todo = [] := (List.append_eq_nil_iff.mp htodo).2
      simp [step, hpc, hnil]
    | undefined hundefined => exact undefined_halts hundefined
    | behind w j hpc hheld _ => simp [step, hpc, hheld]

/-- No schedule keeps the handlers at work for ever, and where none of them can
move every command has been carried out, but for the threads that have come to a
call whose behaviour is undefined and those that wait for the mutex behind one. -/
theorem commands_end (disk : Disk Loc) (programs : Fin n → List Command) (files : Files Loc)
    (as : List (Act n)) (s : State Loc n) (h : run (step disk) as (start programs files) = some s) :
    ¬ Endless (step disk) s ∧
      ((∀ a, step disk a s = none) ↔ ∀ i, Halted disk s (programs i) i) := by
  refine ⟨not_endless (step disk) (· < ·) (rank disk) (fun _ _ _ => rank_step) s, ?_⟩
  refine halted_iff (steady_run h) ?_
  exact run_invariant (step disk) (fun s => ∀ i, Follows (programs i) (s.threads i))
    (fun _ _ _ hs ht => follows_step hs (step_move ht)) as (start programs files) s
    (fun _ => rfl) h

theorem commands_end_overlapping : ∃ s, run (step BiboSerial.directory) BiboSerial.overlapping
      (start BiboSerial.writeAndRead BiboSerial.oneLine) = some s ∧
    (∀ a, step BiboSerial.directory a s = none) ∧
      ∀ i, Halted BiboSerial.directory s (BiboSerial.writeAndRead i) i := by
  have hends : (run (step BiboSerial.directory) BiboSerial.overlapping
      (start BiboSerial.writeAndRead BiboSerial.oneLine)).any (fun s => ∀ i,
        (s.threads i).pc = .idle ∧
          (s.threads i).done.map Event.command = BiboSerial.writeAndRead i) = true := by
    decide
  obtain ⟨s, hs, hat⟩ := (Option.any_eq_true _ _).mp hends
  have hhalted (i : Fin 2) : Halted BiboSerial.directory s (BiboSerial.writeAndRead i) i :=
    .carriedOut (of_decide_eq_true hat i).1 (of_decide_eq_true hat i).2
  exact ⟨s, hs, (commands_end _ _ _ _ s hs).2.mpr hhalted, hhalted⟩

end Ends

end CSE344.BiboEnds
