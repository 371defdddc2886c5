import SystemProgramming.BiboAlone
import SystemProgramming.SerialOrder

/-!
# Threads that keep out of each other's way

The invariant relates the files to a serial state: all that has been settled
is explained by a serial order, the files agree with its state but for those
that a `writeT` has cut short, and each thread knows what it has read. One
lemma for each kind of step says that it keeps the invariant.
-/

set_option autoImplicit false

namespace CSE344.BiboInvariant
open CString Stdio BiboServer BiboThreads BiboAlone SerialOrder TransitionRun

section Places

variable {Loc : Type*} (disk : Disk Loc) (l : Loc)

/-- A `writeT` has begun to write the file and has not written all of it. -/
def Cut : Pc → Prop
  | .flushing w _ _ => disk.denotes w.path = l
  | _ => False

/-- A `readF` has read a line of the file and goes on reading. -/
def MidRead : Pc → Prop
  | .reading q _ _ lines => disk.denotes q = l ∧ lines ≠ []
  | _ => False

/-- A `writeT` has found the file missing, read from it, sought its end or
begun to write it. -/
def Relies : Pc → Prop
  | .creating w => disk.denotes w.path = l
  | .appending w _ => disk.denotes w.path = l
  | .scanning w _ lines => disk.denotes w.path = l ∧ lines ≠ []
  | .scanClose w _ => disk.denotes w.path = l
  | .truncating w _ => disk.denotes w.path = l
  | .flushing w _ _ => disk.denotes w.path = l
  | _ => False

variable [DecidableEq Loc]

instance (pc : Pc) : Decidable (Cut disk l pc) := by
  cases pc <;> first | exact isFalse id | exact inferInstanceAs (Decidable (_ = _))

instance (pc : Pc) : Decidable (MidRead disk l pc) := by
  cases pc <;> first | exact isFalse id | exact inferInstanceAs (Decidable (_ ∧ _))

instance (pc : Pc) : Decidable (Relies disk l pc) := by
  cases pc <;> first
    | exact isFalse id
    | exact inferInstanceAs (Decidable (_ = _))
    | exact inferInstanceAs (Decidable (_ ∧ _))

end Places

def Holds : Pc → Prop
  | .opening _ => True
  | .creating _ => True
  | .firstClose _ => True
  | .reopening _ => True
  | .seeking _ => True
  | .appending _ _ => True
  | .scanning _ _ _ => True
  | .scanClose _ _ => True
  | .truncating _ _ => True
  | .flushing _ _ _ => True
  | .writeClose _ => True
  | .unlock _ => True
  | _ => False

variable {Loc : Type*} {n : ℕ}

/-- The step disturbs no other command: lines are read from no file that is
cut short, no file is changed under a `readF`, and none is truncated by an
`upload` under a `writeT`. A file is meant, whatever path leads to it. -/
def Undisturbed (disk : Disk Loc) (a : Act n) (s : State Loc n) : Prop :=
  match (s.threads a.thread).pc with
  | .reading p _ _ _ => ∀ j, ¬ Cut disk (disk.denotes p) (s.threads j).pc
  | .creating w => ∀ j, ¬ MidRead disk (disk.denotes w.path) (s.threads j).pc
  | .appending w _ => ∀ j, ¬ MidRead disk (disk.denotes w.path) (s.threads j).pc
  | .truncating w _ => ∀ j, ¬ MidRead disk (disk.denotes w.path) (s.threads j).pc
  | .flushing w _ _ => ∀ j, ¬ MidRead disk (disk.denotes w.path) (s.threads j).pc
  | .uploadOpen p => disk.writable (disk.denotes p) = true →
      ∀ j, ¬ MidRead disk (disk.denotes p) (s.threads j).pc ∧
        ¬ Relies disk (disk.denotes p) (s.threads j).pc
  | _ => True

instance [DecidableEq Loc] (disk : Disk Loc) (a : Act n) (s : State Loc n) :
    Decidable (Undisturbed disk a s) := by
  unfold Undisturbed
  split <;> infer_instance

/-- What a thread knows about the files and about the serial state. -/
def Ok (disk : Disk Loc) (f abs : Files Loc) : Pc → Prop
  | .reading p line pos lines =>
    (∃ c, f (disk.denotes p) = some c ∧ Scan lineSize c pos lines) ∧
      ¬ (1 ≤ line ∧ line ≤ lines.length)
  | .creating w => f (disk.denotes w.path) = none
  | .firstClose w => f (disk.denotes w.path) ≠ none
  | .reopening w => f (disk.denotes w.path) ≠ none
  | .seeking w => f (disk.denotes w.path) ≠ none ∧ w.line = 0 ∧
      disk.writable (disk.denotes w.path) = true
  | .appending w pos => (∃ c, f (disk.denotes w.path) = some c ∧ pos = c.length) ∧ w.line = 0 ∧
      disk.writable (disk.denotes w.path) = true
  | .scanning w pos lines => (∃ c, f (disk.denotes w.path) = some c ∧ Scan lineSize c pos lines) ∧
      w.line ≠ 0 ∧ disk.writable (disk.denotes w.path) = true
  | .scanClose w out => ∃ c, f (disk.denotes w.path) = some c ∧
      rewritten w.line (some w.text) c = some (some out)
  | .truncating w out => ∃ c, f (disk.denotes w.path) = some c ∧
      rewritten w.line (some w.text) c = some (some out)
  | .flushing w pos out => out ≠ [] ∧ ∃ d, f (disk.denotes w.path) = some d ∧ pos = d.length ∧
      resultAt disk (.writeT w) abs = some (some (d++out), none)
  | _ => True

/-- What a thread has done, recorded or not. -/
def log (s : State Loc n) (i : Fin n) : List Event :=
  (s.threads i).done ++ pending (s.threads i).pc

/-- The serial state of a run: it explains all replies, and agrees with the
files that no `writeT` has cut short. -/
structure Explained [DecidableEq Loc] (disk : Disk Loc) (f₀ : Files Loc) (s : State Loc n)
    (abs : Files Loc) : Prop where
  serial : Serialisable (exec disk) f₀ (log s) abs
  agree : ∀ l, (∀ j, ¬ Cut disk l (s.threads j).pc) → s.files l = abs l
  ok : ∀ j, Ok disk s.files abs (s.threads j).pc
  holds : ∀ j, Holds (s.threads j).pc → s.mutex = some j

variable {disk : Disk Loc}

theorem Cut.relies {l : Loc} {pc : Pc} (h : Cut disk l pc) : Relies disk l pc := by
  cases pc <;> first | exact h.elim | exact h

theorem Relies.holds {l : Loc} {pc : Pc} (h : Relies disk l pc) : Holds pc := by
  cases pc <;> trivial

@[simp] theorem setThread_files (s : State Loc n) (i : Fin n) (th : Thread) :
    (s.setThread i th).files = s.files := rfl

@[simp] theorem setThread_self (s : State Loc n) (i : Fin n) (th : Thread) :
    (s.setThread i th).threads i = th := by
  simp [State.setThread]

theorem setThread_other (s : State Loc n) {i j : Fin n} (th : Thread) (h : j ≠ i) :
    (s.setThread i th).threads j = s.threads j := by
  simp [State.setThread, h]

theorem each_thread (P : Fin n → Pc → Prop) (s : State Loc n) {i : Fin n} {th : Thread}
    (hi : P i th.pc) (hother : ∀ j, j ≠ i → P j (s.threads j).pc) (j : Fin n) :
    P j ((s.setThread i th).threads j).pc := by
  by_cases hj : j = i
  · subst hj
    rwa [setThread_self]
  · rw [setThread_other s th hj]
    exact hother j hj

theorem each_before (P : Pc → Prop) {s : State Loc n} {i : Fin n} {th : Thread}
    (hi : P (s.threads i).pc) (h : ∀ j, P ((s.setThread i th).threads j).pc) (j : Fin n) :
    P (s.threads j).pc := by
  by_cases hj : j = i
  · rwa [hj]
  · rw [← setThread_other s th hj]
    exact h j

theorem log_setThread (s : State Loc n) (i : Fin n) (th : Thread) :
    log (s.setThread i th) = Function.update (log s) i (th.done ++ pending th.pc) := by
  funext j
  by_cases h : j = i
  · subst h
    simp [log]
  · simp [log, setThread_other s th h, h]

theorem log_at {s : State Loc n} {i : Fin n} {old : Pc} (hpc : (s.threads i).pc = old) :
    log s i = (s.threads i).done ++ pending old := by
  rw [log, hpc]

/-- What is known about a file survives a change that leaves the file there,
unless a command is in the middle of it. -/
theorem Ok.change [DecidableEq Loc] {f g abs abs' : Files Loc} {l : Loc} {pc : Pc}
    (h : Ok disk f abs pc) (hf : ∀ k, k ≠ l → g k = f k) (ha : ∀ k, k ≠ l → abs' k = abs k)
    (hl : g l ≠ none) (hr : ¬ MidRead disk l pc) (hw : ¬ Relies disk l pc) :
    Ok disk g abs' pc := by
  have scan (k : Loc) (pos : ℕ) (lines : List Bytes) (hk : ¬ (k = l ∧ lines ≠ []))
      (hs : ∃ c, f k = some c ∧ Scan lineSize c pos lines) :
      ∃ c, g k = some c ∧ Scan lineSize c pos lines := by
    by_cases hkl : k = l
    · obtain ⟨c, hc⟩ := Option.ne_none_iff_exists'.mp hl
      have hnil : lines = [] := by
        by_contra hne
        exact hk ⟨hkl, hne⟩
      obtain ⟨-, -, rfl, -⟩ := hs
      subst hnil
      exact ⟨c, by rw [hkl, hc], Scan.start _ _⟩
    · rw [hf k hkl]
      exact hs
  have there (k : Loc) (hk : f k ≠ none) : g k ≠ none := by
    by_cases hkl : k = l
    · rwa [hkl]
    · rwa [hf k hkl]
  cases pc with
  | reading q line pos lines => exact ⟨scan _ pos lines hr h.1, h.2⟩
  | creating w =>
    rw [Ok, hf _ hw]
    exact h
  | firstClose w => exact there _ h
  | reopening w => exact there _ h
  | seeking w => exact ⟨there _ h.1, h.2⟩
  | appending w pos =>
    rw [Ok, hf _ hw]
    exact h
  | scanning w pos lines => exact ⟨scan _ pos lines hw h.1, h.2⟩
  | scanClose w out =>
    rw [Ok, hf _ hw]
    exact h
  | truncating w out =>
    rw [Ok, hf _ hw]
    exact h
  | flushing w pos out =>
    have hsame : resultAt disk (.writeT w) abs' = resultAt disk (.writeT w) abs :=
      congrArg (result _ _) (ha _ hw)
    rw [Ok, hf _ hw, hsame]
    exact h
  | _ => trivial

section Explained

variable [DecidableEq Loc] {f₀ abs : Files Loc} {s : State Loc n}

/-- While a thread holds the mutex no other `writeT` has cut a file short. -/
theorem Explained.whole (h : Explained disk f₀ s abs) {i : Fin n} {old : Pc}
    (hpc : (s.threads i).pc = old) (hi : Holds old) (hcut : ∀ l, ¬ Cut disk l old) (l : Loc) :
    s.files l = abs l := by
  refine h.agree l (fun j hj => ?_)
  have hmutex := h.holds j hj.relies.holds
  rw [h.holds i (by rwa [hpc])] at hmutex
  obtain rfl := Option.some.inj hmutex
  rw [hpc] at hj
  exact hcut l hj

theorem Explained.content (h : Explained disk f₀ s abs) {i : Fin n} {old : Pc}
    (hpc : (s.threads i).pc = old) (hi : Holds old) (hcut : ∀ l, ¬ Cut disk l old) {l : Loc}
    {c : Bytes} (hc : s.files l = some c) : abs l = some c :=
  (h.whole hpc hi hcut l).symm.trans hc

theorem Explained.missing (h : Explained disk f₀ s abs) {l : Loc} (hnone : s.files l = none) :
    abs l = none := by
  rw [← h.agree l, hnone]
  intro j hj
  have hok := h.ok j
  cases hpc : (s.threads j).pc <;> rw [hpc] at hj hok <;> try exact hj
  obtain ⟨-, d, hd, -⟩ := hok
  rw [show disk.denotes _ = l from hj, hnone] at hd
  cases hd

/-- A step of one thread that leaves the files alone; if it settles a command,
the command changes nothing. -/
theorem Explained.quiet (h : Explained disk f₀ s abs) (i : Fin n) (th : Thread)
    (m : Option (Fin n))
    (hlog : th.done ++ pending th.pc = log s i ∨
      ∃ e, th.done ++ pending th.pc = log s i ++ [e] ∧ exec disk e abs = some abs)
    (hok : Ok disk s.files abs th.pc) (hcut : ∀ l, ¬ Cut disk l (s.threads i).pc)
    (hm : Holds th.pc → m = some i)
    (hother : ∀ j, j ≠ i → Holds (s.threads j).pc → m = some j) :
    Explained disk f₀ { s.setThread i th with mutex := m } abs where
  serial := by
    have hl : log ({ s.setThread i th with mutex := m } : State Loc n) = log (s.setThread i th) :=
      rfl
    rw [hl, log_setThread]
    rcases hlog with hsame | ⟨e, hnew, he⟩
    · rw [hsame, Function.update_eq_self]
      exact h.serial
    · rw [hnew]
      exact h.serial.append i he
  agree l hl := h.agree l (each_before (¬ Cut disk l ·) (hcut l) hl)
  ok := each_thread (fun _ pc => Ok disk s.files abs pc) s hok (fun j _ => h.ok j)
  holds := each_thread (fun j pc => Holds pc → m = some j) s hm hother

theorem Explained.move (h : Explained disk f₀ s abs) (i : Fin n) {old pc : Pc}
    (hpc : (s.threads i).pc = old) (hpend : pending pc = pending old)
    (hok : Ok disk s.files abs pc) (hcut : ∀ l, ¬ Cut disk l old) (hh : Holds pc → Holds old) :
    Explained disk f₀ (s.setPc i pc) abs := by
  subst hpc
  exact h.quiet i _ s.mutex (.inl (by rw [log, ← hpend])) hok hcut
    (fun hp => h.holds i (hh hp)) (fun j _ => h.holds j)

theorem Explained.settle (h : Explained disk f₀ s abs) (i : Fin n) {old pc : Pc} (e : Event)
    (hpc : (s.threads i).pc = old) (hpend : pending old = []) (hnew : pending pc = [e])
    (he : exec disk e abs = some abs) (hok : Ok disk s.files abs pc)
    (hcut : ∀ l, ¬ Cut disk l old) (hh : Holds pc → Holds old) :
    Explained disk f₀ (s.setPc i pc) abs := by
  subst hpc
  exact h.quiet i _ s.mutex (.inr ⟨e, by rw [log, hpend, hnew, List.append_nil], he⟩) hok hcut
    (fun hp => h.holds i (hh hp)) (fun j _ => h.holds j)

/-- A step of one thread that writes a file no other thread is busy with. -/
theorem Explained.write {abs' : Files Loc} (h : Explained disk f₀ s abs) (i : Fin n)
    (th : Thread) (l : Loc) (c : Bytes)
    (hlog : th.done ++ pending th.pc = log s i ∧ abs' = abs ∧ Cut disk l th.pc ∨
      ∃ e, th.done ++ pending th.pc = log s i ++ [e] ∧ exec disk e abs = some abs' ∧
        abs' = Function.update abs l (some c))
    (hfree : ∀ j, j ≠ i → ¬ MidRead disk l (s.threads j).pc ∧ ¬ Relies disk l (s.threads j).pc)
    (hok : Ok disk (Function.update s.files l (some c)) abs' th.pc)
    (hcut : ∀ k, k ≠ l → ¬ Cut disk k (s.threads i).pc)
    (hm : Holds th.pc → Holds (s.threads i).pc) :
    Explained disk f₀
      ({ s with files := Function.update s.files l (some c) }.setThread i th) abs' := by
  have habs (k : Loc) (hk : k ≠ l) : abs' k = abs k := by
    rcases hlog with ⟨-, rfl, -⟩ | ⟨e, -, -, rfl⟩
    · rfl
    · exact Function.update_of_ne hk _ _
  constructor
  · rw [log_setThread]
    have hl : log ({ s with files := Function.update s.files l (some c) } : State Loc n) = log s :=
      rfl
    rw [hl]
    rcases hlog with ⟨hsame, rfl, -⟩ | ⟨e, hnew, he, -⟩
    · rw [hsame, Function.update_eq_self]
      exact h.serial
    · rw [hnew]
      exact h.serial.append i he
  · intro k hk
    by_cases hkl : k = l
    · subst hkl
      rcases hlog with ⟨-, -, hc⟩ | ⟨e, -, -, rfl⟩
      · have := hk i
        rw [setThread_self] at this
        exact absurd hc this
      · simp [State.setThread]
    · rw [habs k hkl, ← h.agree k]
      · exact Function.update_of_ne hkl _ _
      · exact each_before (¬ Cut disk k ·) (hcut k hkl) hk
  · exact each_thread (fun _ pc => Ok disk _ abs' pc) _ hok (fun j hj =>
      (h.ok j).change (fun k hk => Function.update_of_ne hk _ _) habs (by simp)
        (hfree j hj).1 (hfree j hj).2)
  · exact each_thread (fun j pc => Holds pc → s.mutex = some j) _ (fun hh => h.holds i (hm hh))
      (fun j _ => h.holds j)

/-- The thread of a `writeT` after a piece has been written: the command is
settled when no piece is left. -/
theorem Explained.flushed (h : Explained disk f₀ s abs) (i : Fin n) {old : Pc} (w : Write)
    (pos : ℕ) (out d : Bytes) (hpc : (s.threads i).pc = old) (hpend : pending old = [])
    (hi : Holds old) (hread : ∀ j, ¬ MidRead disk (disk.denotes w.path) (s.threads j).pc)
    (hcut : ∀ k, k ≠ disk.denotes w.path → ¬ Cut disk k old) (hpos : pos = d.length)
    (hres : resultAt disk (.writeT w) abs = some (some (d++out), none)) :
    ∃ abs', Explained disk f₀
      ({ s with files := Function.update s.files (disk.denotes w.path) (some d) }.setPc i
        (toFlush w pos out)) abs' := by
  subst hpc
  have hfree : ∀ j, j ≠ i → ¬ MidRead disk (disk.denotes w.path) (s.threads j).pc ∧
      ¬ Relies disk (disk.denotes w.path) (s.threads j).pc := by
    intro j hj
    refine ⟨hread j, fun hr => hj ?_⟩
    have hmutex := h.holds j hr.holds
    rw [h.holds i hi] at hmutex
    exact (Option.some.inj hmutex).symm
  have hlog : log s i = (s.threads i).done := by rw [log, hpend, List.append_nil]
  unfold toFlush
  split_ifs with hout
  · subst hout
    rw [List.append_nil] at hres
    refine ⟨Function.update abs (disk.denotes w.path) (some d), h.write i _ _ d
      (.inr ⟨⟨.writeT w, none⟩, by rw [hlog]; rfl, exec_of_result hres, rfl⟩) hfree trivial hcut
      (fun _ => hi)⟩
  · refine ⟨abs, h.write i _ _ d (.inl ⟨by rw [hlog]; exact List.append_nil _, rfl, rfl⟩)
      hfree ⟨hout, d, by simp, hpos, hres⟩ hcut (fun _ => hi)⟩

theorem writeAt_end (d data : Bytes) : writeAt d d.length data = d ++ data := by
  simp [writeAt]

theorem Explained.flush (h : Explained disk f₀ s abs) (i : Fin n) {old : Pc} (k : ℕ) (w : Write)
    (pos : ℕ) (out d : Bytes) {r : Files Loc × Pc} (hpc : (s.threads i).pc = old)
    (hpend : pending old = []) (hi : Holds old)
    (hread : ∀ j, ¬ MidRead disk (disk.denotes w.path) (s.threads j).pc)
    (hcut : ∀ k, k ≠ disk.denotes w.path → ¬ Cut disk k old)
    (hd : s.files (disk.denotes w.path) = some d) (hpos : pos = d.length)
    (hres : resultAt disk (.writeT w) abs = some (some (d++out), none))
    (hf : flush disk k s.files w pos out = some r) :
    ∃ abs', Explained disk f₀ ({ s with files := r.1 }.setPc i r.2) abs' := by
  obtain ⟨⟨-, hk⟩, rfl⟩ := guarded_iff.mp hf
  have hw : writeAt ((s.files (disk.denotes w.path)).getD []) pos (out.take k) =
      d ++ out.take k := by
    rw [hd, hpos, Option.getD_some, writeAt_end]
  rw [hw]
  refine h.flushed i w _ _ _ hpc hpend hi hread hcut ?_ ?_
  · rw [hpos, List.length_append, List.length_take_of_le hk]
  · rw [List.append_assoc, List.take_append_drop]
    exact hres

end Explained

end CSE344.BiboInvariant
