import SystemProgramming.BiboSerial

/-!
# A client with files of its own

The handler threads share the directory and the mutex. A client whose files no
other client names gets the replies that it would get alone, and its files end
up as they would alone, however the others race with each other.
-/

set_option autoImplicit false

namespace CSE344.BiboIsolation
open CString Stdio BiboServer BiboThreads BiboAlone BiboInvariant BiboSerial SerialOrder
open TransitionRun

/-- The command that a thread is carrying out. -/
def current : Pc → Option Command
  | .idle => none
  | .readOpen path line => some (.readF path line)
  | .reading path line _ _ => some (.readF path line)
  | .readClose path line _ => some (.readF path line)
  | .lock w => some (.writeT w)
  | .opening w => some (.writeT w)
  | .creating w => some (.writeT w)
  | .firstClose w => some (.writeT w)
  | .reopening w => some (.writeT w)
  | .seeking w => some (.writeT w)
  | .appending w _ => some (.writeT w)
  | .scanning w _ _ => some (.writeT w)
  | .scanClose w _ => some (.writeT w)
  | .truncating w _ => some (.writeT w)
  | .flushing w _ _ => some (.writeT w)
  | .writeClose w => some (.writeT w)
  | .unlock w => some (.writeT w)
  | .uploadOpen path => some (.upload path)
  | .uploadClose path => some (.upload path)

theorem current_begin (c : Command) : current c.begin = some c := by
  cases c <;> rfl

theorem current_readLine (path : Bytes) (line : ℤ) (pos : ℕ) (lines : List Bytes)
    (content : Bytes) :
    current (readLine path line pos lines content) = some (.readF path line) := by
  unfold readLine
  split
  · rfl
  · split_ifs <;> rfl

theorem current_toFlush (w : Write) (pos : ℕ) (out : Bytes) :
    current (toFlush w pos out) = some (.writeT w) := by
  unfold toFlush
  split_ifs <;> rfl

theorem current_scanLine {w : Write} {pos : ℕ} {lines : List Bytes} {content : Bytes} {pc : Pc}
    (h : scanLine w pos lines content = some pc) : current pc = some (.writeT w) := by
  unfold scanLine at h
  split at h
  · obtain ⟨r, -, rfl⟩ := Option.map_eq_some_iff.mp h
    cases r <;> rfl
  · obtain ⟨-, rfl⟩ := guarded_iff.mp h
    rfl

section Calls

variable {Loc : Type*} {disk : Disk Loc}

/-- A call works on the file of its command and on no other. -/
structure Local (disk : Disk Loc) (c : Command) (f : Files Loc) (r : Files Loc × Pc) : Prop where
  current : current r.2 = some c
  others : ∀ l, l ≠ Command.loc disk c → r.1 l = f l

variable [DecidableEq Loc] {k : ℕ} {f g : Files Loc} {w : Write} {pos : ℕ} {out : Bytes}
variable {pc : Pc} {c : Command} {r : Files Loc × Pc}

/-- A call that writes the file of a `writeT`. -/
structure Stores (disk : Disk Loc) (f : Files Loc) (w : Write) (r : Files Loc × Pc) : Prop where
  file : ∃ content, r.1 = Function.update f (disk.denotes w.path) (some content)
  next : ∃ pos out, r.2 = toFlush w pos out

theorem flush_stores (h : flush disk k f w pos out = some r) : Stores disk f w r := by
  obtain ⟨-, rfl⟩ := guarded_iff.mp h
  exact ⟨⟨_, rfl⟩, _, _, rfl⟩

theorem create_stores (h : create disk f w out = some r) : Stores disk f w r := by
  obtain ⟨-, rfl⟩ := guarded_iff.mp h
  exact ⟨⟨_, rfl⟩, _, _, rfl⟩

theorem Stores.keeps_to (h : Stores disk f w r) : Local disk (.writeT w) f r := by
  obtain ⟨⟨content, hfile⟩, pos, out, hnext⟩ := h
  refine ⟨by rw [hnext]; exact current_toFlush w _ _, fun l hl => ?_⟩
  rw [hfile]
  exact Function.update_of_ne hl _ _

theorem call_local (hpc : current pc = some c) (h : call disk k f pc = some r) :
    Local disk c f r := by
  cases pc <;> simp only [call] at h <;> cases hpc
  case readOpen path line => split at h <;> cases h <;> exact ⟨rfl, fun _ _ => rfl⟩
  case reading path line pos lines =>
    obtain ⟨content, -, rfl⟩ := Option.map_eq_some_iff.mp h
    exact ⟨current_readLine _ _ _ _ _, fun _ _ => rfl⟩
  case opening w => split at h <;> cases h <;> exact ⟨rfl, fun _ _ => rfl⟩
  case creating w => exact (create_stores h).keeps_to
  case reopening w =>
    split_ifs at h <;> cases h <;> exact ⟨rfl, fun _ _ => rfl⟩
  case seeking w =>
    obtain ⟨content, -, rfl⟩ := Option.map_eq_some_iff.mp h
    exact ⟨by dsimp only; split_ifs <;> rfl, fun _ _ => rfl⟩
  case appending w pos => exact (flush_stores h).keeps_to
  case scanning w pos lines =>
    obtain ⟨content, -, h⟩ := Option.bind_eq_some_iff.mp h
    obtain ⟨pc, hpc, rfl⟩ := Option.map_eq_some_iff.mp h
    exact ⟨current_scanLine hpc, fun _ _ => rfl⟩
  case truncating w out => exact (create_stores h).keeps_to
  case flushing w pos out => exact (flush_stores h).keeps_to
  case uploadOpen path =>
    split_ifs at h <;> cases h
    · exact ⟨rfl, fun l hl => Function.update_of_ne hl _ _⟩
    · exact ⟨rfl, fun _ _ => rfl⟩
  all_goals cases h <;> exact ⟨rfl, fun _ _ => rfl⟩

end Calls

section Threads

variable {Loc : Type*} {disk : Disk Loc} {n : ℕ}

/-- What the thread has done, does and is still to do make up its program. -/
def Follows (program : List Command) (th : Thread) : Prop :=
  th.done.map Event.command ++ (current th.pc).toList ++ th.todo = program

theorem Follows.current_mem {program : List Command} {th : Thread} (h : Follows program th)
    {c : Command} (hc : current th.pc = some c) : c ∈ program := by
  rw [← h, hc]
  simp

theorem follows_finish {program : List Command} {th : Thread} (h : Follows program th)
    (hpending : (pending th.pc).map Event.command = (current th.pc).toList) :
    Follows program th.finish := by
  rw [← h]
  simp [Follows, Thread.finish, current, hpending]

theorem holds_toFlush (w : Write) (pos : ℕ) (out : Bytes) : Holds (toFlush w pos out) := by
  unfold toFlush
  split_ifs <;> trivial

/-- A system in which the thread is alone looks the same to it. -/
structure Alike (disk : Disk Loc) (program : List Command) (i : Fin n) (s : State Loc n)
    (t : State Loc 1) : Prop where
  thread : t.threads 0 = s.threads i
  files : ∀ c ∈ program, s.files (Command.loc disk c) = t.files (Command.loc disk c)
  mutex : t.mutex = none ∨ Holds (s.threads i).pc

/-- The steps of the thread, as steps of the only one. -/
def own (i : Fin n) (a : Act n) : Option (Act 1) :=
  if a.thread = i then some ⟨Fin.last 0, a.chunk⟩ else none

theorem Alike.free {program : List Command} {i : Fin n} {s : State Loc n} {t : State Loc 1}
    (h : Alike disk program i s t) {pc : Pc} (hpc : (s.threads i).pc = pc) (hout : ¬ Holds pc) :
    t.mutex = none :=
  h.mutex.resolve_right (by rwa [hpc])

variable [DecidableEq Loc]

/-- Everything a step can do. -/
inductive Move (disk : Disk Loc) (a : Act n) (s : State Loc n) : State Loc n → Prop
  | begin (c : Command) (cs : List Command) (hpc : (s.threads a.thread).pc = .idle)
      (htodo : (s.threads a.thread).todo = c::cs) :
      Move disk a s (s.setThread a.thread { s.threads a.thread with todo := cs, pc := c.begin })
  | lock (w : Write) (hpc : (s.threads a.thread).pc = .lock w) (hfree : s.mutex = none) :
      Move disk a s ({ s with mutex := some a.thread }.setPc a.thread (.opening w))
  | unlock (w : Write) (hpc : (s.threads a.thread).pc = .unlock w) :
      Move disk a s ({ s with mutex := none }.finish a.thread)
  | readClose (path : Bytes) (line : ℤ) (reply : Bytes)
      (hpc : (s.threads a.thread).pc = .readClose path line reply) :
      Move disk a s (s.finish a.thread)
  | uploadClose (path : Bytes) (hpc : (s.threads a.thread).pc = .uploadClose path) :
      Move disk a s (s.finish a.thread)
  | call (c : Command) (r : Files Loc × Pc) (hc : current (s.threads a.thread).pc = some c)
      (hr : call disk a.chunk s.files (s.threads a.thread).pc = some r) :
      Move disk a s ({ s with files := r.1 }.setPc a.thread r.2)

theorem step_move {a : Act n} {s t : State Loc n} (h : step disk a s = some t) :
    Move disk a s t := by
  unfold step at h
  cases hpc : (s.threads a.thread).pc <;> rw [hpc] at h
  case idle =>
    cases htodo : (s.threads a.thread).todo with
    | nil =>
      rw [htodo] at h
      cases h
    | cons c cs =>
      rw [htodo] at h
      cases h
      exact .begin c cs hpc htodo
  case lock w =>
    obtain ⟨hfree, rfl⟩ := guarded_iff.mp h
    exact .lock w hpc hfree
  case unlock w =>
    cases h
    exact .unlock w hpc
  case readClose path line reply =>
    cases h
    exact .readClose path line reply hpc
  case uploadClose path =>
    cases h
    exact .uploadClose path hpc
  all_goals
    obtain ⟨r, hr, rfl⟩ := Option.map_eq_some_iff.mp h
    exact .call _ r (by rw [hpc]; rfl) (by rw [hpc]; exact hr)

theorem follows_move {program : List Command} {a : Act n} {s t : State Loc n}
    (hm : Move disk a s t) (h : Follows program (s.threads a.thread)) :
    Follows program (t.threads a.thread) := by
  cases hm with
  | begin c cs hpc htodo =>
    rw [setThread_self, ← h]
    simp [Follows, hpc, htodo, current_begin, show current .idle = none from rfl]
  | lock w hpc hfree =>
    rw [← h]
    simp [Follows, State.setPc, hpc, current]
  | unlock w hpc =>
    rw [State.finish, setThread_self]
    exact follows_finish h (by rw [hpc]; rfl)
  | readClose path line reply hpc =>
    rw [State.finish, setThread_self]
    exact follows_finish h (by rw [hpc]; rfl)
  | uploadClose path hpc =>
    rw [State.finish, setThread_self]
    exact follows_finish h (by rw [hpc]; rfl)
  | call c r hc hr =>
    rw [← h]
    simp [Follows, State.setPc, hc, (call_local hc hr).current]

theorem move_other {a : Act n} {s t : State Loc n} (hm : Move disk a s t) {j : Fin n}
    (hj : j ≠ a.thread) : t.threads j = s.threads j := by
  cases hm <;> exact Function.update_of_ne hj _ _

theorem Stores.holds {f : Files Loc} {w : Write} {r : Files Loc × Pc} (h : Stores disk f w r) :
    Holds r.2 := by
  obtain ⟨pos, out, hnext⟩ := h.next
  rw [hnext]
  exact holds_toFlush w _ _

theorem holds_call {k : ℕ} {f : Files Loc} {pc : Pc} {r : Files Loc × Pc} (hpc : Holds pc)
    (h : call disk k f pc = some r) : Holds r.2 := by
  cases pc <;> simp only [call] at h
  case opening w => split at h <;> cases h <;> trivial
  case creating w => exact (create_stores h).holds
  case reopening w =>
    split_ifs at h <;> cases h <;> trivial
  case seeking w =>
    obtain ⟨content, -, rfl⟩ := Option.map_eq_some_iff.mp h
    dsimp only
    split_ifs <;> trivial
  case appending w pos => exact (flush_stores h).holds
  case scanning w pos lines =>
    obtain ⟨content, -, h⟩ := Option.bind_eq_some_iff.mp h
    obtain ⟨pc, hscan, rfl⟩ := Option.map_eq_some_iff.mp h
    unfold scanLine at hscan
    split at hscan
    · obtain ⟨r, -, rfl⟩ := Option.map_eq_some_iff.mp hscan
      cases r <;> trivial
    · obtain ⟨-, rfl⟩ := guarded_iff.mp hscan
      trivial
  case truncating w out => exact (create_stores h).holds
  case flushing w pos out => exact (flush_stores h).holds
  all_goals first
    | exact hpc.elim
    | cases h <;> trivial

theorem follows_step {programs : Fin n → List Command} {a : Act n} {s t : State Loc n}
    (hs : ∀ j, Follows (programs j) (s.threads j)) (hm : Move disk a s t) (j : Fin n) :
    Follows (programs j) (t.threads j) := by
  by_cases hj : j = a.thread
  · subst hj
    exact follows_move hm (hs _)
  · rw [move_other hm hj]
    exact hs j

end Threads

end CSE344.BiboIsolation
