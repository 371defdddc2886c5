import Mathlib.Algebra.BigOperators.Group.Finset.Piecewise
import SystemProgramming.RankedRun

/-!
# SIGINT at the BibakBOX server

The process with its threads: `main`, which accepts, and one handler for each
connection. SIGINT is delivered to any of them, wherever it stands, and the
handler of the signal locks `logMutex` and ends that thread alone. What a
connection owns is its socket and the cell that its number was passed in.
-/

set_option autoImplicit false

namespace CSE344.BoxSignals
open TransitionRun RankedRun

/-- Where a thread stands. `main` is in its `accept`, between that and `malloc`,
between that and `pthread_create`, or, when that failed, before `close` and
between `close` and `free`. A handler is at the first `recv`, behind the `close`
for an empty one, in its command loop, in `writeLog` before and behind
`pthread_mutex_lock(&logMutex)`, between `close(clientSocket)` and `free(arg)`,
or behind that. -/
inductive Pc where
  | accepting
  | connected
  | allocated
  | refused
  | closed
  | hello
  | rejected
  | serving
  | waiting
  | logging
  | leaving
  | freed
  deriving DecidableEq, Repr

def Pc.ofMain : Pc → Bool
  | accepting | connected | allocated | refused | closed => true
  | _ => false

/-- `handleSIGINT` before and behind its own `pthread_mutex_lock(&logMutex)`. -/
inductive Handler where
  | locking
  | printing
  deriving DecidableEq, Repr

/-- `returned early` says whether `handleClient` took its first `return`, and
`exited pc` that `pthread_exit` ended the thread where the signal found it. -/
inductive Thread where
  | absent
  | running (pc : Pc)
  | interrupted (pc : Pc) (h : Handler)
  | returned (early : Bool)
  | exited (pc : Pc)
  deriving DecidableEq, Repr

/-- Where the thread stands, or stood when the signal came. -/
def Thread.place : Thread → Option Pc
  | absent => none
  | running pc => some pc
  | interrupted pc _ => some pc
  | returned _ => none
  | exited pc => some pc

/-- `main` is `none`, and a connection and its handler go by their number;
`accepted` is the number of the connection that `main` has in hand, or accepts
next. The owner of `logMutex`, the open client sockets, and the allocated cells. -/
structure State where
  threads : Option ℕ → Thread
  accepted : ℕ
  logMutex : Option (Option ℕ)
  sockets : ℕ → Bool
  cells : ℕ → Bool

def init : State where
  threads t := if t = none then .running .accepting else .absent
  accepted := 0
  logMutex := none
  sockets _ := false
  cells _ := false

inductive Act where
  | acceptFails
  | accept
  | malloc
  | create (created : Bool)
  | closeRefused
  | freeRefused
  | hello (k : ℕ) (received : Bool)
  | giveUp (k : ℕ)
  | request (k : ℕ) (logs : Bool)
  | lock (k : ℕ)
  | unlock (k : ℕ)
  | close (k : ℕ)
  | free (k : ℕ)
  | leave (k : ℕ)
  | interrupt (t : Option ℕ)
  | handlerLock (t : Option ℕ)
  | handlerExit (t : Option ℕ)
  deriving DecidableEq, Repr

def State.become (s : State) (t : Option ℕ) (life : Thread) : State :=
  { s with threads := Function.update s.threads t life }

def State.setSocket (s : State) (k : ℕ) (opened : Bool) : State :=
  { s with sockets := Function.update s.sockets k opened }

def State.setCell (s : State) (k : ℕ) (allocated : Bool) : State :=
  { s with cells := Function.update s.cells k allocated }

def State.next (s : State) : State := { s with accepted := s.accepted+1 }

/-- One step of a thread, or the delivery of a signal. An `accept` may fail or
succeed at any time: one that waits when the listening socket is closed can
still return a connection. -/
def step : Act → State → Option State
  | .acceptFails, s => if s.threads none = .running .accepting then some s else none
  | .accept, s =>
    if s.threads none = .running .accepting then
      some ((s.setSocket s.accepted true).become none (.running .connected))
    else none
  | .malloc, s =>
    if s.threads none = .running .connected then
      some ((s.setCell s.accepted true).become none (.running .allocated))
    else none
  | .create created, s =>
    if s.threads none = .running .allocated then
      if created then
        some ((s.become none (.running .accepting)).become (some s.accepted)
          (.running .hello)).next
      else some (s.become none (.running .refused))
    else none
  | .closeRefused, s =>
    if s.threads none = .running .refused then
      some ((s.setSocket s.accepted false).become none (.running .closed))
    else none
  | .freeRefused, s =>
    if s.threads none = .running .closed then
      some ((s.setCell s.accepted false).become none (.running .accepting)).next
    else none
  | .hello k received, s =>
    if s.threads (some k) = .running .hello then
      if received then some (s.become (some k) (.running .serving))
      else some ((s.setSocket k false).become (some k) (.running .rejected))
    else none
  | .giveUp k, s =>
    if s.threads (some k) = .running .rejected then some (s.become (some k) (.returned true))
    else none
  | .request k logs, s =>
    if s.threads (some k) = .running .serving then
      some (s.become (some k) (.running (if logs then .waiting else .serving)))
    else none
  | .lock k, s =>
    if s.threads (some k) = .running .waiting ∧ s.logMutex = none then
      some { s.become (some k) (.running .logging) with logMutex := some (some k) }
    else none
  | .unlock k, s =>
    if s.threads (some k) = .running .logging then
      some { s.become (some k) (.running .serving) with logMutex := none }
    else none
  | .close k, s =>
    if s.threads (some k) = .running .serving then
      some ((s.setSocket k false).become (some k) (.running .leaving))
    else none
  | .free k, s =>
    if s.threads (some k) = .running .leaving then
      some ((s.setCell k false).become (some k) (.running .freed))
    else none
  | .leave k, s =>
    if s.threads (some k) = .running .freed then some (s.become (some k) (.returned false))
    else none
  | .interrupt t, s => match s.threads t with
    | .running pc => some (s.become t (.interrupted pc .locking))
    | _ => none
  | .handlerLock t, s => match s.threads t with
    | .interrupted pc .locking =>
      if s.logMutex = none then
        some { s.become t (.interrupted pc .printing) with logMutex := some t }
      else none
    | _ => none
  | .handlerExit t, s => match s.threads t with
    | .interrupted pc .printing => some { s.become t (.exited pc) with logMutex := none }
    | _ => none

/-- The step is not the delivery of a signal. -/
def Quiet : Act → Prop
  | .interrupt _ => False
  | _ => True

/-- The thread is gone, or never was. -/
def Gone : Thread → Prop
  | .running _ => False
  | .interrupted _ _ => False
  | _ => True

/-- The process ends when its last thread does. -/
def Over (s : State) : Prop := ∀ t, Gone (s.threads t)

/-- Everything a step can do. -/
inductive Move (s : State) : Act → State → Prop
  | acceptFails (h : s.threads none = .running .accepting) : Move s .acceptFails s
  | accept (h : s.threads none = .running .accepting) :
      Move s .accept ((s.setSocket s.accepted true).become none (.running .connected))
  | malloc (h : s.threads none = .running .connected) :
      Move s .malloc ((s.setCell s.accepted true).become none (.running .allocated))
  | create (h : s.threads none = .running .allocated) :
      Move s (.create true)
        ((s.become none (.running .accepting)).become (some s.accepted) (.running .hello)).next
  | createFails (h : s.threads none = .running .allocated) :
      Move s (.create false) (s.become none (.running .refused))
  | closeRefused (h : s.threads none = .running .refused) :
      Move s .closeRefused ((s.setSocket s.accepted false).become none (.running .closed))
  | freeRefused (h : s.threads none = .running .closed) :
      Move s .freeRefused ((s.setCell s.accepted false).become none (.running .accepting)).next
  | hello (k : ℕ) (h : s.threads (some k) = .running .hello) :
      Move s (.hello k true) (s.become (some k) (.running .serving))
  | helloFails (k : ℕ) (h : s.threads (some k) = .running .hello) :
      Move s (.hello k false) ((s.setSocket k false).become (some k) (.running .rejected))
  | giveUp (k : ℕ) (h : s.threads (some k) = .running .rejected) :
      Move s (.giveUp k) (s.become (some k) (.returned true))
  | request (k : ℕ) (logs : Bool) (h : s.threads (some k) = .running .serving) :
      Move s (.request k logs)
        (s.become (some k) (.running (if logs then .waiting else .serving)))
  | lock (k : ℕ) (h : s.threads (some k) = .running .waiting) (hfree : s.logMutex = none) :
      Move s (.lock k)
        { s.become (some k) (.running .logging) with logMutex := some (some k) }
  | unlock (k : ℕ) (h : s.threads (some k) = .running .logging) :
      Move s (.unlock k) { s.become (some k) (.running .serving) with logMutex := none }
  | close (k : ℕ) (h : s.threads (some k) = .running .serving) :
      Move s (.close k) ((s.setSocket k false).become (some k) (.running .leaving))
  | free (k : ℕ) (h : s.threads (some k) = .running .leaving) :
      Move s (.free k) ((s.setCell k false).become (some k) (.running .freed))
  | leave (k : ℕ) (h : s.threads (some k) = .running .freed) :
      Move s (.leave k) (s.become (some k) (.returned false))
  | interrupt (t : Option ℕ) (pc : Pc) (h : s.threads t = .running pc) :
      Move s (.interrupt t) (s.become t (.interrupted pc .locking))
  | handlerLock (t : Option ℕ) (pc : Pc) (h : s.threads t = .interrupted pc .locking)
      (hfree : s.logMutex = none) : Move s (.handlerLock t)
        { s.become t (.interrupted pc .printing) with logMutex := some t }
  | handlerExit (t : Option ℕ) (pc : Pc) (h : s.threads t = .interrupted pc .printing) :
      Move s (.handlerExit t) { s.become t (.exited pc) with logMutex := none }

theorem step_move (a : Act) (s t : State) (h : step a s = some t) : Move s a t := by
  cases a with
  | acceptFails =>
    obtain ⟨hmain, rfl⟩ := guarded_iff.mp h
    exact Move.acceptFails hmain
  | accept =>
    obtain ⟨hmain, rfl⟩ := guarded_iff.mp h
    exact Move.accept hmain
  | malloc =>
    obtain ⟨hmain, rfl⟩ := guarded_iff.mp h
    exact Move.malloc hmain
  | create created =>
    simp only [step, Option.ite_none_right_eq_some] at h
    obtain ⟨hmain, h⟩ := h
    cases created with
    | true =>
      obtain rfl := Option.some.inj h
      exact Move.create hmain
    | false =>
      obtain rfl := Option.some.inj h
      exact Move.createFails hmain
  | closeRefused =>
    obtain ⟨hmain, rfl⟩ := guarded_iff.mp h
    exact Move.closeRefused hmain
  | freeRefused =>
    obtain ⟨hmain, rfl⟩ := guarded_iff.mp h
    exact Move.freeRefused hmain
  | hello k received =>
    simp only [step, Option.ite_none_right_eq_some] at h
    obtain ⟨hk, h⟩ := h
    cases received with
    | true =>
      obtain rfl := Option.some.inj h
      exact Move.hello k hk
    | false =>
      obtain rfl := Option.some.inj h
      exact Move.helloFails k hk
  | giveUp k =>
    obtain ⟨hk, rfl⟩ := guarded_iff.mp h
    exact Move.giveUp k hk
  | request k logs =>
    obtain ⟨hk, rfl⟩ := guarded_iff.mp h
    exact Move.request k logs hk
  | lock k =>
    obtain ⟨⟨hk, hfree⟩, rfl⟩ := guarded_iff.mp h
    exact Move.lock k hk hfree
  | unlock k =>
    obtain ⟨hk, rfl⟩ := guarded_iff.mp h
    exact Move.unlock k hk
  | close k =>
    obtain ⟨hk, rfl⟩ := guarded_iff.mp h
    exact Move.close k hk
  | free k =>
    obtain ⟨hk, rfl⟩ := guarded_iff.mp h
    exact Move.free k hk
  | leave k =>
    obtain ⟨hk, rfl⟩ := guarded_iff.mp h
    exact Move.leave k hk
  | interrupt t =>
    simp only [step] at h
    split at h <;> cases h
    exact Move.interrupt t _ ‹_›
  | handlerLock t =>
    simp only [step] at h
    split at h
    · obtain ⟨hfree, rfl⟩ := guarded_iff.mp h
      exact Move.handlerLock t _ ‹_› hfree
    · cases h
  | handlerExit t =>
    simp only [step] at h
    split at h <;> cases h
    exact Move.handlerExit t _ ‹_›

/-- The thread holds `logMutex`; one that was interrupted in `writeLog` still does. -/
def Owns : Thread → Prop
  | .running .logging => True
  | .interrupted .logging .locking => True
  | .interrupted _ .printing => True
  | _ => False

/-- The thread waits in its signal handler for the mutex that it holds itself. -/
def SelfLocked (life : Thread) : Prop := life = .interrupted .logging .locking

/-- Where a thread can stand: `main` in its own loop, and a handler of one of the
first `n` connections in `handleClient`. -/
def Placed (n : ℕ) : Option ℕ → Thread → Prop
  | none, life => ∃ pc, life.place = some pc ∧ pc.ofMain = true
  | some k, life => (n ≤ k → life = .absent) ∧ ∀ pc, life.place = some pc → pc.ofMain = false

structure Sound (s : State) : Prop where
  owner : ∀ t, s.logMutex = some t ↔ Owns (s.threads t)
  placed : ∀ t, Placed s.accepted t (s.threads t)

@[simp] theorem become_self (s : State) (t : Option ℕ) (life : Thread) :
    (s.become t life).threads t = life := by simp [State.become]

@[simp] theorem become_accepted (s : State) (t : Option ℕ) (life : Thread) :
    (s.become t life).accepted = s.accepted := rfl

@[simp] theorem setSocket_threads (s : State) (k : ℕ) (opened : Bool) :
    (s.setSocket k opened).threads = s.threads := rfl

@[simp] theorem next_threads (s : State) : s.next.threads = s.threads := rfl

@[simp] theorem next_accepted (s : State) : s.next.accepted = s.accepted+1 := rfl

@[simp] theorem setCell_threads (s : State) (k : ℕ) (allocated : Bool) :
    (s.setCell k allocated).threads = s.threads := rfl

theorem become_other (s : State) {t u : Option ℕ} (life : Thread) (h : u ≠ t) :
    (s.become t life).threads u = s.threads u := by simp [State.become, h]

theorem sound_init : Sound init where
  owner t := by
    cases t <;> simp [init, Owns]
  placed t := by
    cases t <;> simp [init, Placed, Thread.place, Pc.ofMain]

theorem owner_become {s : State} (hs : ∀ t, s.logMutex = some t ↔ Owns (s.threads t))
    {t : Option ℕ} {life : Thread} (hsame : Owns life ↔ Owns (s.threads t)) (u : Option ℕ) :
    s.logMutex = some u ↔ Owns ((s.become t life).threads u) := by
  by_cases hu : u = t
  · subst hu
    rw [become_self, hsame]
    exact hs u
  · rw [become_other s life hu]
    exact hs u

theorem owner_taken {s : State} (hs : ∀ t, s.logMutex = some t ↔ Owns (s.threads t))
    (hfree : s.logMutex = none) {t : Option ℕ} {life : Thread} (hlife : Owns life)
    (u : Option ℕ) : some t = some u ↔ Owns ((s.become t life).threads u) := by
  by_cases hu : u = t
  · subst hu
    simpa using hlife
  · rw [become_other s life hu, ← hs u, hfree]
    simp [Ne.symm hu]

theorem owner_given {s : State} (hs : ∀ t, s.logMutex = some t ↔ Owns (s.threads t))
    {t : Option ℕ} (hheld : Owns (s.threads t)) {life : Thread} (hlife : ¬ Owns life)
    (u : Option ℕ) : (none : Option (Option ℕ)) = some u ↔ Owns ((s.become t life).threads u) := by
  by_cases hu : u = t
  · subst hu
    simpa using hlife
  · rw [become_other s life hu, ← hs u, (hs t).mpr hheld]
    simp [Ne.symm hu]

theorem placed_become {n : ℕ} {s : State} (hs : ∀ t, Placed n t (s.threads t)) {t : Option ℕ}
    {life : Thread} (hlife : Placed n t life) (u : Option ℕ) :
    Placed n u ((s.become t life).threads u) := by
  by_cases hu : u = t
  · subst hu
    rwa [become_self]
  · rw [become_other s life hu]
    exact hs u

theorem placed_next {n : ℕ} {s : State} (hs : ∀ t, Placed n t (s.threads t)) {k : ℕ} {pc : Pc}
    (h : s.threads (some k) = .running pc) {life : Thread}
    (hlife : ∀ pc, life.place = some pc → pc.ofMain = false) (u : Option ℕ) :
    Placed n u ((s.become (some k) life).threads u) :=
  placed_become hs (show Placed n (some k) life from
    ⟨fun hle => absurd ((hs (some k)).1 hle) (by simp [h]), hlife⟩) u

theorem Placed.same {n : ℕ} {t : Option ℕ} {old life : Thread} (h : Placed n t old)
    (hthere : old ≠ .absent) (hplace : life.place = old.place) : Placed n t life := by
  cases t with
  | none => rwa [Placed, hplace]
  | some k =>
    refine ⟨fun hle => absurd (h.1 hle) hthere, fun pc hpc => h.2 pc ?_⟩
    rwa [← hplace]

theorem placed_more {s : State} (hs : ∀ t, Placed s.accepted t (s.threads t)) (u : Option ℕ) :
    Placed (s.accepted+1) u (s.threads u) := by
  cases u with
  | none => exact hs none
  | some k => exact ⟨fun hle => (hs (some k)).1 (by omega), (hs (some k)).2⟩

theorem sound_move (s : State) (a : Act) (t : State) (hs : Sound s) (h : Move s a t) :
    Sound t := by
  obtain ⟨howner, hplaced⟩ := hs
  cases h with
  | acceptFails h => exact ⟨howner, hplaced⟩
  | accept h =>
    exact ⟨owner_become howner (by simp [h, Owns]), placed_become hplaced ⟨_, rfl, rfl⟩⟩
  | malloc h =>
    exact ⟨owner_become howner (by simp [h, Owns]), placed_become hplaced ⟨_, rfl, rfl⟩⟩
  | create h =>
    have habsent : s.threads (some s.accepted) = .absent :=
      (hplaced (some s.accepted)).1 (le_refl _)
    have hmain := @owner_become s howner none (.running .accepting) (by simp [h, Owns])
    have hnew := @owner_become (s.become none (.running .accepting)) hmain (some s.accepted)
      (.running .hello) (by
        rw [become_other s _ (Option.some_ne_none _), habsent]
        exact iff_of_false id id)
    have hplace : Placed (s.accepted+1) (some s.accepted) (.running .hello) :=
      ⟨fun hle => absurd hle (Nat.not_succ_le_self _), by simp [Thread.place, Pc.ofMain]⟩
    have hidle : Placed (s.accepted+1) none (.running .accepting) := ⟨_, rfl, rfl⟩
    exact ⟨hnew, placed_become (placed_become (placed_more hplaced) hidle) hplace⟩
  | createFails h =>
    exact ⟨owner_become howner (by simp [h, Owns]), placed_become hplaced ⟨_, rfl, rfl⟩⟩
  | closeRefused h =>
    exact ⟨owner_become howner (by simp [h, Owns]), placed_become hplaced ⟨_, rfl, rfl⟩⟩
  | freeRefused h =>
    exact ⟨owner_become howner (by simp [h, Owns]),
      placed_become (placed_more hplaced) ⟨_, rfl, rfl⟩⟩
  | request k logs h =>
    refine ⟨owner_become howner ?_, placed_next hplaced h ?_⟩
    · cases logs <;> simp [h, Owns]
    · cases logs <;> simp [Thread.place, Pc.ofMain]
  | lock k h hfree =>
    exact ⟨owner_taken howner hfree trivial,
      placed_next hplaced h (by simp [Thread.place, Pc.ofMain])⟩
  | unlock k h =>
    exact ⟨owner_given howner (by rw [h]; trivial) id,
      placed_next hplaced h (by simp [Thread.place, Pc.ofMain])⟩
  | interrupt t pc h =>
    have ht := hplaced t
    rw [h] at ht
    refine ⟨owner_become howner ?_, placed_become hplaced (ht.same (by simp) rfl)⟩
    cases pc <;> simp [h, Owns]
  | handlerLock t pc h hfree =>
    have ht := hplaced t
    rw [h] at ht
    refine ⟨owner_taken howner hfree ?_, placed_become hplaced (ht.same (by simp) rfl)⟩
    cases pc <;> trivial
  | handlerExit t pc h =>
    have ht := hplaced t
    rw [h] at ht
    refine ⟨owner_given howner ?_ id, placed_become hplaced (ht.same (by simp) rfl)⟩
    rw [h]
    cases pc <;> trivial
  | hello k h | helloFails k h | giveUp k h | close k h | free k h | leave k h =>
    exact ⟨owner_become howner (by simp [h, Owns]),
      placed_next hplaced h (by simp [Thread.place, Pc.ofMain])⟩

theorem sound_reachable (as : List Act) (s : State) (h : run step as init = some s) : Sound s :=
  run_invariant step Sound (fun a u v hu hv => sound_move u a v hu (step_move a u v hv)) as init s
    sound_init h

section End

variable {s t : State} {a : Act}

theorem become_kept {u v : Option ℕ} {life old : Thread} (hu : s.threads u = old)
    (hne : s.threads v ≠ old) : (s.become v life).threads u = old := by
  have hother : u ≠ v := by
    rintro rfl
    exact hne hu
  rw [become_other s life hother, hu]

/-- Nobody else can release what a thread waits for that holds it itself. -/
theorem selfLocked_move (hs : Sound s) {u : Option ℕ} (hu : SelfLocked (s.threads u))
    (h : Move s a t) : SelfLocked (t.threads u) := by
  have hheld : s.logMutex = some u := (hs.owner u).mpr (by rw [hu]; trivial)
  cases h with
  | acceptFails h => exact hu
  | create h =>
    refine become_kept (become_kept hu (by simp [h])) ?_
    rw [become_other s _ (Option.some_ne_none _), (hs.placed (some s.accepted)).1 (le_refl _)]
    simp
  | lock k h hfree => simp [hfree] at hheld
  | handlerLock v pc h hfree => simp [hfree] at hheld
  | accept h | malloc h | createFails h | closeRefused h | freeRefused h =>
    exact become_kept hu (by simp [h])
  | hello k h | helloFails k h | giveUp k h | request k _ h | unlock k h | close k h | free k h
  | leave k h => exact become_kept hu (by simp [h])
  | interrupt v pc h => exact become_kept hu (by simp [h])
  | handlerExit v pc h => exact become_kept hu (by simp [h])

theorem running_move (hmain : ∃ pc, s.threads none = .running pc) (hq : Quiet a)
    (h : Move s a t) : ∃ pc, t.threads none = .running pc := by
  obtain ⟨pc, hmain⟩ := hmain
  cases h with
  | interrupt v pc h => exact absurd hq id
  | handlerLock v pc h hfree => exact ⟨_, become_kept hmain (by simp [h])⟩
  | handlerExit v pc h => exact ⟨_, become_kept hmain (by simp [h])⟩
  | accept h | malloc h | createFails h | closeRefused h => exact ⟨_, become_self _ _ _⟩
  | create h => exact ⟨.accepting, rfl⟩
  | freeRefused h => exact ⟨.accepting, rfl⟩
  | _ => exact ⟨pc, hmain⟩

/-- `main` has taken a signal, and no thread has in the middle of `writeLog`. -/
structure Hopeful (s : State) : Prop where
  main : ∀ pc, s.threads none ≠ .running pc
  nobody : ∀ u, ¬ SelfLocked (s.threads u)

theorem become_nobody (hs : ∀ u, ¬ SelfLocked (s.threads u)) {v : Option ℕ} {life : Thread}
    (hlife : ¬ SelfLocked life) (u : Option ℕ) : ¬ SelfLocked ((s.become v life).threads u) := by
  by_cases hu : u = v
  · subst hu
    rwa [become_self]
  · rw [become_other s life hu]
    exact hs u

/-- How far a thread is from its end, if every client leaves and every request is over. -/
def left : Thread → ℕ
  | .running .waiting => 5
  | .running .logging => 4
  | .running .serving => 3
  | .running .leaving => 2
  | .running .hello => 2
  | .running _ => 1
  | .interrupted _ .locking => 2
  | .interrupted _ .printing => 1
  | _ => 0

def rank (s : State) : ℕ :=
  left (s.threads none)+∑ k ∈ Finset.range s.accepted, left (s.threads (some k))

theorem rank_become (hs : Sound s) {u : Option ℕ} (hu : s.threads u ≠ .absent) (life : Thread) :
    rank (s.become u life)+left (s.threads u) = rank s+left life := by
  cases u with
  | none =>
    have hsame (k : ℕ) : (s.become none life).threads (some k) = s.threads (some k) :=
      become_other s life (Option.some_ne_none k)
    simp only [rank, become_self, hsame]
    simp only [State.become]
    omega
  | some k =>
    have hk : k ∈ Finset.range s.accepted := by
      rw [Finset.mem_range]
      by_contra hge
      exact hu ((hs.placed (some k)).1 (by omega))
    have hsum (life : Option ℕ → Thread) :
        ∑ j ∈ Finset.range s.accepted, left (life (some j)) =
          left (life (some k))+∑ j ∈ Finset.range s.accepted \ {k}, left (life (some j)) :=
      Finset.sum_eq_add_sum_sdiff_singleton_of_mem hk _
    have hothers : ∑ j ∈ Finset.range s.accepted \ {k},
          left ((s.become (some k) life).threads (some j)) =
        ∑ j ∈ Finset.range s.accepted \ {k}, left (s.threads (some j)) := by
      refine Finset.sum_congr rfl (fun j hj => ?_)
      have hne : j ≠ k := by simpa using (Finset.mem_sdiff.mp hj).2
      rw [become_other s life (by simpa using hne)]
    have hmain : (s.become (some k) life).threads none = s.threads none :=
      become_other s life (Option.some_ne_none k).symm
    simp only [rank, hmain]
    rw [become_accepted, hsum, hsum s.threads, hothers,
      become_self]
    omega

theorem hopeful_become (hs : Hopeful s) {u : Option ℕ} {life : Thread}
    (hlife : u = none → ∀ pc, life ≠ .running pc) (hself : ¬ SelfLocked life) :
    Hopeful (s.become u life) where
  main := by
    by_cases hu : none = u
    · subst hu
      rw [become_self]
      exact hlife rfl
    · rw [become_other s life hu]
      exact hs.main
  nobody := become_nobody hs.nobody hself

theorem down_step (hs : Sound s) (hh : Hopeful s) (u : Option ℕ) (life : Thread)
    (hquiet : Quiet a) (hstep : ∃ t, step a s = some t ∧
      t.threads = (s.become u life).threads ∧ t.accepted = s.accepted)
    (hthere : s.threads u ≠ .absent) (hlife : u = none → ∀ pc, life ≠ .running pc)
    (hself : ¬ SelfLocked life) (hleft : left life < left (s.threads u)) :
    ∃ a t, Quiet a ∧ step a s = some t ∧ (Sound t ∧ Hopeful t) ∧ rank t < rank s := by
  obtain ⟨t, hstep, hthreads, haccepted⟩ := hstep
  have hnext := hopeful_become hh (u := u) hlife hself
  have hrank := rank_become hs hthere life
  have hsame : rank t = rank (s.become u life) := by
    rw [rank, rank, hthreads, haccepted]
    rfl
  refine ⟨a, t, hquiet, hstep, ⟨sound_move s a t hs (step_move a s t hstep), ?_, ?_⟩, by omega⟩
  · rw [hthreads]
    exact hnext.main
  · rw [hthreads]
    exact hnext.nobody

/-- The owner of the mutex can always go on. -/
theorem owner_steps (hs : Sound s) (hh : Hopeful s) {u : Option ℕ} (howner : s.logMutex = some u) :
    ∃ a t, Quiet a ∧ step a s = some t ∧ (Sound t ∧ Hopeful t) ∧ rank t < rank s := by
  have howns := (hs.owner u).mp howner
  cases hu : s.threads u with
  | running pc =>
    cases pc with
    | logging =>
      cases u with
      | none => exact absurd hu (hh.main _)
      | some k =>
        exact down_step (a := .unlock k) hs hh (some k) (.running .serving) trivial
          (by simp [step, hu]) (by simp [hu]) (by simp) (by simp [SelfLocked])
          (by simp [hu, left])
    | _ => simp [hu, Owns] at howns
  | interrupted pc h =>
    cases h with
    | printing =>
      exact down_step (a := .handlerExit u) hs hh u (.exited pc) trivial
        (by simp [step, hu]) (by simp [hu]) (by simp) (by simp [SelfLocked])
        (by simp [hu, left])
    | locking =>
      cases pc with
      | logging => exact absurd hu (hh.nobody u)
      | _ => simp [hu, Owns] at howns
  | _ => simp [hu, Owns] at howns

theorem handler_steps (hs : Sound s) (hh : Hopeful s) (hfree : s.logMutex = none) {k : ℕ}
    {pc : Pc} (hu : s.threads (some k) = .running pc) :
    ∃ a t, Quiet a ∧ step a s = some t ∧ (Sound t ∧ Hopeful t) ∧ rank t < rank s := by
  have hpc : pc.ofMain = false := (hs.placed (some k)).2 pc (by rw [hu]; rfl)
  cases pc with
  | hello =>
    exact down_step (a := .hello k false) hs hh (some k) (.running .rejected) trivial
      ⟨_, if_pos hu, rfl, rfl⟩ (by simp [hu]) (by simp) (by simp [SelfLocked])
      (by simp [hu, left])
  | rejected =>
    exact down_step (a := .giveUp k) hs hh (some k) (.returned true) trivial
      (by simp [step, hu]) (by simp [hu]) (by simp) (by simp [SelfLocked])
      (by simp [hu, left])
  | serving =>
    exact down_step (a := .close k) hs hh (some k) (.running .leaving) trivial
      ⟨_, if_pos hu, rfl, rfl⟩ (by simp [hu]) (by simp) (by simp [SelfLocked])
      (by simp [hu, left])
  | waiting =>
    exact down_step (a := .lock k) hs hh (some k) (.running .logging) trivial
      (by simp [step, hu, hfree]) (by simp [hu]) (by simp)
      (by simp [SelfLocked]) (by simp [hu, left])
  | logging =>
    have howns := (hs.owner (some k)).mpr (by rw [hu]; trivial)
    rw [hfree] at howns
    cases howns
  | leaving =>
    exact down_step (a := .free k) hs hh (some k) (.running .freed) trivial
      ⟨_, if_pos hu, rfl, rfl⟩ (by simp [hu]) (by simp) (by simp [SelfLocked])
      (by simp [hu, left])
  | freed =>
    exact down_step (a := .leave k) hs hh (some k) (.returned false) trivial
      (by simp [step, hu]) (by simp [hu]) (by simp) (by simp [SelfLocked])
      (by simp [hu, left])
  | _ => cases hpc

theorem hopeful_steps (hs : Sound s) (hh : Hopeful s) (hnot : ¬ Over s) :
    ∃ a t, Quiet a ∧ step a s = some t ∧ (Sound t ∧ Hopeful t) ∧ rank t < rank s := by
  cases howner : s.logMutex with
  | some u => exact owner_steps hs hh howner
  | none =>
    obtain ⟨u, hthere⟩ := not_forall.mp hnot
    cases hu : s.threads u with
    | running pc =>
      cases u with
      | none => exact absurd hu (hh.main pc)
      | some k => exact handler_steps hs hh howner hu
    | interrupted pc h =>
      cases h with
      | locking =>
        exact down_step (a := .handlerLock u) hs hh u (.interrupted pc .printing) trivial
          (by simp [step, hu, howner]) (by simp [hu]) (by simp)
          (by simp [SelfLocked]) (by simp [hu, left])
      | printing =>
        have howns := (hs.owner u).mpr (by rw [hu]; cases pc <;> trivial)
        rw [howner] at howns
        cases howns
    | _ => simp [hu, Gone] at hthere

end End

theorem over_hopeful {s : State} (h : Over s) : Hopeful s where
  main pc hmain := by simpa [hmain, Gone] using h none
  nobody u hu := by simpa [show s.threads u = _ from hu, Gone] using h u

theorem unhopeful_run {s t : State} {as : List Act} (hs : Sound s) (hquiet : ∀ a ∈ as, Quiet a)
    (hrun : run step as s = some t) (h : ¬ Hopeful s) : ¬ Hopeful t := by
  have hstays := guarded_invariant step (fun a _ => Quiet a) (fun v => Sound v ∧ ¬ Hopeful v)
    (fun a u v hu hq hv => by
      obtain ⟨hsound, hnot⟩ := hu
      have hmove := step_move a u v hv
      refine ⟨sound_move u a v hsound hmove, fun hh => hnot ⟨fun pc hmain => ?_, fun w hw => ?_⟩⟩
      · obtain ⟨pc', hmain'⟩ := running_move ⟨pc, hmain⟩ hq hmove
        exact hh.main pc' hmain'
      · exact hh.nobody w (selfLocked_move hsound hw hmove)) as s t ⟨hs, h⟩
    (meets_of_labels step _ as (fun a ha _ => hquiet a ha) s) hrun
  exact hstays.2

/-- Without a further signal the process can still end exactly when `main` has
taken one and no thread was interrupted while it held `logMutex`. -/
theorem sigint_ends_iff (before : List Act) (s : State) (h : run step before init = some s) :
    (∃ as t, (∀ a ∈ as, Quiet a) ∧ run step as s = some t ∧ Over t) ↔
      (∀ pc, s.threads none ≠ .running pc) ∧ ∀ u, ¬ SelfLocked (s.threads u) := by
  have hs := sound_reachable before s h
  constructor
  · rintro ⟨as, t, hquiet, hrun, hover⟩
    by_contra hnot
    have hstays := unhopeful_run hs hquiet hrun (fun hh => hnot ⟨hh.main, hh.nobody⟩)
    exact hstays (over_hopeful hover)
  · rintro ⟨hmain, hnobody⟩
    exact reaches_of_falls step Quiet (fun v => Sound v ∧ Hopeful v) Over rank
      (fun u hu hnot => hopeful_steps hu.1 hu.2 hnot) s ⟨hs, ⟨hmain, hnobody⟩⟩

/-- While the first of two handlers is in `writeLog`, the second is interrupted,
and so is `main` with a third connection that has no thread yet. -/
def interruptedRun : List Act :=
  [.accept, .malloc, .create true, .accept, .malloc, .create true, .hello 0 true, .hello 1 true,
    .request 0 true, .request 1 true, .lock 0, .accept, .malloc, .interrupt none,
    .interrupt (some 1), .unlock 0, .close 0]

theorem interruptedRun_runs : ∃ s, run step interruptedRun init = some s :=
  Option.isSome_iff_exists.mp (by decide)

theorem sigint_ends_iff_interrupted : ∃ s, run step interruptedRun init = some s ∧
    ((∃ as t, (∀ a ∈ as, Quiet a) ∧ run step as s = some t ∧ Over t) ↔
      (∀ pc, s.threads none ≠ .running pc) ∧ ∀ u, ¬ SelfLocked (s.threads u)) := by
  obtain ⟨s, hs⟩ := interruptedRun_runs
  exact ⟨s, hs, sigint_ends_iff interruptedRun s hs⟩

section Resources

/-- The socket of a connection is open while its thread stands here. -/
def Pc.holds : Pc → Bool
  | connected | allocated | refused | hello | serving | waiting | logging => true
  | _ => false

/-- The cell that the number of the socket is passed in is allocated. -/
def Pc.keeps : Pc → Bool
  | allocated | refused | closed | hello | rejected | serving | waiting | logging | leaving => true
  | _ => false

/-- The socket of the connection is not closed yet, and will not be if the thread
has ended. -/
def Holds (life : Thread) : Prop := ∃ pc, life.place = some pc ∧ pc.holds = true

/-- The same for the cell. -/
def Keeps (life : Thread) : Prop :=
  life = .returned true ∨ ∃ pc, life.place = some pc ∧ pc.keeps = true

/-- The thread that has the connection in hand. -/
def State.holder (s : State) (k : ℕ) : Option ℕ := if k = s.accepted then none else some k

/-- The resource of every connection is as its holder says. -/
def Right (P : Thread → Prop) (f : ℕ → Bool) (s : State) : Prop :=
  ∀ k, f k = true ↔ P (s.threads (s.holder k))

structure Kept (s : State) : Prop where
  sound : Sound s
  sockets : Right Holds s.sockets s
  cells : Right Keeps s.cells s


variable {P : Thread → Prop} {f : ℕ → Bool} {s : State}

theorem holds_running (pc : Pc) : Holds (.running pc) ↔ pc.holds = true := by
  simp [Holds, Thread.place]

theorem keeps_running (pc : Pc) : Keeps (.running pc) ↔ pc.keeps = true := by
  simp [Keeps, Thread.place]

theorem Right.same (h : Right P f s) {u : Option ℕ} {life : Thread}
    (hsame : P life ↔ P (s.threads u)) : Right P f (s.become u life) := by
  intro k
  rw [h k, show (s.become u life).holder k = s.holder k from rfl]
  by_cases hu : s.holder k = u
  · rw [hu, become_self, hsame]
  · rw [become_other s life hu]

theorem Right.set (h : Right P f s) {j : ℕ} {u : Option ℕ} (hu : s.holder j = u) {life : Thread}
    {b : Bool} (hset : b = true ↔ P life) :
    Right P (Function.update f j b) (s.become u life) := by
  subst hu
  intro k
  rw [show (s.become (s.holder j) life).holder k = s.holder k from rfl]
  by_cases hk : k = j
  · subst hk
    rw [Function.update_self, become_self, hset]
  · have hne : s.holder k ≠ s.holder j := by
      unfold State.holder
      split_ifs with hka hja hja
      · exact absurd (hka.trans hja.symm) hk
      · simp
      · simp
      · simpa using hk
    rw [Function.update_of_ne hk, become_other s life hne]
    exact h k

/-- `main` is done with a connection, which now is its handler's, if there is one. -/
theorem Right.next {g : ℕ → Bool} {t : State} (hs : Sound s) (h : Right P f s)
    (hcount : t.accepted = s.accepted+1) (hidle : ¬ P (t.threads none)) (habsent : ¬ P .absent)
    (hown : g s.accepted = true ↔ P (t.threads (some s.accepted)))
    (hothers : ∀ k ≠ s.accepted, g k = f k ∧ t.threads (some k) = s.threads (some k)) :
    Right P g t := by
  intro k
  have hold := h k
  rw [State.holder] at hold
  rw [State.holder, hcount]
  rcases lt_trichotomy k s.accepted with hk | rfl | hk
  · obtain ⟨hg, hsame⟩ := hothers k hk.ne
    rw [if_neg (by omega)] at hold ⊢
    rw [hg, hsame, hold]
  · rwa [if_neg (Nat.succ_ne_self _).symm]
  · obtain ⟨hg, hsame⟩ := hothers k hk.ne'
    have hgone : s.threads (some k) = .absent := (hs.placed (some k)).1 hk.le
    rw [if_neg (by omega), hgone] at hold
    refine iff_of_false (fun hf => habsent (hold.mp (by rwa [← hg]))) ?_
    split_ifs
    · exact hidle
    · rwa [hsame, hgone]

theorem Kept.create (hs : Kept s) (h : s.threads none = .running .allocated)
    (hnext : Sound ((s.become none (.running .accepting)).become (some s.accepted)
      (.running .hello)).next) :
    Kept ((s.become none (.running .accepting)).become (some s.accepted)
      (.running .hello)).next := by
  obtain ⟨hsound, hsockets, hcells⟩ := hs
  have hmain : s.holder s.accepted = none := if_pos rfl
  have hothers (k : ℕ) (hk : k ≠ s.accepted) :
      (((s.become none (.running .accepting)).become (some s.accepted)
        (.running .hello)).next).threads (some k) = s.threads (some k) := by
    rw [next_threads, become_other _ _ (by simpa using hk), become_other _ _ (by simp)]
  have hsocket := (hsockets s.accepted).mpr (by simp [hmain, h, holds_running, Pc.holds])
  have hcell := (hcells s.accepted).mpr (by simp [hmain, h, keeps_running, Pc.keeps])
  refine ⟨hnext, hsockets.next hsound rfl ?_ (by simp [Holds, Thread.place]) ?_
    (fun k hk => ⟨rfl, hothers k hk⟩), hcells.next hsound rfl ?_
    (by simp [Keeps, Thread.place]) ?_ (fun k hk => ⟨rfl, hothers k hk⟩)⟩
  · rw [next_threads, become_other _ _ (by simp), become_self, holds_running]
    decide
  · rw [next_threads, become_self, holds_running]
    exact iff_of_true hsocket rfl
  · rw [next_threads, become_other _ _ (by simp), become_self, keeps_running]
    decide
  · rw [next_threads, become_self, keeps_running]
    exact iff_of_true hcell rfl

theorem Kept.freeRefused (hs : Kept s) (h : s.threads none = .running .closed)
    (hnext : Sound ((s.setCell s.accepted false).become none (.running .accepting)).next) :
    Kept ((s.setCell s.accepted false).become none (.running .accepting)).next := by
  obtain ⟨hsound, hsockets, hcells⟩ := hs
  have hmain : s.holder s.accepted = none := if_pos rfl
  have hothers (k : ℕ) : (((s.setCell s.accepted false).become none
      (.running .accepting)).next).threads (some k) = s.threads (some k) := by
    rw [next_threads, become_other _ _ (by simp), setCell_threads]
  have habsent : s.threads (some s.accepted) = .absent :=
    (hsound.placed (some s.accepted)).1 (le_refl _)
  have hsocket : ¬ s.sockets s.accepted = true := by
    rw [hsockets s.accepted, hmain, h, holds_running]
    decide
  refine ⟨hnext, hsockets.next hsound rfl ?_ (by simp [Holds, Thread.place]) ?_
    (fun k hk => ⟨rfl, hothers k⟩), hcells.next hsound rfl ?_
    (by simp [Keeps, Thread.place]) ?_ (fun k hk => ⟨?_, hothers k⟩)⟩
  · rw [next_threads, become_self, holds_running]
    decide
  · rw [hothers, habsent]
    exact iff_of_false hsocket (by simp [Holds, Thread.place])
  · rw [next_threads, become_self, keeps_running]
    decide
  · rw [hothers, habsent]
    exact iff_of_false (by simp [State.next, State.become, State.setCell])
      (by simp [Keeps, Thread.place])
  · exact Function.update_of_ne hk _ _

end Resources

end CSE344.BoxSignals
