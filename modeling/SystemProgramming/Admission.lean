import SystemProgramming.ClientQueue

/-!
# Who is admitted to the queue

The main loop and the queue together with the children of the server. A
SIGUSR1 handler asks `waitpid(-1, NULL, WNOHANG)` for the PID that it passes to
`enqueue`: the PID of a child that has terminated and was not waited for, 0
when all children run, -1 when there are none. What `kill` does to its
receivers is left out, its argument is recorded.
-/

set_option autoImplicit false

namespace CSE344.Admission
open TransitionRun ClientQueue

/-- One run of the SIGUSR1 handler: who sent the signal, the argument of
`enqueue`, and whether it was stored or passed to `kill`. -/
structure Handling where
  client : ℤ
  pid : ℤ
  stored : Bool
  deriving DecidableEq, Repr

/-- `installed` says that SIGCHLD has a handler. `terminated` and `handled`
are histories. -/
structure State where
  core : ClientQueue.State
  running : List ℤ
  zombies : List ℤ
  installed : Bool
  terminated : List ℤ
  handled : List Handling

def init (cells : ℤ → ℤ) : State := ⟨ClientQueue.init cells, [], [], false, [], []⟩

/-- `waitpid(-1, NULL, WNOHANG)` returning `r`. -/
def waitpid (r : ℤ) (s : State) : Option State :=
  if r ∈ s.zombies then some { s with zombies := s.zombies.erase r }
  else if s.zombies = [] ∧ r = (if s.running = [] then -1 else 0) then some s
  else none

/-- `fork` returning `child` to the main loop, and what `main` does then. -/
def fork (child : ℤ) (s : State) : Option State :=
  if child = -1 then some s
  else if 0 < child ∧ child ∉ s.running ∧ child ∉ s.zombies then
    some { s with running := child::s.running, installed := true }
  else none

inductive Act where
  | main (child : ℤ)
  | exit (child : ℤ)
  | sigchld (r : ℤ)
  | sigusr1 (client r : ℤ)
  deriving DecidableEq, Repr

/-- `handle_signal` for SIGUSR1 after its `waitpid`. -/
def handleUsr1 (client pid : ℤ) (s : State) : State :=
  { s with
    core := enqueue pid s.core
    handled := s.handled ++ [⟨client, pid, !isFull s.core.shm⟩] }

/-- A client is a live process and no child of the server, so its PID is none
of theirs. -/
def step : Act → State → Option State
  | .main child, s => match s.core.pc with
    | .fork _ => (fork child s).map (fun s => { s with core := mainStep s.core })
    | _ => some { s with core := mainStep s.core }
  | .exit child, s =>
    if child ∈ s.running then
      some { s with
        running := s.running.erase child
        zombies := s.zombies ++ [child]
        terminated := s.terminated ++ [child] }
    else none
  | .sigchld r, s => if s.installed then waitpid r s else none
  | .sigusr1 client r, s =>
    if 0 < client ∧ client ∉ s.running ∧ client ∉ s.zombies then
      (waitpid r s).map (handleUsr1 client r)
    else none

/-- Each signal concerns its sender, and what was stored or passed to `kill`
is the PID of a sender and of no terminated child. -/
structure Admits (s : State) : Prop where
  sender : ∀ e ∈ s.handled, e.pid = e.client
  positive : ∀ e ∈ s.handled, 0 < e.pid
  asked : ∀ e ∈ s.handled, ∃ g ∈ s.handled, g.client = e.pid
  alive : ∀ e ∈ s.handled, e.pid ∉ s.terminated
  not_empty : ∀ e ∈ s.handled, e.stored = true → e.pid ≠ -1

def asks : Act → Bool
  | .sigusr1 _ _ => true
  | _ => false

theorem waitpid_cases {r : ℤ} {s t : State} (h : waitpid r s = some t) :
    (r ∈ s.zombies ∧ t = { s with zombies := s.zombies.erase r }) ∨
      ((r = -1 ∨ r = 0) ∧ t = s) := by
  unfold waitpid at h
  split_ifs at h with hz hn hr
  · exact .inl ⟨hz, by simpa using h.symm⟩
  · exact .inr ⟨.inl (by simp_all), by simpa using h.symm⟩
  · exact .inr ⟨.inr (by simp_all), by simpa using h.symm⟩

/-- What a SIGUSR1 handler does: its `waitpid` has named a child or nobody. -/
theorem sigusr1_cases {client r : ℤ} {s t : State} (h : step (.sigusr1 client r) s = some t) :
    0 < client ∧ client ∉ s.zombies ∧
      ((r ∈ s.zombies ∧ t = handleUsr1 client r { s with zombies := s.zombies.erase r }) ∨
        ((r = -1 ∨ r = 0) ∧ t = handleUsr1 client r s)) := by
  simp only [step, Option.ite_none_right_eq_some, Option.map_eq_some_iff] at h
  obtain ⟨⟨hpos, -, hz⟩, u, hu, rfl⟩ := h
  obtain ⟨hr, rfl⟩ | ⟨hr, rfl⟩ := waitpid_cases hu
  · exact ⟨hpos, hz, .inl ⟨hr, rfl⟩⟩
  · exact ⟨hpos, hz, .inr ⟨hr, rfl⟩⟩

/-- The other steps touch neither the queue's history nor the records, and a
child is among the terminated before it is waited for. -/
theorem other_cases {a : Act} {s t : State} (ha : asks a = false) (h : step a s = some t) :
    t.handled = s.handled ∧ t.core.accepted = s.core.accepted ∧
      (∀ z ∈ s.terminated, z ∈ t.terminated) ∧
      ((∀ z ∈ s.zombies, z ∈ s.terminated) → ∀ z ∈ t.zombies, z ∈ t.terminated) := by
  have hmain (u : ClientQueue.State) : (mainStep u).accepted = u.accepted := by
    unfold mainStep
    cases u.pc <;> rfl
  cases a with
  | main child =>
    simp only [step] at h
    split at h
    · simp only [Option.map_eq_some_iff, fork] at h
      obtain ⟨u, hu, rfl⟩ := h
      split_ifs at hu <;> cases hu <;> exact ⟨rfl, hmain _, fun _ hz => hz, fun hk => hk⟩
    · cases h
      exact ⟨rfl, hmain _, fun _ hz => hz, fun hk => hk⟩
  | exit child =>
    obtain ⟨-, rfl⟩ := guarded_iff.mp h
    refine ⟨rfl, rfl, fun z hz => List.mem_append_left _ hz, fun hk z hz => ?_⟩
    rcases List.mem_append.mp hz with hz | hz
    · exact List.mem_append_left _ (hk z hz)
    · exact List.mem_append_right _ hz
  | sigchld r =>
    simp only [step, Option.ite_none_right_eq_some] at h
    obtain ⟨-, rfl⟩ | ⟨-, rfl⟩ := waitpid_cases h.2
    · exact ⟨rfl, rfl, fun _ hz => hz, fun hk z hz => hk z (List.mem_of_mem_erase hz)⟩
    · exact ⟨rfl, rfl, fun _ hz => hz, fun hk => hk⟩
  | sigusr1 client r => cases ha

/-- What the records say in every reachable state: the PIDs that `enqueue` got
are never those of the senders, and those it stored are what the queue got. -/
structure Recorded (s : State) : Prop where
  waited : ∀ z ∈ s.zombies, z ∈ s.terminated
  stray : ∀ e ∈ s.handled, e.pid ≠ e.client
  origin : ∀ e ∈ s.handled, e.pid = -1 ∨ e.pid = 0 ∨ e.pid ∈ s.terminated
  queued : s.core.accepted = (s.handled.filter Handling.stored).map Handling.pid

theorem recorded_init (cells : ℤ → ℤ) : Recorded (init cells) where
  waited _ h := by cases h
  stray _ h := by cases h
  origin _ h := by cases h
  queued := rfl

theorem recorded_handleUsr1 {client r : ℤ} {s : State} (h : Recorded s) (hne : r ≠ client)
    (hr : r = -1 ∨ r = 0 ∨ r ∈ s.terminated) : Recorded (handleUsr1 client r s) where
  waited := h.waited
  stray e he := by
    rcases List.mem_append.mp he with he | he
    · exact h.stray e he
    · rw [List.mem_singleton.mp he]
      exact hne
  origin e he := by
    rcases List.mem_append.mp he with he | he
    · exact h.origin e he
    · rw [List.mem_singleton.mp he]
      exact hr
  queued := by
    have hq := h.queued
    simp only [handleUsr1, enqueue]
    cases hfull : isFull s.core.shm with
    | true => simpa using hq
    | false => simp [hq]

theorem recorded_step (a : Act) (s t : State) (h : Recorded s) (hs : step a s = some t) :
    Recorded t := by
  cases ha : asks a with
  | false =>
    obtain ⟨hh, hacc, hterm, hwait⟩ := other_cases ha hs
    refine ⟨hwait h.waited, ?_, ?_, ?_⟩
    · rw [hh]
      exact h.stray
    · rw [hh]
      exact fun e he => (h.origin e he).imp_right (fun ho => ho.imp_right (hterm _))
    · rw [hh, hacc]
      exact h.queued
  | true =>
    cases a with
    | sigusr1 client r =>
      obtain ⟨hpos, hz, ⟨hr, rfl⟩ | ⟨hr, rfl⟩⟩ := sigusr1_cases hs
      · have hw : Recorded { s with zombies := s.zombies.erase r } :=
          ⟨fun z hm => h.waited z (List.mem_of_mem_erase hm), h.stray, h.origin, h.queued⟩
        apply recorded_handleUsr1 hw
        · rintro rfl
          exact hz hr
        · exact .inr (.inr (h.waited r hr))
      · apply recorded_handleUsr1 h
        · omega
        · exact hr.imp_right .inl
    | _ => cases ha

theorem recorded_run (cells : ℤ → ℤ) (as : List Act) (t : State)
    (h : run step as (init cells) = some t) : Recorded t :=
  run_invariant step Recorded recorded_step as (init cells) t (recorded_init cells) h

theorem handled_length (as : List Act) (s t : State) (h : run step as s = some t) :
    (t.handled.length:ℤ) = s.handled.length ↔ ∀ a ∈ as, asks a = false := by
  rw [← meets_labels_iff step _ as s t h]
  apply (meets_iff_of_drift step _ (fun s => (s.handled.length:ℤ)) _ _ as s t h).2
  · intro a u v ha hv
    rw [(other_cases ha hv).1]
  · intro a u v ha hv
    cases a with
    | sigusr1 client r =>
      obtain ⟨-, -, ⟨-, rfl⟩ | ⟨-, rfl⟩⟩ := sigusr1_cases hv <;> simp [handleUsr1]
    | _ => exact absurd rfl ha

/-- Admission concerns the client that asked in just those runs in which
nobody asks. -/
theorem admits_iff_silent (cells : ℤ → ℤ) (as : List Act) (t : State)
    (h : run step as (init cells) = some t) : Admits t ↔ ∀ a ∈ as, asks a = false := by
  rw [← handled_length as _ t h]
  have hr := recorded_run cells as t h
  constructor
  · intro hadm
    cases hh : t.handled with
    | nil => rfl
    | cons e es =>
      have he : e ∈ t.handled := by simp [hh]
      exact absurd (hadm.sender e he) (hr.stray e he)
  · intro hlen
    have hnil : t.handled = [] := by simpa [init] using hlen
    constructor <;> simp [hnil]

/-- A client asks before any child exists, a second one after the child that
served the first has terminated. -/
def twoClients : List Act :=
  [Act.sigusr1 50 (-1)] ++ List.replicate 8 (Act.main (-1)) ++
    [Act.main 60, .exit 60, .sigusr1 70 60]

theorem admits_iff_silent_twoClients : ∃ t, run step twoClients (init fun _ => 0) = some t ∧
    (Admits t ↔ ∀ a ∈ twoClients, asks a = false) :=
  ⟨_, rfl, admits_iff_silent _ twoClients _ rfl⟩

/-- The queue was given -1 and the PID of the terminated child. -/
theorem twoClients_stray : ∃ t, run step twoClients (init fun _ => 0) = some t ∧ ¬ Admits t ∧
    t.handled = [⟨50, -1, true⟩, ⟨70, 60, true⟩] ∧ t.core.accepted = [-1, 60] ∧
    t.terminated = [60] :=
  ⟨_, rfl, fun h => absurd (h.sender ⟨50, -1, true⟩ (by decide)) (by decide), rfl, rfl, rfl⟩

end CSE344.Admission
