import SystemProgramming.Admission
import SystemProgramming.Stdio

/-!
# The connected flag of the midterm client

The main program of the client with its signal handler, next to the queue of
the server whose PID is the second argument. A signal may reach the client at
any time and from anybody. `server_pid` is a global variable that is still 0
when the first calls of `kill` are made, and `kill(0, ..)` signals the whole
process group, the caller included.
-/

set_option autoImplicit false

namespace CSE344.ClientSignals
open CString TransitionRun

/-- `me` and `group` are the PID of the client and that of its process group. -/
structure Config where
  argv1 : Bytes
  argv2 : Bytes
  me : ℤ
  group : ℤ
  positive : 0 < me

/-- Where `main` stands: `calls n` has `n` calls of `connect_server` or
`try_connect_server` to make before it stores the PID of the server. -/
inductive Pc where
  | start
  | calls (n : ℕ)
  | loop
  | exited
  deriving DecidableEq, Repr

/-- `sent` is a history: the PIDs that the client has passed to `kill`. -/
structure State where
  pc : Pc
  serverPid : ℤ
  connected : Bool
  sent : List ℤ
  server : Admission.State

def init (cells : ℤ → ℤ) : State := ⟨.start, 0, false, [], Admission.init cells⟩

inductive Signal where
  | sigint
  | sigusr1
  | sigusr2
  deriving DecidableEq, Repr

inductive Act where
  | client (line : Bytes)
  | deliver (sig : Signal)
  | server (a : Admission.Act)
  deriving DecidableEq, Repr

def handleSignal (sig : Signal) (s : State) : State :=
  match sig with
  | .sigint => { s with pc := .exited }
  | .sigusr1 => { s with connected := true }
  | .sigusr2 => { s with connected := false }

variable (cfg : Config)

/-- Whether `kill` with this PID signals the caller too. -/
def reachesSelf (pid : ℤ) : Bool := pid = 0 ∨ pid = cfg.me ∨ (pid = -cfg.group ∧ pid ≠ -1)

/-- `connect_server` and `try_connect_server`; a signal to itself is handled
before `kill` returns. -/
def connectServer (s : State) : State :=
  let s' := { s with sent := s.sent ++ [s.serverPid] }
  if reachesSelf cfg s.serverPid then handleSignal .sigusr1 s' else s'

def isConnect (text : Bytes) : Bool := text = ascii "connect" ∨ text = ascii "tryConnect"

def isLast (text : Bytes) : Bool := text = ascii "quit" ∨ text = ascii "killServer"

/-- One step of `main`; in the loop it reads a line. -/
def clientStep (line : Bytes) (s : State) : Option State :=
  match s.pc with
  | .start =>
    if cfg.argv1 = ascii "connect" then some { s with pc := .calls 1 }
    else if cfg.argv1 = ascii "tryConnect" then some { s with pc := .calls 2 }
    else some { s with pc := .exited }
  | .calls (n+1) => some { connectServer cfg s with pc := .calls n }
  | .calls 0 => some { s with serverPid := Stdio.atoi cfg.argv2, pc := .loop }
  | .loop =>
    if s.connected then some { s with pc := if isLast line then .exited else .loop }
    else some (if isConnect line then connectServer cfg s else s)
  | .exited => none

/-- The client lives while all this happens, so no child of the server gets its PID. -/
def step (a : Act) (s : State) : Option State :=
  match a with
  | .client line => clientStep cfg line s
  | .deliver sig => some (handleSignal sig s)
  | .server (.main child) =>
    if child = cfg.me then none
    else (Admission.step (.main child) s.server).map (fun u => { s with server := u })
  | .server b => (Admission.step b s.server).map (fun u => { s with server := u })

/-- The last thing the server did about this PID was to store it. -/
def Enqueued (s : State) : Prop :=
  ∃ e ∈ (s.server.handled.filter (fun e => e.pid = cfg.me)).getLast?, e.stored = true

/-- Connected means accepted, and signals go to the server. -/
structure Right (s : State) : Prop where
  accepted : s.connected = true → Enqueued cfg s
  target : ∀ k ∈ s.sent, k = Stdio.atoi cfg.argv2

/-- No SIGUSR1 reaches the client and it does not come to its first `kill`. -/
def Calm (a : Act) (s : State) : Prop :=
  match a with
  | .client _ => ∀ n, s.pc ≠ .calls n
  | .deliver sig => sig ≠ .sigusr1
  | .server _ => True

/-- What holds as long as nothing has gone wrong. -/
structure Before (s : State) : Prop where
  pc : s.pc = .start ∨ s.pc = .exited ∨ ∃ n, s.pc = .calls (n+1)
  serverPid : s.serverPid = 0
  connected : s.connected = false
  sent : s.sent = []
  stranger : ∀ e ∈ s.server.handled, e.pid ≠ cfg.me
  recorded : Admission.Recorded s.server
  living : cfg.me ∉ s.server.running ∧ cfg.me ∉ s.server.terminated

theorem before_init (cells : ℤ → ℤ) : Before cfg (init cells) where
  pc := Or.inl rfl
  serverPid := rfl
  connected := rfl
  sent := rfl
  stranger _ h := by cases h
  recorded := Admission.recorded_init cells
  living := ⟨List.not_mem_nil, List.not_mem_nil⟩

variable {cfg} {s t : State}

theorem Before.right (h : Before cfg s) : Right cfg s where
  accepted hc := by
    rw [h.connected] at hc
    cases hc
  target k hk := by
    rw [h.sent] at hk
    cases hk

theorem not_enqueued (h : ∀ e ∈ s.server.handled, e.pid ≠ cfg.me) : ¬ Enqueued cfg s := by
  rintro ⟨e, he, -⟩
  obtain ⟨hmem, hpid⟩ := List.mem_filter.mp (List.mem_of_getLast? he)
  exact h e hmem (by simpa using hpid)

theorem children_step {b : Admission.Act} {u v : Admission.State} {me : ℤ}
    (hb : b ≠ .main me) (hu : me ∉ u.running ∧ me ∉ u.terminated)
    (h : Admission.step b u = some v) : me ∉ v.running ∧ me ∉ v.terminated := by
  have hwait {r : ℤ} {w : Admission.State} (hw : Admission.waitpid r u = some w) :
      w.running = u.running ∧ w.terminated = u.terminated := by
    obtain ⟨-, rfl⟩ | ⟨-, rfl⟩ := Admission.waitpid_cases hw <;> exact ⟨rfl, rfl⟩
  cases b with
  | main child =>
    have hne : me ≠ child := fun heq => hb (heq ▸ rfl)
    simp only [Admission.step] at h
    split at h
    · simp only [Option.map_eq_some_iff, Admission.fork] at h
      obtain ⟨w, hw, rfl⟩ := h
      split_ifs at hw <;> cases hw
      · exact hu
      · exact ⟨fun hm => (List.mem_cons.mp hm).elim hne hu.1, hu.2⟩
    · cases h
      exact hu
  | exit child =>
    obtain ⟨hchild, rfl⟩ := guarded_iff.mp h
    have hne : me ≠ child := fun heq => hu.1 (heq ▸ hchild)
    refine ⟨fun hm => hu.1 (List.mem_of_mem_erase hm), fun hm => ?_⟩
    rcases List.mem_append.mp hm with hm | hm
    · exact hu.2 hm
    · exact hne (List.mem_singleton.mp hm)
  | sigchld r =>
    simp only [Admission.step, Option.ite_none_right_eq_some] at h
    obtain ⟨hrunning, hterminated⟩ := hwait h.2
    rwa [hrunning, hterminated]
  | sigusr1 client r =>
    simp only [Admission.step, Option.ite_none_right_eq_some, Option.map_eq_some_iff] at h
    obtain ⟨-, w, hw, rfl⟩ := h
    obtain ⟨hrunning, hterminated⟩ := hwait hw
    exact ⟨hrunning ▸ hu.1, hterminated ▸ hu.2⟩

/-- What `enqueue` gets is never the PID of a living stranger. -/
theorem stranger_of_recorded {u : Admission.State} (h : Admission.Recorded u)
    (hliving : cfg.me ∉ u.terminated) : ∀ e ∈ u.handled, e.pid ≠ cfg.me := by
  intro e he heq
  have hpos := cfg.positive
  rcases h.origin e he with ho | ho | ho
  · omega
  · omega
  · exact hliving (heq ▸ ho)

theorem before_server {b : Admission.Act} {u : Admission.State} (hs : Before cfg s)
    (hb : b ≠ .main cfg.me) (h : Admission.step b s.server = some u) :
    Before cfg { s with server := u } := by
  have hrec := Admission.recorded_step b s.server u hs.recorded h
  have hliving := children_step hb hs.living h
  exact ⟨hs.pc, hs.serverPid, hs.connected, hs.sent, stranger_of_recorded hrec hliving.2, hrec,
    hliving⟩

theorem server_step {b : Admission.Act} (h : step cfg (.server b) s = some t) :
    b ≠ .main cfg.me ∧ ∃ u, Admission.step b s.server = some u ∧ t = { s with server := u } := by
  cases b with
  | main child =>
    simp only [step, Option.ite_none_left_eq_some, Option.map_eq_some_iff] at h
    obtain ⟨hne, u, hu, rfl⟩ := h
    exact ⟨fun heq => hne (Admission.Act.main.inj heq), u, hu, rfl⟩
  | _ =>
    simp only [step, Option.map_eq_some_iff] at h
    obtain ⟨u, hu, rfl⟩ := h
    exact ⟨nofun, u, hu, rfl⟩

theorem before_step (a : Act) (hs : Before cfg s) (hc : Calm a s) (h : step cfg a s = some t) :
    Before cfg t := by
  cases a with
  | client line =>
    simp only [step, clientStep] at h
    rcases hs.pc with hpc | hpc | ⟨n, hpc⟩
    · rw [hpc] at h
      dsimp only at h
      split_ifs at h <;> cases h
      · exact { hs with pc := Or.inr (Or.inr ⟨0, rfl⟩) }
      · exact { hs with pc := Or.inr (Or.inr ⟨1, rfl⟩) }
      · exact { hs with pc := Or.inr (Or.inl rfl) }
    · rw [hpc] at h
      cases h
    · exact absurd hpc (hc (n+1))
  | deliver sig =>
    cases h
    cases sig with
    | sigint => exact { hs with pc := Or.inr (Or.inl rfl) }
    | sigusr1 => exact absurd rfl hc
    | sigusr2 => exact { hs with connected := rfl }
  | server b =>
    obtain ⟨hb, u, hu, rfl⟩ := server_step h
    exact before_server hs hb hu

/-- The first `kill` and every other SIGUSR1 set the flag although the server
has not stored the client. -/
theorem wrong_step (a : Act) (hs : Before cfg s) (hc : ¬ Calm a s) (h : step cfg a s = some t) :
    ¬ Right cfg t := by
  intro hr
  have hstranger (u : State) (hu : u.server = s.server) : ¬ Enqueued cfg u :=
    not_enqueued (by rw [hu]; exact hs.stranger)
  cases a with
  | client line =>
    simp only [Calm, not_forall, not_not] at hc
    obtain ⟨n, hpc⟩ := hc
    rcases hs.pc with hpc' | hpc' | ⟨m, hpc'⟩
    · rw [hpc] at hpc'
      cases hpc'
    · rw [hpc] at hpc'
      cases hpc'
    · have hself : reachesSelf cfg s.serverPid = true := by simp [reachesSelf, hs.serverPid]
      simp only [step, clientStep, hpc', connectServer, hself, if_true] at h
      cases h
      exact hstranger _ rfl (hr.accepted rfl)
  | deliver sig =>
    simp only [Calm, not_not] at hc
    subst hc
    cases h
    exact hstranger _ rfl (hr.accepted rfl)
  | server b => exact hc trivial

/-- Connected means accepted throughout a run exactly if the run stops before
the client's first `kill` and no SIGUSR1 is delivered to the client. -/
theorem connected_iff_calm (cfg : Config) (cells : ℤ → ℤ) (as : List Act) (t : State)
    (h : run (step cfg) as (init cells) = some t) :
    Throughout (step cfg) (Right cfg) as (init cells) ↔ Meets (step cfg) Calm as (init cells) := by
  apply throughout_iff_meets (step cfg) Calm (Right cfg) (Before cfg) _ _ as _ t
    (before_init cfg cells).right (before_init cfg cells) h
  · intro a u v _ hu hv
    constructor
    · intro hr
      by_contra hc
      exact wrong_step a hu hc hv hr
    · exact fun hc => (before_step a hu hc hv).right
  · exact fun a u v _ hu hc hv => before_step a hu hc hv

def connects : Config where
  argv1 := ascii "connect"
  argv2 := ascii "100"
  me := 50
  group := 50
  positive := by decide

theorem connected_iff_calm_connects :
    Throughout (step connects) (Right connects) [.client []] (init fun _ => 0) ↔
      Meets (step connects) Calm [.client []] (init fun _ => 0) :=
  connected_iff_calm connects _ [.client []] _ rfl

/-- Two steps of the client alone: the signal went to PID 0, and the client is
connected although no server has handled anything. -/
theorem connected_alone : ∃ t, run (step connects) [.client [], .client []] (init fun _ => 0) =
      some t ∧ ¬ Right connects t ∧ t.connected = true ∧ t.sent = [0] ∧
      Stdio.atoi connects.argv2 = 100 ∧ t.server.handled = [] :=
  ⟨_, rfl, fun hr => absurd (hr.target 0 (by decide)) (by decide), rfl, rfl, by decide, rfl⟩

end CSE344.ClientSignals
