import SystemProgramming.BoxGone
import SystemProgramming.TransitionRun

/-!
# Who releases the BibakBOX client's socket

The main thread and the synchronize thread share one descriptor, which the
second is given in a heap cell, and each has code that closes the descriptor
and frees the cell. A cancel request is acted upon at a cancellation point:
`send`, `recv`, `sleep` and `close` do not go on when one is pending, and the
directory calls may or may not. `SIGINT`, which ends the process wherever it
stands, is left out.
-/

set_option autoImplicit false

namespace CSE344.BoxRelease
open CString BoxClient BoxGone TransitionRun

/-- How often something was released, and how often it was used after that. -/
structure Resource where
  released : ℕ
  late : ℕ
  deriving DecidableEq, Repr

def Resource.use (r : Resource) : Resource :=
  if r.released = 0 then r else { r with late := r.late+1 }

def Resource.release (r : Resource) : Resource := { r with released := r.released+1 }

inductive Main where
  | create
  | loop
  | sending (rest : List Bytes)
  | cancel
  | join
  | close
  | free
  | returned
  | failClose
  | failFree
  | failed
  deriving DecidableEq

/-- `pass` holds the calls of a pass that are still to come. -/
inductive Sync where
  | absent
  | start
  | hello (rest : List Bytes)
  | top
  | pass (calls : List Event)
  | sleeping
  | leaving
  | freeing
  | returned
  | cancelled
  deriving DecidableEq

structure Config where
  clientDir : CStr
  listing : List CStr

/-- `cell` is what `syncSocket` points to, `socket` the descriptor `clientSocket`. -/
structure State where
  main : Main
  sync : Sync
  cancelRequested : Bool
  cell : Resource
  socket : Resource
  deriving DecidableEq

/-- The socket is connected, and the cell allocated and set. -/
def init : State := ⟨.create, .absent, false, ⟨0, 0⟩, ⟨0, 0⟩⟩

inductive Act where
  | create (ok : Bool)
  | command (c : Command)
  | mainSend
  | sent
  | exit
  | cancel
  | join
  | mainClose
  | mainFree
  | readArg
  | syncSend
  | listed
  | opendir (entries : Option (List Visit))
  | syncCall
  | closedir
  | wake
  | syncClose
  | syncFree
  | acted

/-- Where a pending cancel request may be acted upon. -/
def cancellable : Sync → Bool
  | .hello rest => rest ≠ []
  | .top => true
  | .pass _ => true
  | .sleeping => true
  | .leaving => true
  | _ => false

def stepMain : Act → State → Option State
  | .create ok, s => match s.main with
    | .create =>
        if ok then some { s with main := .loop, sync := .start }
        else some { s with main := .failClose }
    | _ => none
  | .command c, s => match s.main with
    | .loop => some { s with main := .sending c.sends }
    | _ => none
  | .mainSend, s => match s.main with
    | .sending (_::rest) => some { s with main := .sending rest, socket := s.socket.use }
    | _ => none
  | .sent, s => match s.main with
    | .sending [] => some { s with main := .loop }
    | _ => none
  | .exit, s => match s.main with
    | .loop => some { s with main := .cancel }
    | _ => none
  | .cancel, s => match s.main with
    | .cancel => some { s with main := .join, cancelRequested := true }
    | _ => none
  | .join, s => match s.main, s.sync with
    | .join, .returned => some { s with main := .close }
    | .join, .cancelled => some { s with main := .close }
    | _, _ => none
  | .mainClose, s => match s.main with
    | .close => some { s with main := .free, socket := s.socket.release }
    | .failClose => some { s with main := .failFree, socket := s.socket.release }
    | _ => none
  | .mainFree, s => match s.main with
    | .free => some { s with main := .returned, cell := s.cell.release }
    | .failFree => some { s with main := .failed, cell := s.cell.release }
    | _ => none
  | _, _ => none

def stepSync (cfg : Config) : Act → State → Option State
  | .readArg, s => match s.sync with
    | .start => some { s with sync := .hello (hello cfg.clientDir cfg.listing), cell := s.cell.use }
    | _ => none
  | .syncSend, s => match s.sync, s.cancelRequested with
    | .hello (_::rest), false => some { s with sync := .hello rest, socket := s.socket.use }
    | _, _ => none
  | .listed, s => match s.sync with
    | .hello [] => some { s with sync := .top }
    | _ => none
  | .opendir entries, s => match s.sync with
    | .top => match entries with
      | none => some { s with sync := .leaving }
      | some vs => some { s with sync := .pass (passEvents cfg.clientDir vs) }
    | _ => none
  | .syncCall, s => match s.sync, s.cancelRequested with
    | .pass (_::calls), false => some { s with sync := .pass calls, socket := s.socket.use }
    | _, _ => none
  | .closedir, s => match s.sync with
    | .pass [] => some { s with sync := .sleeping }
    | _ => none
  | .wake, s => match s.sync, s.cancelRequested with
    | .sleeping, false => some { s with sync := .top }
    | _, _ => none
  | .syncClose, s => match s.sync, s.cancelRequested with
    | .leaving, false => some { s with sync := .freeing, socket := s.socket.release }
    | _, _ => none
  | .syncFree, s => match s.sync with
    | .freeing => some { s with sync := .returned, cell := s.cell.release }
    | _ => none
  | .acted, s =>
    if s.cancelRequested = true ∧ cancellable s.sync = true then some { s with sync := .cancelled }
    else none
  | _, _ => none

/-- One step of one of the two threads. -/
def step (cfg : Config) (a : Act) (s : State) : Option State :=
  (stepMain a s).or (stepSync cfg a s)

/-- What is left of the synchronize thread when the main thread goes on to `close`. -/
def gone : Sync → Bool
  | .returned => true
  | .cancelled => true
  | .absent => true
  | _ => false

/-- Everything a step can do. -/
inductive Move (cfg : Config) (s : State) : Act → State → Prop
  | created (hm : s.main = .create) :
      Move cfg s (.create true) { s with main := .loop, sync := .start }
  | notCreated (hm : s.main = .create) : Move cfg s (.create false) { s with main := .failClose }
  | command (c : Command) (hm : s.main = .loop) :
      Move cfg s (.command c) { s with main := .sending c.sends }
  | mainSend (b : Bytes) (rest : List Bytes) (hm : s.main = .sending (b::rest)) :
      Move cfg s .mainSend { s with main := .sending rest, socket := s.socket.use }
  | sent (hm : s.main = .sending []) : Move cfg s .sent { s with main := .loop }
  | exit (hm : s.main = .loop) : Move cfg s .exit { s with main := .cancel }
  | cancel (hm : s.main = .cancel) :
      Move cfg s .cancel { s with main := .join, cancelRequested := true }
  | join (hm : s.main = .join) (hs : gone s.sync = true) :
      Move cfg s .join { s with main := .close }
  | close (hm : s.main = .close) :
      Move cfg s .mainClose { s with main := .free, socket := s.socket.release }
  | failClose (hm : s.main = .failClose) :
      Move cfg s .mainClose { s with main := .failFree, socket := s.socket.release }
  | free (hm : s.main = .free) :
      Move cfg s .mainFree { s with main := .returned, cell := s.cell.release }
  | failFree (hm : s.main = .failFree) :
      Move cfg s .mainFree { s with main := .failed, cell := s.cell.release }
  | readArg (hs : s.sync = .start) : Move cfg s .readArg
      { s with sync := .hello (hello cfg.clientDir cfg.listing), cell := s.cell.use }
  | syncSend (b : Bytes) (rest : List Bytes) (hs : s.sync = .hello (b::rest)) :
      Move cfg s .syncSend { s with sync := .hello rest, socket := s.socket.use }
  | listed (hs : s.sync = .hello []) : Move cfg s .listed { s with sync := .top }
  | opendirFails (hs : s.sync = .top) : Move cfg s (.opendir none) { s with sync := .leaving }
  | opendir (vs : List Visit) (hs : s.sync = .top) : Move cfg s (.opendir (some vs))
      { s with sync := .pass (passEvents cfg.clientDir vs) }
  | syncCall (e : Event) (calls : List Event) (hs : s.sync = .pass (e::calls)) :
      Move cfg s .syncCall { s with sync := .pass calls, socket := s.socket.use }
  | closedir (hs : s.sync = .pass []) : Move cfg s .closedir { s with sync := .sleeping }
  | wake (hs : s.sync = .sleeping) : Move cfg s .wake { s with sync := .top }
  | syncClose (hs : s.sync = .leaving) (hc : s.cancelRequested = false) :
      Move cfg s .syncClose { s with sync := .freeing, socket := s.socket.release }
  | syncFree (hs : s.sync = .freeing) :
      Move cfg s .syncFree { s with sync := .returned, cell := s.cell.release }
  | acted (hs : cancellable s.sync = true) (hc : s.cancelRequested = true) :
      Move cfg s .acted { s with sync := .cancelled }

theorem stepMain_move (cfg : Config) (a : Act) (s t : State) (h : stepMain a s = some t) :
    Move cfg s a t := by
  cases a with
  | create ok =>
    simp only [stepMain] at h
    split at h
    · cases ok <;> cases h
      · exact .notCreated ‹_›
      · exact .created ‹_›
    · cases h
  | join =>
    simp only [stepMain] at h
    split at h <;> cases h
    · exact .join ‹_› (by simp [gone, *])
    · exact .join ‹_› (by simp [gone, *])
  | mainClose =>
    simp only [stepMain] at h
    split at h <;> cases h
    · exact .close ‹_›
    · exact .failClose ‹_›
  | mainFree =>
    simp only [stepMain] at h
    split at h <;> cases h
    · exact .free ‹_›
    · exact .failFree ‹_›
  | _ =>
    simp only [stepMain] at h
    try split at h
    all_goals cases h
    all_goals (constructor; assumption)

theorem stepSync_move (cfg : Config) (a : Act) (s t : State) (h : stepSync cfg a s = some t) :
    Move cfg s a t := by
  cases a with
  | opendir entries =>
    simp only [stepSync] at h
    split at h
    · cases entries <;> cases h
      · exact .opendirFails ‹_›
      · exact .opendir _ ‹_›
    · cases h
  | acted =>
    simp only [stepSync, Option.ite_none_right_eq_some] at h
    obtain ⟨⟨hc, hs⟩, h⟩ := h
    cases h
    exact .acted hs hc
  | _ =>
    simp only [stepSync] at h
    try split at h
    all_goals cases h
    all_goals (constructor <;> assumption)

theorem step_move (cfg : Config) (a : Act) (s t : State) (h : step cfg a s = some t) :
    Move cfg s a t := by
  rcases Option.or_eq_some_iff.mp h with h | ⟨-, h⟩
  · exact stepMain_move cfg a s t h
  · exact stepSync_move cfg a s t h

/-- Released at most once and not used after that; by the end of the program exactly once. -/
structure Once (s : State) : Prop where
  cell : s.cell.released ≤ 1 ∧ s.cell.late = 0
  socket : s.socket.released ≤ 1 ∧ s.socket.late = 0
  ended : s.main = .returned ∨ s.main = .failed → s.cell.released = 1 ∧ s.socket.released = 1

def mainClosed : Main → ℕ
  | .free => 1
  | .returned => 1
  | .failFree => 1
  | .failed => 1
  | _ => 0

def mainFreed : Main → ℕ
  | .returned => 1
  | .failed => 1
  | _ => 0

def syncClosed : Sync → ℕ
  | .freeing => 1
  | .returned => 1
  | _ => 0

def syncFreed : Sync → ℕ
  | .returned => 1
  | _ => 0

/-- The main thread has joined the other, or could not create it. -/
def alone : Main → Bool
  | .create => true
  | .close => true
  | .free => true
  | .returned => true
  | .failClose => true
  | .failFree => true
  | .failed => true
  | _ => false

/-- Who released what, and that the main thread does so alone. -/
structure Counted (s : State) : Prop where
  socket : s.socket.released = syncClosed s.sync + mainClosed s.main
  cell : s.cell.released = syncFreed s.sync + mainFreed s.main
  joined : alone s.main = true → gone s.sync = true
  create : s.main = .create → s.sync = .absent

theorem counted_init : Counted init := ⟨rfl, rfl, fun _ => rfl, fun _ => rfl⟩

theorem use_released (r : Resource) : r.use.released = r.released := by
  unfold Resource.use
  split_ifs <;> rfl

theorem release_released (r : Resource) : r.release.released = r.released+1 := rfl

theorem cancellable_running {p : Sync} (h : cancellable p = true) :
    syncClosed p = 0 ∧ syncFreed p = 0 ∧ gone p = false := by
  cases p with
  | hello rest => exact ⟨rfl, rfl, rfl⟩
  | top => exact ⟨rfl, rfl, rfl⟩
  | pass calls => exact ⟨rfl, rfl, rfl⟩
  | sleeping => exact ⟨rfl, rfl, rfl⟩
  | leaving => exact ⟨rfl, rfl, rfl⟩
  | _ => cases h

theorem counted_move {cfg : Config} {s t : State} {a : Act} (hs : Counted s)
    (h : Move cfg s a t) : Counted t := by
  obtain ⟨hsocket, hcell, halone, hcreate⟩ := hs
  cases h with
  | acted hrunning hc =>
    obtain ⟨hclosed, hfreed, hgone⟩ := cancellable_running hrunning
    refine ⟨by rw [hsocket, hclosed]; rfl, by rw [hcell, hfreed]; rfl, fun _ => rfl, fun hm => ?_⟩
    rw [hcreate hm] at hgone
    cases hgone
  | join hm hgone =>
    exact ⟨by simp_all [mainClosed], by simp_all [mainFreed], fun _ => hgone, by simp⟩
  | _ =>
    refine ⟨?_, ?_, ?_, ?_⟩ <;>
      simp_all [mainClosed, mainFreed, syncClosed, syncFreed, alone, gone, use_released,
        release_released, Nat.add_comm]

theorem counted_reachable (cfg : Config) (as : List Act) (s : State)
    (h : run (step cfg) as init = some s) : Counted s :=
  run_invariant (step cfg) Counted (fun a u v hu hv => counted_move hu (step_move cfg a u v hv))
    as init s counted_init h

/-- The synchronize thread has released nothing, and nothing was used late. -/
structure Quiet (s : State) : Prop where
  sync : syncClosed s.sync = 0
  cell : s.cell.late = 0
  socket : s.socket.late = 0

theorem use_unreleased {r : Resource} (h : r.released = 0) : r.use = r := by
  rw [Resource.use, if_pos h]

theorem syncFreed_le (p : Sync) : syncFreed p ≤ syncClosed p := by
  cases p <;> simp [syncFreed, syncClosed]

theorem mainFreed_le (m : Main) : mainFreed m ≤ mainClosed m := by
  cases m <;> simp [mainFreed, mainClosed]

theorem Counted.unreleased {s : State} (h : Counted s) (hs : syncClosed s.sync = 0)
    (hrun : gone s.sync = false ∨ alone s.main = false) :
    s.cell.released = 0 ∧ s.socket.released = 0 := by
  have hm : mainClosed s.main = 0 := by
    have halone : alone s.main = false := by
      rcases hrun with hrun | hrun
      · by_contra hm
        rw [h.joined (by simpa using hm)] at hrun
        cases hrun
      · exact hrun
    cases hmain : s.main <;> simp [hmain, alone] at halone <;> rfl
  have hfreed := mainFreed_le s.main
  have hsync := syncFreed_le s.sync
  rw [h.cell, h.socket]
  omega

theorem quiet_move {cfg : Config} {s t : State} {a : Act} (hc : Counted s) (hs : Quiet s)
    (ha : a ≠ .syncClose) (h : Move cfg s a t) : Quiet t := by
  cases h with
  | syncClose => exact absurd rfl ha
  | syncFree hfreeing =>
    have := hs.sync
    rw [hfreeing] at this
    cases this
  | mainSend b rest hm =>
    rw [use_unreleased (hc.unreleased hs.sync (.inr (by rw [hm]; rfl))).2]
    exact ⟨hs.sync, hs.cell, hs.socket⟩
  | readArg hstart =>
    rw [use_unreleased (hc.unreleased hs.sync (.inl (by rw [hstart]; rfl))).1]
    exact ⟨rfl, hs.cell, hs.socket⟩
  | syncSend b rest hhello =>
    rw [use_unreleased (hc.unreleased hs.sync (.inl (by rw [hhello]; rfl))).2]
    exact ⟨rfl, hs.cell, hs.socket⟩
  | syncCall e calls hpass =>
    rw [use_unreleased (hc.unreleased hs.sync (.inl (by rw [hpass]; rfl))).2]
    exact ⟨rfl, hs.cell, hs.socket⟩
  | command c hm => exact ⟨hs.sync, hs.cell, hs.socket⟩
  | notCreated hm => exact ⟨hs.sync, hs.cell, hs.socket⟩
  | sent hm => exact ⟨hs.sync, hs.cell, hs.socket⟩
  | exit hm => exact ⟨hs.sync, hs.cell, hs.socket⟩
  | cancel hm => exact ⟨hs.sync, hs.cell, hs.socket⟩
  | join hm hgone => exact ⟨hs.sync, hs.cell, hs.socket⟩
  | close hm => exact ⟨hs.sync, hs.cell, hs.socket⟩
  | failClose hm => exact ⟨hs.sync, hs.cell, hs.socket⟩
  | free hm => exact ⟨hs.sync, hs.cell, hs.socket⟩
  | failFree hm => exact ⟨hs.sync, hs.cell, hs.socket⟩
  | _ => exact ⟨rfl, hs.cell, hs.socket⟩

theorem once_of_quiet {s : State} (hc : Counted s) (hs : Quiet s) : Once s := by
  have hfreed := mainFreed_le s.main
  have hsync := syncFreed_le s.sync
  have hclosed : mainClosed s.main ≤ 1 := by cases s.main <;> simp [mainClosed]
  have hq := hs.sync
  refine ⟨⟨by rw [hc.cell]; omega, hs.cell⟩, ⟨by rw [hc.socket]; omega, hs.socket⟩, fun hend => ?_⟩
  rw [hc.cell, hc.socket]
  rcases hend with hm | hm <;> rw [hm] at hclosed ⊢ <;> simp only [mainFreed, mainClosed] <;> omega

theorem closed_move {cfg : Config} {s t : State} {a : Act} (hc : Counted s)
    (hs : syncClosed s.sync = 1) (h : Move cfg s a t) : syncClosed t.sync = 1 := by
  cases h with
  | acted hrunning hcancel =>
    rw [(cancellable_running hrunning).1] at hs
    cases hs
  | created hm =>
    rw [hc.create hm] at hs
    cases hs
  | _ => simp_all [syncClosed]

theorem closed_reachable (cfg : Config) (as : List Act) (hclose : .syncClose ∈ as) (t : State)
    (h : run (step cfg) as init = some t) : syncClosed t.sync = 1 := by
  refine run_after_label (step cfg) .syncClose Counted (fun v => syncClosed v.sync = 1)
    (fun a u v hu hv => counted_move hu (step_move cfg a u v hv)) (fun u v _ hv => ?_)
    (fun a u v hc hu hv => closed_move hc hu (step_move cfg a u v hv))
    as hclose init t counted_init h
  cases step_move cfg .syncClose u v hv with
  | syncClose hleaving hcancel => rfl

/-- Along a run in which the synchronize thread does not come to its own close,
each resource is released once and not used later; when the program has ended
the two are the same. -/
theorem released_once (cfg : Config) (as : List Act) (t : State)
    (h : run (step cfg) as init = some t) :
    (.syncClose ∉ as → Throughout (step cfg) Once as init) ∧
    (t.main = .returned ∨ t.main = .failed →
      (Throughout (step cfg) Once as init ↔ .syncClose ∉ as)) := by
  have honce (hno : .syncClose ∉ as) : Throughout (step cfg) Once as init := by
    refine throughout_of_guarded (step cfg) (fun a _ => a ≠ .syncClose) Once
      (fun s => Counted s ∧ Quiet s) (fun a u v hu ha hv => ?_)
      (fun u hu => once_of_quiet hu.1 hu.2) as init ⟨counted_init, rfl, rfl, rfl⟩
      (meets_of_notMem (step cfg) .syncClose as hno init)
    have hmove := step_move cfg a u v hv
    exact ⟨counted_move hu.1 hmove, quiet_move hu.1 hu.2 ha hmove⟩
  refine ⟨honce, fun hend => ⟨fun hth hclose => ?_, honce⟩⟩
  have hc := counted_reachable cfg as t h
  have hsync := closed_reachable cfg as hclose t h
  have htwice := (hth.last h).socket.1
  rw [hc.socket, hsync] at htwice
  rcases hend with hm | hm <;> rw [hm] at htwice <;> simp [mainClosed] at htwice

def emptyDir : Config := ⟨literal "d", []⟩

/-- The thread is cancelled while it sleeps. -/
def cancelRun : List Act :=
  [.create true, .readArg, .syncSend, .listed, .opendir (some []), .closedir, .exit, .cancel,
    .acted, .join, .mainClose, .mainFree]

theorem released_once_cancelled : Throughout (step emptyDir) Once cancelRun init :=
  (released_once emptyDir cancelRun ⟨.returned, .cancelled, true, ⟨1, 0⟩, ⟨1, 0⟩⟩ (by decide)).1
    (by simp [cancelRun])

/-- The directory is gone; a command follows, then the exit. -/
def goneRun : List Act :=
  [.create true, .readArg, .syncSend, .listed, .opendir none, .syncClose, .syncFree,
    .command (.delete (literal "f")), .mainSend, .mainSend, .sent, .exit, .cancel, .join,
    .mainClose, .mainFree]

/-- Both release both, and the command is sent on the closed socket. -/
theorem released_twice : ∃ t, run (step emptyDir) goneRun init = some t ∧
    t.main = .returned ∧ t.cell.released = 2 ∧ t.socket = ⟨2, 2⟩ ∧ ¬ Once t := by
  refine ⟨⟨.returned, .returned, true, ⟨2, 0⟩, ⟨2, 2⟩⟩, by decide, rfl, rfl, rfl, fun h => ?_⟩
  exact absurd h.socket.1 (by decide)

end CSE344.BoxRelease
