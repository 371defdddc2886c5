import Mathlib.Algebra.Order.BigOperators.Group.Finset
import SystemProgramming.RankedRun

/-!
# How the midterm server ends

The server and the children that it has forked are one process group, and every
process of it has the handlers. The `SIGINT` branch detaches the segment, marks
it to be removed and kills the group. SIGUSR1 is not blocked there, and its
branch works on the segment: it enters a client into the queue, and the server
forks only while that is not empty. The segment is gone once it is marked and
nobody has it attached.
-/

set_option autoImplicit false

namespace CSE344.ServerShutdown
open TransitionRun RankedRun

/-- What a process is about: the loop of `main`; the request of a child before it
is read, `kill(getppid(), SIGINT)` if it was `killServer`, or what is left before
its `exit(0)`. -/
inductive Work where
  | serving
  | reading
  | asking
  | leaving
  deriving DecidableEq, Repr

/-- The calls of the `SIGINT` branch, the last being `kill(0, SIGKILL)`. -/
inductive Cleanup where
  | shmdt
  | shmctl
  | semctl
  | kill
  deriving DecidableEq, Repr

/-- A process in the handler stands before the call it names. -/
inductive Process where
  | absent
  | running (w : Work)
  | handling (c : Cleanup)
  | dead
  deriving DecidableEq, Repr

/-- The server is `none`, a child goes by its number. `count` is the counter of
the queue, `marked` is the segment after `IPC_RMID`, and `set0` says whether the
system has a semaphore set 0, which is what `semid` names, since nothing ever
sets it. -/
structure State where
  processes : Option ℕ → Process
  forked : ℕ
  count : Int32
  marked : Bool
  set0 : Bool

/-- The segment may be one that an earlier server left. -/
def init (set0 : Bool) (count : Int32) : State where
  processes p := if p = none then .running .serving else .absent
  forked := 0
  count := count
  marked := false
  set0 := set0

/-- After SIGUSR1 the counter of the queue is `count`, which is one more unless
the queue was full or another process was at it. `fatal` is a signal that nobody
handles, such as the SIGUSR2 of `enqueue`. -/
inductive Act where
  | fork (created : Bool)
  | request (k : ℕ) (killServer : Bool)
  | ask (k : ℕ)
  | finish (k : ℕ)
  | cleanup (p : Option ℕ)
  | sigint (p : Option ℕ)
  | sigusr1 (p : Option ℕ) (count : Int32)
  | fatal (p : Option ℕ)
  deriving DecidableEq

def State.become (s : State) (p : Option ℕ) (life : Process) : State :=
  { s with processes := Function.update s.processes p life }

/-- SIGINT comes; it stays pending in a process that is in its handler. -/
def interrupted : Process → Process
  | .running _ => .handling .shmdt
  | life => life

/-- SIGUSR1 comes. `enqueue` finds the segment until it is detached. -/
def enqueued : Process → Process
  | .handling .shmctl => .dead
  | .handling .semctl => .dead
  | .handling .kill => .dead
  | life => life

/-- SIGKILL comes. -/
def killed : Process → Process
  | .absent => .absent
  | _ => .dead

/-- The process has the segment attached. -/
def Attached : Process → Prop
  | .running _ => True
  | .handling .shmdt => True
  | _ => False

instance Attached.decidable (life : Process) : Decidable (Attached life) := by
  unfold Attached
  split <;> infer_instance

/-- `dequeue` and `fork`; the child that was made reads its request. -/
def State.forks (s : State) (created : Bool) : State :=
  if created then
    { s.become (some s.forked) (.running .reading) with forked := s.forked+1, count := s.count-1 }
  else { s with count := s.count-1 }

/-- What `enqueue` leaves in the queue of a process that has it. -/
def State.counts (s : State) (p : Option ℕ) (count : Int32) : State :=
  if Attached (s.processes p) then { s with count := count } else s

def step : Act → State → Option State
  | .fork created, s =>
    if s.processes none = .running .serving ∧ s.count ≠ 0 then some (s.forks created) else none
  | .request k killServer, s =>
    if s.processes (some k) = .running .reading then
      some (s.become (some k) (.running (if killServer then .asking else .leaving)))
    else none
  | .ask k, s =>
    if s.processes (some k) = .running .asking then
      some ((s.become (some k) (.running .leaving)).become none (interrupted (s.processes none)))
    else none
  | .finish k, s =>
    if s.processes (some k) = .running .leaving then some (s.become (some k) .dead) else none
  | .cleanup p, s => match s.processes p with
    | .handling .shmdt => some (s.become p (.handling .shmctl))
    | .handling .shmctl => some { s.become p (.handling .semctl) with marked := true }
    | .handling .semctl => some { s.become p (.handling .kill) with set0 := false }
    | .handling .kill => some { s with processes := fun q => killed (s.processes q) }
    | _ => none
  | .sigint p, s => some (s.become p (interrupted (s.processes p)))
  | .sigusr1 p count, s => some ((s.counts p count).become p (enqueued (s.processes p)))
  | .fatal p, s => some (s.become p (killed (s.processes p)))

/-- The step is not a signal from outside. -/
def Own : Act → Prop
  | .sigint _ => False
  | .sigusr1 _ _ => False
  | .fatal _ => False
  | _ => True

def Over (life : Process) : Prop := life = .absent ∨ life = .dead

/-- The segment does not exist any more. -/
def Removed (s : State) : Prop := s.marked = true ∧ ∀ p, ¬ Attached (s.processes p)

/-- Nobody is left, nor is the segment. -/
def Gone (s : State) : Prop := (∀ p, Over (s.processes p)) ∧ Removed s

/-- Everything a step can do. -/
inductive Move (s : State) : Act → State → Prop
  | fork (created : Bool) (h : s.processes none = .running .serving) (hcount : s.count ≠ 0) :
      Move s (.fork created) (s.forks created)
  | request (k : ℕ) (killServer : Bool) (h : s.processes (some k) = .running .reading) :
      Move s (.request k killServer)
        (s.become (some k) (.running (if killServer then .asking else .leaving)))
  | ask (k : ℕ) (h : s.processes (some k) = .running .asking) : Move s (.ask k)
      ((s.become (some k) (.running .leaving)).become none (interrupted (s.processes none)))
  | finish (k : ℕ) (h : s.processes (some k) = .running .leaving) :
      Move s (.finish k) (s.become (some k) .dead)
  | shmdt (p : Option ℕ) (h : s.processes p = .handling .shmdt) :
      Move s (.cleanup p) (s.become p (.handling .shmctl))
  | shmctl (p : Option ℕ) (h : s.processes p = .handling .shmctl) :
      Move s (.cleanup p) { s.become p (.handling .semctl) with marked := true }
  | semctl (p : Option ℕ) (h : s.processes p = .handling .semctl) :
      Move s (.cleanup p) { s.become p (.handling .kill) with set0 := false }
  | kill (p : Option ℕ) (h : s.processes p = .handling .kill) :
      Move s (.cleanup p) { s with processes := fun q => killed (s.processes q) }
  | sigint (p : Option ℕ) : Move s (.sigint p) (s.become p (interrupted (s.processes p)))
  | sigusr1 (p : Option ℕ) (count : Int32) :
      Move s (.sigusr1 p count) ((s.counts p count).become p (enqueued (s.processes p)))
  | fatal (p : Option ℕ) : Move s (.fatal p) (s.become p (killed (s.processes p)))

theorem step_move {a : Act} {s t : State} (h : step a s = some t) : Move s a t := by
  cases a with
  | fork created =>
    obtain ⟨⟨hserving, hcount⟩, rfl⟩ := guarded_iff.mp h
    exact .fork created hserving hcount
  | request k killServer =>
    obtain ⟨hk, rfl⟩ := guarded_iff.mp h
    exact .request k killServer hk
  | ask k =>
    obtain ⟨hk, rfl⟩ := guarded_iff.mp h
    exact .ask k hk
  | finish k =>
    obtain ⟨hk, rfl⟩ := guarded_iff.mp h
    exact .finish k hk
  | cleanup p =>
    simp only [step] at h
    split at h <;> cases h
    · exact .shmdt p ‹_›
    · exact .shmctl p ‹_›
    · exact .semctl p ‹_›
    · exact .kill p ‹_›
  | sigint p =>
    cases h
    exact .sigint p
  | sigusr1 p count =>
    cases h
    exact .sigusr1 p count
  | fatal p =>
    cases h
    exact .fatal p

theorem move_step {a : Act} {s t : State} (h : Move s a t) : step a s = some t := by
  cases h with
  | fork created h hcount => simp [step, h, hcount]
  | request k killServer h => simp [step, h]
  | ask k h => simp [step, h]
  | finish k h => simp [step, h]
  | shmdt p h => simp [step, h]
  | shmctl p h => simp [step, h]
  | semctl p h => simp [step, h]
  | kill p h => simp [step, h]
  | sigint p => rfl
  | sigusr1 p count => rfl
  | fatal p => rfl

section Sound

/-- What a process can be when `n` children were forked: only the server serves.
Who has called `shmctl` has marked the segment. -/
structure Placed (n : ℕ) (marked : Bool) (p : Option ℕ) (life : Process) : Prop where
  server : p = none → life ≠ .absent ∧ ∀ w, life = .running w → w = .serving
  child : ∀ k, p = some k → (n ≤ k → life = .absent) ∧ life ≠ .running .serving
  marked : life = .handling .semctl ∨ life = .handling .kill → marked = true

def Sound (s : State) : Prop := ∀ p, Placed s.forked s.marked p (s.processes p)

variable {n : ℕ} {marked : Bool} {p : Option ℕ} {life : Process} {s t : State} {a : Act}

@[simp] theorem become_self (s : State) (p : Option ℕ) (life : Process) :
    (s.become p life).processes p = life := by simp [State.become]

theorem become_other (s : State) {p q : Option ℕ} (life : Process) (h : q ≠ p) :
    (s.become p life).processes q = s.processes q := by simp [State.become, h]

theorem forall_become {P : Option ℕ → Process → Prop} (h : ∀ q, P q (s.processes q)) {p : Option ℕ}
    (hlife : P p life) (q : Option ℕ) : P q ((s.become p life).processes q) := by
  by_cases hq : q = p
  · subst hq
    rwa [become_self]
  · rw [become_other s life hq]
    exact h q

theorem Placed.stop (h : Placed n marked p life) (hthere : life ≠ .absent) {next : Process}
    (hnext : next = .dead ∨ ∃ c, next = .handling c)
    (hmarked : next = .handling .semctl ∨ next = .handling .kill → marked = true) :
    Placed n marked p next where
  server hp := by
    rcases hnext with rfl | ⟨c, rfl⟩ <;> simp
  child k hp := by
    refine ⟨fun hle => absurd ((h.child k hp).1 hle) hthere, ?_⟩
    rcases hnext with rfl | ⟨c, rfl⟩ <;> simp
  marked := hmarked

theorem Placed.work {k : ℕ} (h : Placed n marked (some k) life) (hthere : life ≠ .absent)
    {w : Work} (hw : w ≠ .serving) : Placed n marked (some k) (.running w) where
  server hp := by cases hp
  child j hj := by
    obtain rfl := Option.some.inj hj
    exact ⟨fun hle => absurd ((h.child k rfl).1 hle) hthere, by simpa using hw⟩
  marked := by simp

theorem Placed.interrupted (h : Placed n marked p life) :
    Placed n marked p (interrupted life) := by
  cases life with
  | running w => exact h.stop (by simp) (.inr ⟨_, rfl⟩) (by simp [ServerShutdown.interrupted])
  | _ => exact h

theorem Placed.enqueued (h : Placed n marked p life) : Placed n marked p (enqueued life) := by
  cases life with
  | handling c =>
    cases c with
    | shmdt => exact h
    | _ => exact h.stop (by simp) (.inl rfl) (by simp [ServerShutdown.enqueued])
  | _ => exact h

theorem Placed.killed (h : Placed n marked p life) : Placed n marked p (killed life) := by
  cases life with
  | absent => exact h
  | _ => exact h.stop (by simp) (.inl rfl) (by simp [ServerShutdown.killed])

theorem Placed.mark (h : Placed n marked p life) : Placed n true p life :=
  ⟨h.server, h.child, fun _ => rfl⟩

theorem sound_become (hs : Sound s) (hlife : Placed s.forked s.marked p life) :
    Sound (s.become p life) :=
  forall_become (P := Placed s.forked s.marked) hs hlife

@[simp] theorem counts_processes (s : State) (p : Option ℕ) (count : Int32) :
    (s.counts p count).processes = s.processes := by
  unfold State.counts
  split_ifs <;> rfl

theorem sound_counts (hs : Sound s) (p : Option ℕ) (count : Int32) : Sound (s.counts p count) := by
  unfold State.counts
  split_ifs <;> exact hs

theorem sound_init (set0 : Bool) (count : Int32) : Sound (init set0 count) := by
  intro p
  cases p with
  | none => exact ⟨by simp [init], by simp, by simp [init]⟩
  | some k => exact ⟨by simp, by simp [init], by simp [init]⟩

theorem sound_fork (hs : Sound s) (created : Bool) : Sound (s.forks created) := by
  cases created with
  | false => exact hs
  | true =>
    intro q
    show Placed (s.forked+1) s.marked q ((s.become _ _).processes q)
    by_cases hq : q = some s.forked
    · subst hq
      rw [become_self]
      refine ⟨by simp, fun k hk => ⟨fun hle => ?_, by simp⟩, by simp⟩
      have := Option.some.inj hk
      omega
    · rw [become_other s _ hq]
      have hold := hs q
      refine ⟨hold.server, fun k hk => ⟨fun hle => ?_, (hold.child k hk).2⟩, hold.marked⟩
      exact (hold.child k hk).1 (by omega)

theorem sound_move (hs : Sound s) (h : Move s a t) : Sound t := by
  cases h with
  | fork created => exact sound_fork hs created
  | request k killServer h =>
    have hk := hs (some k)
    rw [h] at hk
    exact sound_become hs (hk.work (by simp) (by cases killServer <;> simp))
  | ask k h =>
    have hk := hs (some k)
    rw [h] at hk
    exact sound_become (sound_become hs (hk.work (by simp) (by simp))) (hs none).interrupted
  | finish k h =>
    have hk := hs (some k)
    rw [h] at hk
    exact sound_become hs (hk.stop (by simp) (.inl rfl) (by simp))
  | shmdt p h =>
    have hp := hs p
    rw [h] at hp
    exact sound_become hs (hp.stop (by simp) (.inr ⟨_, rfl⟩) (by simp))
  | shmctl p h =>
    have hp := hs p
    rw [h] at hp
    exact forall_become (P := Placed s.forked true) (fun q => (hs q).mark)
      (hp.mark.stop (by simp) (.inr ⟨_, rfl⟩) (fun _ => rfl))
  | semctl p h =>
    have hp := hs p
    rw [h] at hp
    exact sound_become hs (hp.stop (by simp) (.inr ⟨_, rfl⟩) (fun _ => hp.marked (.inl rfl)))
  | kill p => exact fun q => (hs q).killed
  | sigint p => exact sound_become hs (hs p).interrupted
  | sigusr1 p count =>
    refine sound_become (sound_counts hs p count) ?_
    have hp := sound_counts hs p count p
    rw [counts_processes] at hp
    exact hp.enqueued
  | fatal p => exact sound_become hs (hs p).killed

theorem sound_reachable (set0 : Bool) (count : Int32) (as : List Act) (s : State)
    (h : run step as (init set0 count) = some s) : Sound s :=
  run_invariant step Sound (fun _ _ _ hu hv => sound_move hu (step_move hv)) as
    (init set0 count) s (sound_init set0 count) h

end Sound

section Removal

variable {s t : State} {a : Act}

/-- The server is dead, and nobody is going to mark the segment. -/
structure Lost (s : State) : Prop where
  unmarked : s.marked = false
  server : s.processes none = .dead
  nobody : ∀ p c, s.processes p ≠ .handling c

theorem lost_become (hs : Lost s) {k : ℕ} {life : Process} (hlife : ∀ c, life ≠ .handling c) :
    Lost (s.become (some k) life) where
  unmarked := hs.unmarked
  server := by rw [become_other s life (by simp), hs.server]
  nobody := forall_become (P := fun _ life => ∀ c, life ≠ .handling c) hs.nobody hlife

theorem lost_move (hs : Lost s) (ha : Own a) (h : Move s a t) : Lost t := by
  cases h with
  | fork created h hcount =>
    rw [hs.server] at h
    cases h
  | request k killServer h => exact lost_become hs (by simp)
  | ask k h =>
    have hchild : Lost (s.become (some k) (.running .leaving)) := lost_become hs (by simp)
    refine ⟨hchild.unmarked, by simp [interrupted, hs.server], ?_⟩
    exact forall_become (P := fun _ life => ∀ c, life ≠ .handling c) hchild.nobody
      (by simp [interrupted, hs.server])
  | finish k h => exact lost_become hs (by simp)
  | shmdt p h => exact absurd h (hs.nobody p _)
  | shmctl p h => exact absurd h (hs.nobody p _)
  | semctl p h => exact absurd h (hs.nobody p _)
  | kill p h => exact absurd h (hs.nobody p _)
  | sigint p => exact ha.elim
  | sigusr1 p count => exact ha.elim
  | fatal p => exact ha.elim

/-- The server serves, its queue is empty, and no child can ask it to end. -/
structure Idle (s : State) : Prop where
  server : s.processes none = .running .serving
  empty : s.count = 0
  children : ∀ k, s.processes (some k) ≠ .running .reading ∧ s.processes (some k) ≠ .running .asking
  nobody : ∀ p c, s.processes p ≠ .handling c

theorem idle_move (hs : Idle s) (ha : Own a) (h : Move s a t) : Idle t := by
  cases h with
  | fork created h hcount => exact absurd hs.empty hcount
  | request k killServer h => exact absurd h (hs.children k).1
  | ask k h => exact absurd h (hs.children k).2
  | finish k h =>
    refine ⟨?_, hs.empty, fun j => ?_, ?_⟩
    · rw [become_other s _ (by simp), hs.server]
    · by_cases hj : j = k
      · subst hj
        rw [become_self]
        simp
      · rw [become_other s _ (by simpa using hj)]
        exact hs.children j
    · exact forall_become (P := fun _ life => ∀ c, life ≠ .handling c) hs.nobody (by simp)
  | shmdt p h => exact absurd h (hs.nobody p _)
  | shmctl p h => exact absurd h (hs.nobody p _)
  | semctl p h => exact absurd h (hs.nobody p _)
  | kill p h => exact absurd h (hs.nobody p _)
  | sigint p => exact ha.elim
  | sigusr1 p count => exact ha.elim
  | fatal p => exact ha.elim

theorem CanReach.move {Goal : State → Prop} (h : Move s a t) (ha : Own a)
    (r : CanReach step Own Goal t) : CanReach step Own Goal s :=
  r.step ha (move_step h)

theorem killed_gone (hmarked : s.marked = true) :
    Gone { s with processes := fun q => killed (s.processes q) } := by
  refine ⟨fun q => ?_, hmarked, fun q => ?_⟩
  · cases hq : s.processes q <;> simp [Over, killed, hq]
  · cases hq : s.processes q <;> simp [Attached, killed, hq]

/-- What has begun in the handler of one process comes to its end. -/
theorem handler_ends (hs : Sound s) {p : Option ℕ} (c : Cleanup)
    (h : s.processes p = .handling c) : CanReach step Own Gone s := by
  have last {u : State} (hu : Sound u) (h : u.processes p = .handling .kill) :
      CanReach step Own Gone u :=
    CanReach.move (.kill p h) trivial (.now step Own (killed_gone ((hu p).marked (.inr h))))
  have third {u : State} (hu : Sound u) (h : u.processes p = .handling .semctl) :
      CanReach step Own Gone u :=
    CanReach.move (.semctl p h) trivial (last (sound_move hu (.semctl p h)) (become_self u p _))
  have second {u : State} (hu : Sound u) (h : u.processes p = .handling .shmctl) :
      CanReach step Own Gone u :=
    CanReach.move (.shmctl p h) trivial (third (sound_move hu (.shmctl p h)) (become_self u p _))
  cases c with
  | shmdt =>
    exact CanReach.move (.shmdt p h) trivial
      (second (sound_move hs (.shmdt p h)) (become_self s p _))
  | shmctl => exact second hs h
  | semctl => exact third hs h
  | kill => exact last hs h

theorem asking_ends (hs : Sound s) (h : s.processes none = .running .serving) {k : ℕ}
    (hk : s.processes (some k) = .running .asking) : CanReach step Own Gone s := by
  have hask := Move.ask k hk
  refine CanReach.move hask trivial
    (handler_ends (sound_move hs hask) (p := none) .shmdt ?_)
  rw [become_self, h]
  rfl

theorem reading_ends (hs : Sound s) (h : s.processes none = .running .serving) {k : ℕ}
    (hk : s.processes (some k) = .running .reading) : CanReach step Own Gone s := by
  have hrequest := Move.request k true hk
  refine CanReach.move hrequest trivial (asking_ends (sound_move hs hrequest) (k := k) ?_ ?_)
  · rw [become_other s _ (by simp), h]
  · rw [become_self]
    rfl

theorem waiting_ends (hs : Sound s) (h : s.processes none = .running .serving)
    (hcount : s.count ≠ 0) : CanReach step Own Gone s := by
  have hfork := Move.fork true h hcount
  refine CanReach.move hfork trivial
    (reading_ends (sound_move hs hfork) (k := s.forked) ?_ (become_self s _ _))
  exact (become_other s (p := some s.forked) (.running .reading) (by simp)).trans h

/-- How far a child is from its end. -/
def left : Process → ℕ
  | .running .reading => 2
  | .running .asking => 2
  | .running .leaving => 1
  | _ => 0

def rank (s : State) : ℕ := ∑ k ∈ Finset.range s.forked, left (s.processes (some k))

/-- The server is dead, the segment marked, and only children are left. -/
structure Orphans (s : State) : Prop where
  sound : Sound s
  marked : s.marked = true
  server : s.processes none = .dead
  nobody : ∀ p c, s.processes p ≠ .handling c

theorem orphans_become (hs : Orphans s) {k : ℕ} {w : Work} (h : s.processes (some k) = .running w)
    {life : Process} (hplaced : Placed s.forked s.marked (some k) life)
    (hlife : ∀ c, life ≠ .handling c) (hleft : left life < left (.running w)) :
    Orphans (s.become (some k) life) ∧ rank (s.become (some k) life) < rank s := by
  have hk : k < s.forked := by
    by_contra hge
    have := ((hs.sound (some k)).child k rfl).1 (by omega)
    simp [h] at this
  refine ⟨⟨sound_become hs.sound hplaced, hs.marked, ?_, ?_⟩, ?_⟩
  · rw [become_other s life (by simp), hs.server]
  · exact forall_become (P := fun _ life => ∀ c, life ≠ .handling c) hs.nobody hlife
  · refine Finset.sum_lt_sum (fun j hj => ?_) ⟨k, Finset.mem_range.mpr hk, ?_⟩
    · by_cases hj : j = k
      · subst hj
        rw [become_self, h]
        exact hleft.le
      · rw [become_other s life (by simpa using hj)]
    · rw [become_self, h]
      exact hleft

theorem orphans_step (hs : Orphans s) (hnot : ¬ Gone s) :
    ∃ a t, Own a ∧ step a s = some t ∧ Orphans t ∧ rank t < rank s := by
  have hthere : ∃ p w, s.processes p = .running w := by
    by_contra hno
    push Not at hno
    refine hnot ⟨fun p => ?_, hs.marked, fun p => ?_⟩
    · cases hp : s.processes p with
      | absent => exact .inl rfl
      | running w => exact absurd hp (hno p w)
      | handling c => exact absurd hp (hs.nobody p c)
      | dead => exact .inr rfl
    · cases hp : s.processes p with
      | running w => exact absurd hp (hno p w)
      | handling c => exact absurd hp (hs.nobody p c)
      | _ => exact id
  obtain ⟨p, w, hp⟩ := hthere
  have hplaced := hs.sound p
  rw [hp] at hplaced
  cases p with
  | none => simp [hs.server] at hp
  | some k =>
    cases w with
    | serving => exact absurd rfl (hplaced.child k rfl).2
    | reading =>
      have hnext := orphans_become hs hp (hplaced.work (w := .leaving) (by simp) (by simp))
        (by simp) (by simp [left])
      exact ⟨.request k false, _, trivial, move_step (.request k false hp), hnext⟩
    | asking =>
      have hnext := orphans_become hs hp (hplaced.work (w := .leaving) (by simp) (by simp))
        (by simp) (by simp [left])
      have hserver : (s.become (some k) (.running .leaving)).become none
          (interrupted (s.processes none)) = s.become (some k) (.running .leaving) := by
        simp [State.become, hs.server, interrupted, Function.update_eq_self_iff]
      have hstep := move_step (.ask k hp)
      rw [hserver] at hstep
      exact ⟨.ask k, _, trivial, hstep, hnext⟩
    | leaving =>
      have hnext := orphans_become hs hp (hplaced.stop (by simp) (.inl rfl) (by simp)) (by simp)
        (by simp [left])
      exact ⟨.finish k, _, trivial, move_step (.finish k hp), hnext⟩

theorem orphans_end (hs : Orphans s) : CanReach step Own Gone s :=
  reaches_of_falls step Own Orphans Gone rank (fun _ hu hnot => orphans_step hu hnot) s hs

/-- Without a further signal the group and its segment can still go away exactly
when some process is in its handler, or the server serves and has a client in
the queue or a child that may ask it to end, or it is dead and the segment marked. -/
theorem removable_iff (set0 : Bool) (count : Int32) (before : List Act) (s : State)
    (h : run step before (init set0 count) = some s) :
    CanReach step Own Gone s ↔
      (∃ p c, s.processes p = .handling c) ∨
      (s.processes none = .running .serving ∧ (s.count ≠ 0 ∨ ∃ k,
        s.processes (some k) = .running .reading ∨ s.processes (some k) = .running .asking)) ∨
      (s.processes none = .dead ∧ s.marked = true) := by
  have hs := sound_reachable set0 count before s h
  have hserver := (hs none).server rfl
  constructor
  · rintro ⟨as, t, hown, hrun, hgone⟩
    by_contra hnot
    push Not at hnot
    obtain ⟨hnobody, hserving, hmarked⟩ := hnot
    have hmeets := meets_of_labels step (fun a _ => Own a) as (fun a ha _ => hown a ha) s
    cases hp : s.processes none with
    | absent => exact hserver.1 hp
    | running w =>
      obtain rfl := hserver.2 w hp
      obtain ⟨hempty, hchildren⟩ := hserving hp
      have hidle := guarded_invariant step (fun a _ => Own a) Idle
        (fun a u v hu ha hv => idle_move hu ha (step_move hv)) as s t
        ⟨hp, hempty, hchildren, hnobody⟩ hmeets hrun
      have hover := hgone.1 none
      simp [Over, hidle.server] at hover
    | handling c => exact hnobody none c hp
    | dead =>
      have hlost := guarded_invariant step (fun a _ => Own a) Lost
        (fun a u v hu ha hv => lost_move hu ha (step_move hv)) as s t
        ⟨by simpa using hmarked hp, hp, hnobody⟩ hmeets hrun
      exact absurd hgone.2.1 (by simp [hlost.unmarked])
  · intro hcan
    by_cases hhandling : ∃ p c, s.processes p = .handling c
    · obtain ⟨p, c, hp⟩ := hhandling
      exact handler_ends hs c hp
    push Not at hhandling
    rcases hcan with ⟨p, c, hp⟩ | ⟨hp, hcount | ⟨k, hk | hk⟩⟩ | ⟨hp, hmarked⟩
    · exact absurd hp (hhandling p c)
    · exact waiting_ends hs hp hcount
    · exact reading_ends hs hp hk
    · exact asking_ends hs hp hk
    · exact orphans_end ⟨hs, hmarked, hp, hhandling⟩

end Removal

section Order

variable {s t : State} {a : Act}

def InHandler : Process → Prop
  | .handling _ => True
  | _ => False

instance InHandler.decidable (life : Process) : Decidable (InHandler life) := by
  cases life <;> first | exact isTrue trivial | exact isFalse id

/-- SIGUSR1 finds nobody behind its `shmdt`, and a signal that nobody handles
comes neither to the server nor to a process in its handler. -/
def Spared : Act → State → Prop
  | .sigusr1 p _, s => enqueued (s.processes p) = s.processes p
  | .fatal p, s => p ≠ none ∧ ¬ InHandler (s.processes p)
  | _, _ => True

instance Spared.decidable (a : Act) (s : State) : Decidable (Spared a s) := by
  unfold Spared
  split <;> infer_instance

/-- The server serves, or the end has begun, or it is over. -/
def Orderly (s : State) : Prop :=
  s.processes none = .running .serving ∨ (∃ p, InHandler (s.processes p)) ∨ Gone s

theorem orderly_same (hs : Orderly s) {p : Option ℕ} {life : Process} (h : s.processes p = life) :
    Orderly (s.become p life) := by
  have hsame : s.become p life = s := by simp [State.become, ← h]
  rwa [hsame]

theorem orderly_handler (s : State) (p : Option ℕ) (c : Cleanup) :
    Orderly (s.become p (.handling c)) :=
  .inr (.inl ⟨p, by rw [become_self]; trivial⟩)

theorem orderly_child (hs : Orderly s) {k : ℕ} {w : Work} (h : s.processes (some k) = .running w)
    (life : Process) : Orderly (s.become (some k) life) := by
  rcases hs with hserver | ⟨p, hp⟩ | hgone
  · exact .inl (by rw [become_other s life (by simp), hserver])
  · have hne : p ≠ some k := by
      rintro rfl
      rw [h] at hp
      exact hp
    exact .inr (.inl ⟨p, by rw [become_other s life hne]; exact hp⟩)
  · have hover := hgone.1 (some k)
    simp [Over, h] at hover

theorem orderly_interrupt (hs : Orderly s) (p : Option ℕ) :
    Orderly (s.become p (interrupted (s.processes p))) := by
  cases hp : s.processes p with
  | running w => exact orderly_handler s p .shmdt
  | _ => exact orderly_same hs hp

theorem orderly_move (hsound : Sound s) (hs : Orderly s) (ha : Spared a s) (h : Move s a t) :
    Orderly t := by
  cases h with
  | fork created h hcount =>
    cases created with
    | false => exact .inl h
    | true =>
      have hother := become_other s (p := some s.forked) (q := none) (.running .reading) (by simp)
      exact .inl (hother.trans h)
  | request k killServer h => exact orderly_child hs h _
  | ask k h =>
    have hnext := orderly_interrupt (orderly_child hs h (.running .leaving)) none
    rwa [become_other s _ (by simp)] at hnext
  | finish k h => exact orderly_child hs h _
  | shmdt p h => exact orderly_handler s p _
  | shmctl p h => exact .inr (.inl ⟨p, by rw [become_self]; trivial⟩)
  | semctl p h => exact .inr (.inl ⟨p, by rw [become_self]; trivial⟩)
  | kill p h => exact .inr (.inr (killed_gone ((hsound p).marked (.inr h))))
  | sigint p => exact orderly_interrupt hs p
  | sigusr1 p count =>
    have hcounts : Orderly (s.counts p count) := by
      unfold State.counts
      split_ifs <;> exact hs
    exact orderly_same hcounts (by rw [counts_processes]; exact ha.symm)
  | fatal p =>
    obtain ⟨hchild, hout⟩ := ha
    cases p with
    | none => exact absurd rfl hchild
    | some k =>
      cases hp : s.processes (some k) with
      | running w => exact orderly_child hs hp _
      | handling c =>
        rw [hp] at hout
        exact absurd trivial hout
      | _ => exact orderly_same hs hp

/-- As long as SIGUSR1 and the signals that nobody handles keep away from the end
of a process, the server serves, or somebody is in the handler, or the whole
group and the segment are gone. -/
theorem shutdown_orderly (set0 : Bool) (count : Int32) (as : List Act) (s : State)
    (hmeets : Meets step Spared as (init set0 count))
    (h : run step as (init set0 count) = some s) :
    s.processes none = .running .serving ∨ (∃ p, InHandler (s.processes p)) ∨ Gone s :=
  (guarded_invariant step Spared (fun u => Sound u ∧ Orderly u)
    (fun _ _ _ hu ha hv => ⟨sound_move hu.1 (step_move hv),
      orderly_move hu.1 hu.2 ha (step_move hv)⟩)
    as (init set0 count) s ⟨sound_init set0 count, .inl rfl⟩ hmeets h).2

/-- A child passes `killServer` on to the server, which goes through its handler
while another child works. -/
def killServerRun : List Act :=
  [.sigusr1 none 1, .sigusr1 none 2, .fork true, .fork true, .request 0 true, .ask 0,
    .cleanup none, .request 1 false, .cleanup none, .cleanup none, .cleanup none]

theorem shutdown_orderly_kill_server : ∃ s, run step killServerRun (init true 0) = some s ∧
    s.processes (some 1) = .dead ∧
    (s.processes none = .running .serving ∨ (∃ p, InHandler (s.processes p)) ∨ Gone s) :=
  ⟨_, rfl, by decide, shutdown_orderly true 0 killServerRun _ (by decide) rfl⟩

/-- SIGUSR1 comes when the server has detached the segment and not yet marked it. -/
def segfaultRun : List Act :=
  [.sigusr1 none 1, .fork true, .sigint none, .cleanup none, .sigusr1 none 1]

theorem removable_iff_segfault : ∃ s, run step segfaultRun (init true 0) = some s ∧
    s.processes (some 0) = .running .reading ∧ ¬ CanReach step Own Gone s := by
  refine ⟨_, rfl, by decide, fun hcan => ?_⟩
  rcases (removable_iff true 0 segfaultRun _ rfl).mp hcan with
    ⟨p, c, hp⟩ | ⟨hserver, -⟩ | ⟨-, hmarked⟩
  · match p with
    | none => cases hp
    | some 0 => cases hp
    | some (k+1) => cases hp
  · cases hserver
  · cases hmarked

end Order

end CSE344.ServerShutdown
