import SystemProgramming.RingQueue
import SystemProgramming.TransitionRun

/-!
# The queue of client PIDs in the shared segment

The main loop of the midterm server takes PIDs out, its SIGUSR1 handler puts
them in. Each load and each store that the main loop makes of `shm->queue`,
`front`, `rear` and `count` is one step; the handler runs to its end between
two steps. `semid` is never created, so `semop` returns at once and orders
nothing. The segment starts with empty counters and arbitrary cells.
-/

set_option autoImplicit false

namespace CSE344.ClientQueue
open RingQueue TransitionRun

def maxClients : ℤ := 10

structure Segment where
  queue : ℤ → ℤ
  front : ℤ
  rear : ℤ
  count : ℤ

def isEmpty (shm : Segment) : Bool := shm.count = 0

def isFull (shm : Segment) : Bool := shm.count = maxClients

/-- The branch of `enqueue` that stores the PID. -/
def push (pid : ℤ) (shm : Segment) : Segment :=
  { shm with
    queue := Function.update shm.queue shm.rear pid
    rear := advance maxClients shm.rear
    count := shm.count+1 }

/-- Where the main loop stands: in `is_empty` called by `main` or by `dequeue`,
at the accesses of `dequeue`, or after its return. -/
inductive Pc where
  | test
  | testAgain
  | loadFront
  | loadCell (front : ℤ)
  | loadIndex (pid : ℤ)
  | storeFront (pid front : ℤ)
  | loadCount (pid : ℤ)
  | storeCount (pid count : ℤ)
  | fork (pid : ℤ)
  deriving DecidableEq, Repr

/-- `accepted` and `served` are histories: the PIDs that `enqueue` stored and
those that a successful `dequeue` returned. -/
structure State where
  shm : Segment
  pc : Pc
  accepted : List ℤ
  served : List ℤ

def init (cells : ℤ → ℤ) : State := ⟨⟨cells, 0, 0, 0⟩, .test, [], []⟩

/-- One step of the main loop. -/
def mainStep (s : State) : State :=
  match s.pc with
  | .test => { s with pc := if isEmpty s.shm then .test else .testAgain }
  | .testAgain => { s with pc := if isEmpty s.shm then .fork (-1) else .loadFront }
  | .loadFront => { s with pc := .loadCell s.shm.front }
  | .loadCell front => { s with pc := .loadIndex (s.shm.queue front) }
  | .loadIndex pid => { s with pc := .storeFront pid s.shm.front }
  | .storeFront pid front => { s with
      shm := { s.shm with front := advance maxClients front }
      pc := .loadCount pid }
  | .loadCount pid => { s with pc := .storeCount pid s.shm.count }
  | .storeCount pid count => { s with
      shm := { s.shm with count := count-1 }
      pc := .fork pid
      served := s.served ++ [pid] }
  | .fork _ => { s with pc := .test }

/-- `enqueue` as the SIGUSR1 handler runs it. -/
def enqueue (pid : ℤ) (s : State) : State :=
  if isFull s.shm then s
  else { s with shm := push pid s.shm, accepted := s.accepted ++ [pid] }

inductive Act where
  | main
  | sigusr1 (pid : ℤ)
  deriving DecidableEq, Repr

def step : Act → State → Option State
  | .main, s => some (mainStep s)
  | .sigusr1 pid, s => some (enqueue pid s)

/-- Neither `is_empty` in `dequeue` nor `dequeue` itself is under way. -/
def Idle (s : State) : Prop := s.pc = .test ∨ ∃ pid, s.pc = .fork pid

/-- The counters say what was accepted and not yet served. -/
def Settled (s : State) : Prop :=
  s.shm.count = s.accepted.length-s.served.length ∧
    s.shm.rear = (s.shm.front+s.shm.count)%maxClients

end CSE344.ClientQueue
