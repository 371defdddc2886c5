import SystemProgramming.CString
import SystemProgramming.RingQueue
import SystemProgramming.TransitionRun

/-!
# The pCp producer and consumers

One producer thread lists a directory, opens a pair of descriptors for each
entry and stores it in a ring of ten slots; any number of consumer threads
take the pairs out and copy. Each mutex-protected section is one step, from
the lock (or the return of a condition wait) to the unlock (or the next wait).
A thread that has been woken stands where it stood at the lock: it competes
for the mutex and tests the loop condition again.
-/

set_option autoImplicit false

namespace CSE344.PcpMachine
open CString RingQueue

structure Slot where
  sourceFd : ℤ
  destinationFd : ℤ
  sourceFile : Bytes
  destinationFile : Bytes
  deriving DecidableEq, Repr

def bufferSize : ℤ := 10

structure Buffer where
  in_ : ℤ
  out : ℤ
  count : ℤ
  done : Bool
  buffer : ℤ → Slot

def initBuffer : Buffer := ⟨0, 0, 0, false, fun _ => ⟨0, 0, [], []⟩⟩

inductive Producer where
  | start
  | scan (rest : List Bytes)
  | produce (sourceFile destinationFile : Bytes) (rest : List Bytes)
  | asleep (sourceFile destinationFile : Bytes) (rest : List Bytes)
  | finish
  | returned
  deriving DecidableEq, Repr

inductive Consumer where
  | consume
  | asleep
  | check
  | returned
  deriving DecidableEq, Repr

structure Config where
  sourceDir : Bytes
  destinationDir : Bytes
  entries : List Bytes
  consumers : ℕ

/-- `fds` are the descriptors that `open` gave the producer and nobody has
closed. `opened` and `consumed` are histories: the pairs whose two opens
succeeded, and the pairs that were copied out. -/
structure State where
  buf : Buffer
  producer : Producer
  consumers : List Consumer
  fds : List ℤ
  opened : List Slot
  consumed : List Slot

def init (cfg : Config) : State where
  buf := initBuffer
  producer := .start
  consumers := List.replicate cfg.consumers .consume
  fds := []
  opened := []
  consumed := []

def filePath (dir name : Bytes) : Bytes := snprintf 512 (joinPath dir name)

/-- The body of the `readdir` loop of `producer_thread`, up to the lock. -/
def afterReaddir (cfg : Config) (name : Bytes) (rest : List Bytes) : Producer :=
  if isDot name then .scan rest
  else .produce (filePath cfg.sourceDir name) (filePath cfg.destinationDir name) rest

/-- `pthread_cond_signal(&buf.not_empty)`: the label names the waiter that is
woken, or nobody when nobody waits. -/
def signalNotEmpty (cs : List Consumer) : Option ℕ → Option (List Consumer)
  | some i => if cs[i]? = some .asleep then some (cs.set i .consume) else none
  | none => if .asleep ∈ cs then none else some cs

/-- `pthread_cond_broadcast(&buf.not_empty)` -/
def broadcastNotEmpty (cs : List Consumer) : List Consumer :=
  cs.map (fun c => if c = .asleep then .consume else c)

/-- `pthread_cond_signal(&buf.not_full)`: only the producer waits there. -/
def signalNotFull : Producer → Producer
  | .asleep sourceFile destinationFile rest => .produce sourceFile destinationFile rest
  | p => p

/-- The section of `produce_file_descriptor_pair`, with what its two calls of
`open` return (-1 when they fail) and the waiter its signal wakes. -/
def produceFileDescriptorPair (sourceFile destinationFile : Bytes) (rest : List Bytes)
    (sourceFd destinationFd : ℤ) (wake : Option ℕ) (s : State) : Option State :=
  if s.buf.count = bufferSize then
    some { s with producer := .asleep sourceFile destinationFile rest }
  else if sourceFd = -1 then
    some { s with producer := .scan rest }
  else if destinationFd = -1 then
    some { s with producer := .scan rest, fds := (sourceFd::s.fds).erase sourceFd }
  else
    let slot : Slot := ⟨sourceFd, destinationFd, sourceFile, destinationFile⟩
    (signalNotEmpty s.consumers wake).map (fun cs =>
      { s with
        buf := { s.buf with
          buffer := Function.update s.buf.buffer s.buf.in_ slot
          in_ := advance bufferSize s.buf.in_
          count := s.buf.count+1 }
        consumers := cs
        producer := .scan rest
        fds := s.fds ++ [sourceFd, destinationFd]
        opened := s.opened ++ [slot] })

/-- The section of `consume_file_descriptor_pair` run by consumer `i`. -/
def consumeFileDescriptorPair (i : ℕ) (s : State) : State :=
  if s.buf.count = 0 ∧ s.buf.done = false then
    { s with consumers := s.consumers.set i .asleep }
  else if s.buf.count = 0 ∧ s.buf.done = true then
    { s with consumers := s.consumers.set i .check }
  else
    let slot := s.buf.buffer s.buf.out
    { s with
      buf := { s.buf with
        out := advance bufferSize s.buf.out
        count := s.buf.count-1 }
      consumers := s.consumers.set i .check
      producer := signalNotFull s.producer
      fds := (s.fds.erase slot.sourceFd).erase slot.destinationFd
      consumed := s.consumed ++ [slot] }

/-- The second exit test, in the loop of `consumer_thread`. -/
def afterCheck (b : Buffer) : Consumer :=
  if b.count = 0 ∧ b.done = true then .returned else .consume

inductive Act where
  | opendir (ok : Bool)
  | readdir
  | produce (sourceFd destinationFd : ℤ) (wake : Option ℕ)
  | finish
  | consume (i : ℕ)
  | check (i : ℕ)
  | spuriousNotFull
  | spuriousNotEmpty (i : ℕ)
  deriving DecidableEq, Repr

/-- One step of `producer_thread` (the first four labels) or of a
`consumer_thread` (the next two), or a wake-up nobody asked for. -/
def step (cfg : Config) : Act → State → Option State
  | .opendir ok, s => match s.producer with
    | .start => some { s with producer := if ok then .scan cfg.entries else .returned }
    | _ => none
  | .readdir, s => match s.producer with
    | .scan [] => some { s with producer := .finish }
    | .scan (name::rest) => some { s with producer := afterReaddir cfg name rest }
    | _ => none
  | .produce sourceFd destinationFd wake, s => match s.producer with
    | .produce sourceFile destinationFile rest =>
        produceFileDescriptorPair sourceFile destinationFile rest sourceFd destinationFd wake s
    | _ => none
  | .finish, s => match s.producer with
    | .finish => some { s with
        buf := { s.buf with done := true }
        consumers := broadcastNotEmpty s.consumers
        producer := .returned }
    | _ => none
  | .consume i, s => match s.consumers[i]? with
    | some .consume => some (consumeFileDescriptorPair i s)
    | _ => none
  | .check i, s => match s.consumers[i]? with
    | some .check => some { s with consumers := s.consumers.set i (afterCheck s.buf) }
    | _ => none
  | .spuriousNotFull, s => match s.producer with
    | .asleep sourceFile destinationFile rest =>
        some { s with producer := .produce sourceFile destinationFile rest }
    | _ => none
  | .spuriousNotEmpty i, s => match s.consumers[i]? with
    | some .asleep => some { s with consumers := s.consumers.set i .consume }
    | _ => none

end CSE344.PcpMachine
