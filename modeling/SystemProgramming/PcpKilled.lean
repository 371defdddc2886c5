import SystemProgramming.PcpCorrect

/-!
# pCp killed in the middle of a copy

Nothing catches a signal, since `handle_signal` is never installed. The copy of
a consumer is here its loop of reads and writes. It holds the mutex all the
while, so that only what takes no lock goes on beside it. A read gives what it
likes up to 4096 bytes, and a write takes what it is given.
-/

set_option autoImplicit false

namespace CSE344.PcpKilled
open CString FileBytes RingQueue TransitionRun PcpMachine PcpFifo PcpSource PcpCorrect

/-- The consumer in its copy loop, and how many bytes it has copied. -/
structure Copying where
  consumer : ℕ
  slot : Slot
  pos : ℕ

structure State (Loc : Type*) where
  machine : PcpMachine.State
  files : Loc → Option Bytes
  copying : Option Copying

/-- A section as a whole, or one of the steps into which the copy is cut: the
slot is taken, a chunk copied, and after the last chunk the slot given back. -/
inductive Act where
  | section_ (a : PcpMachine.Act)
  | take (i : ℕ)
  | chunk (n : ℕ)
  | close (i : ℕ)

variable {Loc : Type*}

def init (cfg : Config) (files : Loc → Option Bytes) : State Loc :=
  ⟨PcpMachine.init cfg, files, none⟩

/-- The calls of the producer between its sections, and a wake-up. -/
def Lockless : PcpMachine.Act → Prop
  | .opendir _ => True
  | .readdir => True
  | .spuriousNotFull => True
  | .spuriousNotEmpty _ => True
  | _ => False

instance Lockless.decidable : DecidablePred Lockless
  | .opendir _ => isTrue trivial
  | .readdir => isTrue trivial
  | .spuriousNotFull => isTrue trivial
  | .spuriousNotEmpty _ => isTrue trivial
  | .produce _ _ _ => isFalse id
  | .finish => isFalse id
  | .consume _ => isFalse id
  | .check _ => isFalse id

def State.source (w : World Loc) (c : Copying) (s : State Loc) : Bytes :=
  readable s.files (w.denotes c.slot.sourceFile)

section Step

variable [DecidableEq Loc]

/-- The write of the chunk that was read. -/
def State.write (w : World Loc) (c : Copying) (n : ℕ) (s : State Loc) : State Loc :=
  { s with
    files := Function.update s.files (w.denotes c.slot.destinationFile)
      (some (writeAt c.pos (((s.source w c).drop c.pos).take n)
        (readable s.files (w.denotes c.slot.destinationFile))))
    copying := some { c with pos := c.pos+n } }

def step (w : World Loc) (cfg : Config) : Act → State Loc → Option (State Loc)
  | .section_ a, s =>
    if copies a s.machine = none ∧ (s.copying = none ∨ Lockless a) ∧
        Permits w a ⟨s.machine, s.files⟩ then
      (PcpMachine.step cfg a s.machine).map
        (fun m => ⟨m, effect w a ⟨s.machine, s.files⟩, s.copying⟩)
    else none
  | .take i, s =>
    if s.copying = none ∧ s.machine.consumers[i]? = some .consume then
      (copies (.consume i) s.machine).map (fun slot => { s with copying := some ⟨i, slot, 0⟩ })
    else none
  | .chunk n, s => s.copying.bind (fun c =>
      if 1 ≤ n ∧ n ≤ chunkSize ∧ c.pos+n ≤ (s.source w c).length then some (s.write w c n)
      else none)
  | .close i, s => s.copying.bind (fun c =>
      if c.consumer = i ∧ (s.source w c).length ≤ c.pos then
        (PcpMachine.step cfg (.consume i) s.machine).map (fun m => ⟨m, s.files, none⟩)
      else none)

end Step

section Refinement

variable [DecidableEq Loc] {w : World Loc} {cfg : Config} {files : Loc → Option Bytes}
  {u v : State Loc} {s : PcpSource.State Loc}

/-- The copy that is under way shows in its destination alone. -/
structure During (w : World Loc) (c : Copying) (u : State Loc) (s : PcpSource.State Loc) :
    Prop where
  slot : copies (.consume c.consumer) u.machine = some c.slot
  consumer : u.machine.consumers[c.consumer]? = some Consumer.consume
  files : u.files = Function.update s.files (w.denotes c.slot.destinationFile)
    (some ((readable s.files (w.denotes c.slot.sourceFile)).take c.pos))

/-- What the machine of whole sections looks like meanwhile. -/
structure Shows (w : World Loc) (cfg : Config) (files : Loc → Option Bytes) (u : State Loc)
    (s : PcpSource.State Loc) : Prop where
  machine : u.machine = s.machine
  tracked : Tracked w cfg files s
  idle : u.copying = none → u.files = s.files
  during : ∀ c, u.copying = some c → During w c u s

theorem Shows.live (h : Shows w cfg files u s) {c : Copying} (hc : u.copying = some c) :
    c.slot ∈ PcpFifo.live s.machine.buf :=
  taken_live h.tracked.fifo (h.machine ▸ (h.during c hc).slot)

theorem Shows.apart (h : Shows w cfg files u s) (hapart : Apart w (listing cfg)) {c : Copying}
    (hc : u.copying = some c) :
    w.denotes c.slot.sourceFile ≠ w.denotes c.slot.destinationFile ∧
      u.source w c = readable s.files (w.denotes c.slot.sourceFile) := by
  have hmem := List.mem_map_of_mem (f := paths) (live_opened h.tracked.fifo (h.live hc))
  have hne : w.denotes c.slot.sourceFile ≠ w.denotes c.slot.destinationFile :=
    (hapart.opened h.tracked.listed).sources _ hmem _ hmem
  refine ⟨hne, ?_⟩
  rw [State.source, (h.during c hc).files, readable, Function.update_of_ne hne, readable]

end Refinement

end CSE344.PcpKilled
