import SystemProgramming.CString
import SystemProgramming.Tally
import SystemProgramming.TransitionRun

/-!
# The shared file table of the midterm server

Each child serves one request over `shm->files` and `shm->num_files`. Every
access of the table is one step; the structure copy of the shift is a load and
a store. `value` is what the environment contributes to a step: the descriptor
that `open` returns, the number of bytes read, whether more is to be read. An
access outside the 100 entries of the array is no step.
-/

set_option autoImplicit false

namespace CSE344.TableMachine
open CString Tally

def maxFiles : ℕ := 100

/-- What a field of type `int` holds after a store. -/
def asInt (n : ℤ) : ℤ := n.bmod (2^32)

theorem asInt_natCast {n : ℕ} : asInt n = n ↔ n < 2^31 := by
  unfold asInt
  constructor
  · intro h
    have := Int.bmod_lt (x := (n:ℤ)) (m := 2^32) (by decide)
    omega
  · intro h
    apply Int.bmod_eq_of_le <;> omega

theorem asInt_asInt (n : ℤ) : asInt (asInt n) = asInt n := Int.bmod_bmod

theorem asInt_add (m n : ℤ) : asInt (asInt m + n) = asInt (m + n) := Int.bmod_add_bmod

structure Entry where
  name : Bytes
  size : ℤ
  fd : ℤ
  readers : ℤ
  writers : ℤ
  deriving DecidableEq, Repr

inductive Operation where
  | readFile
  | writeFile
  | uploadFile
  | downloadFile
  deriving DecidableEq, Repr

structure Call where
  operation : Operation
  file : Bytes
  line : ℤ
  deriving DecidableEq, Repr

/-- The accesses made with an index that was looked up. -/
inductive Hold where
  | readerInc
  | readFd
  | readerDec
  | testReaders
  | testWriters
  | writerInc
  | streamFd
  | seekFd
  | writeFd
  | fetchFd
  | writerDec
  | closeFd
  | unlinkName
  deriving DecidableEq, Repr

/-- The accesses of the loop that shifts the table to the left. -/
inductive Shift where
  | test
  | load
  | store (e : Entry)
  | numDec
  deriving DecidableEq, Repr

/-- The accesses that fill the entry of an uploaded file. -/
inductive Add where
  | setName
  | setFd
  | setReaders
  | setWriters
  | receive
  | storeFd (n : ℤ)
  | addSize (n : ℤ)
  | numInc
  deriving DecidableEq, Repr

inductive Pc where
  | look (i : ℤ)
  | compare (i : ℤ)
  | hold (k : ℤ) (st : Hold)
  | shift (k i : ℤ) (st : Shift)
  | pick
  | add (k : ℤ) (st : Add)
  | done
  deriving DecidableEq, Repr

/-- The entry that the next access is to. -/
def Pc.index : Pc → Option ℤ
  | .compare i => some i
  | .hold k _ => some k
  | .shift _ i .load => some (i+1)
  | .shift _ i (.store _) => some i
  | .add _ .numInc => none
  | .add k _ => some k
  | _ => none

def Pc.Inside (pc : Pc) : Prop := ∀ i ∈ pc.index, 0 ≤ i ∧ i < maxFiles

instance (pc : Pc) : Decidable pc.Inside := inferInstanceAs (Decidable (∀ i ∈ pc.index, _))

/-- `opens` are the descriptors that the child has, those of the server and its
FIFO. -/
structure Child where
  call : Call
  opens : ℤ → Bool
  alive : Bool
  pc : Pc

/-- `fdopen` of a descriptor that is not open gives the null pointer, on which
`fgets` crashes. -/
def Child.Crashes (c : Child) (table : ℤ → Entry) : Prop :=
  match c.pc with
  | .hold k .readFd => 0 < c.call.line ∧ c.opens (table k).fd = false
  | .hold k .streamFd => 0 < c.call.line ∧ c.opens (table k).fd = false
  | _ => False

instance (c : Child) (table : ℤ → Entry) : Decidable (c.Crashes table) := by
  unfold Child.Crashes
  split <;> infer_instance

structure State (n : ℕ) where
  table : ℤ → Entry
  numFiles : ℤ
  children : Fin n → Child

structure Act (n : ℕ) where
  child : Fin n
  value : ℤ

variable {n : ℕ}

def State.goto (s : State n) (p : Fin n) (pc : Pc) : State n :=
  { s with children := Function.update s.children p { s.children p with pc := pc } }

/-- A child that crashes stays where it is. -/
def State.kill (s : State n) (p : Fin n) : State n :=
  { s with children := Function.update s.children p { s.children p with alive := false } }

def State.store (s : State n) (k : ℤ) (e : Entry) : State n :=
  { s with table := Function.update s.table k e }

/-- What the lookup loop leads to when it ends without a match. -/
def Call.missing (c : Call) : Pc := if c.operation = .uploadFile then .pick else .done

/-- What a match at `i` leads to. -/
def Call.found (c : Call) (i : ℤ) : Pc :=
  match c.operation with
  | .readFile => .hold i .readerInc
  | .writeFile => .hold i .testReaders
  | .uploadFile => .done
  | .downloadFile => .hold i .testReaders

/-- What is done in the write section: `fdopen` for a line, `lseek` and
`write` for the end of the file, or the loop of `read`. -/
def Call.enter (c : Call) : Hold :=
  if c.operation = .downloadFile then .fetchFd else if 0 < c.line then .streamFd else .seekFd

def Call.leave (c : Call) (k : ℤ) : Pc :=
  if c.operation = .downloadFile then .hold k .closeFd else .done

/-- One access with the index `k`: the entry afterwards and the next access. -/
def holdStep (c : Call) (value k : ℤ) (e : Entry) : Hold → Entry × Pc
  | .readerInc => ({ e with readers := e.readers+1 }, .hold k .readFd)
  | .readFd => (e, .hold k .readerDec)
  | .readerDec => ({ e with readers := e.readers-1 }, .done)
  | .testReaders => (e, .hold k (if 0 < e.readers then .testReaders else .testWriters))
  | .testWriters => (e, .hold k (if 0 < e.writers then .testReaders else .writerInc))
  | .writerInc => ({ e with writers := e.writers+1 }, .hold k c.enter)
  | .streamFd => (e, .hold k .writerDec)
  | .seekFd => (e, .hold k .writeFd)
  | .writeFd => (e, .hold k .writerDec)
  | .fetchFd => (e, .hold k (if 0 < value then .fetchFd else .writerDec))
  | .writerDec => ({ e with writers := e.writers-1 }, c.leave k)
  | .closeFd => (e, .hold k .unlinkName)
  | .unlinkName => (e, .shift k k .test)

def shiftStep (p : Fin n) (k i : ℤ) (s : State n) : Shift → State n
  | .test => s.goto p (.shift k i (if i < s.numFiles-1 then .load else .numDec))
  | .load => s.goto p (.shift k i (.store (s.table (i+1))))
  | .store e => (s.store i e).goto p (.shift k (i+1) .test)
  | .numDec => { s with numFiles := s.numFiles-1 }.goto p .done

/-- One access of an upload to the entry that it fills. -/
def addStep (c : Call) (value : ℤ) (e : Entry) : Add → Entry × Add
  | .setName => ({ e with name := c.file }, .setFd)
  | .setFd => ({ e with fd := value }, .setReaders)
  | .setReaders => ({ e with readers := 0 }, .setWriters)
  | .setWriters => ({ e with writers := 0 }, .receive)
  | .receive => (e, if 0 < value then .storeFd value else .numInc)
  | .storeFd m => (e, .addSize m)
  | .addSize m => ({ e with size := asInt (e.size + m) }, .receive)
  | .numInc => (e, .numInc)

/-- The next access of a child that is alive. -/
def access (a : Act n) (s : State n) : Option (State n) :=
  let c := s.children a.child
  match c.pc with
  | .look i => some (s.goto a.child (if i < s.numFiles then .compare i else c.call.missing))
  | .compare i => some (s.goto a.child
      (if (s.table i).name = c.call.file then c.call.found i else .look (i+1)))
  | .hold k st =>
    let r := holdStep c.call a.value k (s.table k) st
    some ((s.store k r.1).goto a.child r.2)
  | .shift k i st => some (shiftStep a.child k i s st)
  | .pick => some (s.goto a.child (.add s.numFiles .setName))
  | .add _ .numInc => some ({ s with numFiles := s.numFiles+1 }.goto a.child .done)
  | .add k st =>
    let r := addStep c.call a.value (s.table k) st
    some ((s.store k r.1).goto a.child (.add k r.2))
  | .done => none

def step (a : Act n) (s : State n) : Option (State n) :=
  let c := s.children a.child
  if c.alive = true ∧ c.pc.Inside then
    if c.Crashes s.table then some (s.kill a.child) else access a s
  else none

def inRead : Pc → Bool
  | .hold _ .readFd => true
  | .hold _ .readerDec => true
  | _ => false

def inWrite : Pc → Bool
  | .hold _ .streamFd => true
  | .hold _ .seekFd => true
  | .hold _ .writeFd => true
  | .hold _ .fetchFd => true
  | .hold _ .writerDec => true
  | _ => false

/-- The children that are in a section of a file. -/
def inSection (sec : Pc → Bool) (file : Bytes) (c : Child) : Bool :=
  decide (c.call.file = file) && sec c.pc

/-- The regular files of the directory, as `list_files` stores them. -/
structure Listing where
  names : List Bytes
  distinct : names.Nodup
  size : Bytes → ℤ
  fd : Bytes → ℤ

def Listing.entry (l : Listing) (name : Bytes) : Entry := ⟨name, l.size name, l.fd name, 0, 0⟩

/-- The table after `list_files`; `rest` is what the segment holds beyond. -/
def start (l : Listing) (rest : ℤ → Entry) (opens : Fin n → ℤ → Bool) (calls : Fin n → Call) :
    State n where
  table i := if i < 0 then rest i else (l.names[i.toNat]?).elim (rest i) l.entry
  numFiles := l.names.length
  children p := ⟨calls p, opens p, true, .look 0⟩

/-- A step is a crash, or an access by a child that does not crash. -/
theorem step_cases {a : Act n} {s t : State n} (h : step a s = some t) :
    ((s.children a.child).alive = true ∧ (s.children a.child).pc.Inside) ∧
      ((s.children a.child).Crashes s.table ∧ t = s.kill a.child ∨
        ¬ (s.children a.child).Crashes s.table ∧ access a s = some t) := by
  unfold step at h
  dsimp only at h
  split_ifs at h with hlive hcrash
  · cases h
    exact ⟨hlive, .inl ⟨hcrash, rfl⟩⟩
  · exact ⟨hlive, .inr ⟨hcrash, h⟩⟩

end CSE344.TableMachine
