import SystemProgramming.BoxClient
import SystemProgramming.TableDescriptors
import SystemProgramming.Words

/-!
# One client of the midterm server and its FIFO

The FIFO `/tmp/<pid>` is one queue of bytes. The client and every child that
serves it open it for reading and writing, either may read what is in it, and
what is in it is lost when its last descriptor is closed. A read waits for a
byte and never returns 0, since the reader itself can write, so the loop of
`receive_response` has no end. Every byte carries where it comes from. The
name of the FIFO is taken to stay, and the queue of the server to hold the
client's own PID.
-/

set_option autoImplicit false

namespace CSE344.FifoSession
open CString Words TableDescriptors

def maxLine : ℕ := 1024

/-- What a pipe holds before a write has to wait. -/
def capacity : ℕ := 65536

inductive Origin where
  | request (k : ℕ)
  | body (k : ℕ)
  | server (k : Option ℕ)
  deriving DecidableEq, Repr

def Origin.isServer : Origin → Bool
  | .server _ => true
  | _ => false

abbrev Tagged := List (Origin × UInt8)

def tagged (origin : Origin) (data : Bytes) : Tagged := data.map (fun b => (origin, b))

/-- The array `request` as it is written, with the string that `fgets` left in
it, and what `open` of an uploaded file gives. -/
structure Request where
  block : Bytes
  full : block.length = maxLine
  ended : 0 ∈ block
  file : Option Bytes

structure Config where
  pid : ℤ
  requests : List Request

def whitespace : Bytes := [32, 9, 10, 11, 12, 13]

/-- `sscanf` with a word and then `n` strings. -/
def scanned (word : String) (n : ℕ) (text : Bytes) : Bool :=
  (ascii word).isPrefixOf text && decide (n ≤ (words whitespace (text.drop word.length)).length)

inductive Command where
  | help
  | list
  | readF
  | writeT
  | upload
  | download
  | quit
  | killServer
  | invalid
  deriving DecidableEq, Repr

def command (text : Bytes) : Command :=
  if text = ascii "help" then .help
  else if text = ascii "list" then .list
  else if scanned "readF" 1 text then .readF
  else if scanned "writeT" 2 text then .writeT
  else if scanned "upload" 1 text then .upload
  else if scanned "download" 1 text then .download
  else if text = ascii "quit" then .quit
  else if text = ascii "killServer" then .killServer
  else .invalid

def helpText : Bytes :=
  ascii "Available commands are: help, list, readF, writeT, upload, download, quit, killServer\n"

def invalidText : Bytes := ascii "Invalid command. Type help for available commands.\n"

/-- What a child finds: `array` is in `buffer` before anything is stored,
`message` is what the handler composes and `rest` what its buffer holds behind
it, `stray` and `strayFifo` are the uninitialised `pid` and whether the
uninitialised `fd` is the number of the FIFO. -/
structure Outcome where
  array : Bytes
  files : List (Bytes × ℤ)
  found : Bool
  early : Bool
  data : List Bytes
  message : Bytes
  rest : Bytes
  stray : ℤ
  strayFifo : Bool

inductive Effect where
  | send (data : Bytes)
  | drain
  | kill
  deriving DecidableEq, Repr

/-- A string stored at the start of an array. -/
def overlay (text array : Bytes) : Bytes := text ++ 0 :: array.drop (text.length+1)

def listLine (file : Bytes × ℤ) : Bytes :=
  file.1 ++ ascii "\t" ++ ascii (toString file.2) ++ ascii " bytes\n"

/-- The arrays written for the entries, each on top of the last one. -/
def listBlocks (buffer : Bytes) : List (Bytes × ℤ) → List Bytes
  | [] => []
  | file::files =>
    overlay (listLine file) buffer :: listBlocks (overlay (listLine file) buffer) files

/-- The end of a handler: the path is stored over the message, and the array
goes to the FIFO of that path. -/
def strayReply (pid : ℤ) (o : Outcome) : List Effect :=
  if o.stray = pid then [.send (overlay (fifoPath o.stray) (o.message ++ o.rest))] else []

/-- What serving a command does to the client's FIFO. -/
def handler (pid : ℤ) (o : Outcome) (buffer : Bytes) : Command → List Effect
  | .help => [.send helpText]
  | .list => (listBlocks buffer o.files ++ [ascii "End of list\n"]).map .send
  | .readF => strayReply pid o
  | .writeT =>
    if o.early then (if o.strayFifo then [.send (o.message ++ o.rest)] else [])
    else strayReply pid o
  | .upload => (if !o.found && o.strayFifo then [.drain] else []) ++ strayReply pid o
  | .download => (if o.found && o.strayFifo then o.data.map .send else []) ++ strayReply pid o
  | .quit => strayReply pid o ++ [.send (ascii "Bye\n")]
  | .killServer => strayReply pid o ++ [.kill]
  | .invalid => [.send invalidText]

/-- The message composed for the outcome of a command. -/
def composed (o : Outcome) : Command → Bytes
  | .help => helpText
  | .list => (o.files.map listLine).flatten ++ ascii "End of list\n"
  | .quit => ascii "Bye\n"
  | .killServer => ascii "Server killed.\n"
  | .invalid => invalidText
  | _ => o.message

/-- `k` counts the requests sent before. -/
inductive Client where
  | ready (k : ℕ)
  | opened (k : ℕ)
  | sending (k : ℕ) (blocks : List Bytes)
  | closing (k : ℕ)
  | receiving (k : ℕ)
  | reading (k : ℕ)
  | undefined
  deriving DecidableEq, Repr

inductive Child where
  | unborn
  | opening
  | reading
  | running (k : Option ℕ) (effects : List Effect)
  | done
  deriving DecidableEq, Repr

/-- `queued` is how often the client stands in the queue and `opens` the number
of descriptors of the FIFO. `sent`, `served`, `finished` and `printed` are
histories: the requests written, the message composed for each that a child has
read whole, those whose child has closed, and what the client has printed for each. -/
structure State where
  queued : ℕ
  alive : Bool
  fifo : Tagged
  opens : ℕ
  client : Client
  forked : ℕ
  children : ℕ → Child
  sent : ℕ
  served : ℕ → Option Bytes
  finished : List ℕ
  printed : ℕ → Tagged

def init (queued : ℕ) : State where
  queued := queued
  alive := true
  fifo := []
  opens := 0
  client := .ready 0
  forked := 0
  children := fun _ => .unborn
  sent := 0
  served := fun _ => none
  finished := []
  printed := fun _ => []

inductive Act where
  | client
  | fork
  | child (i : ℕ) (o : Outcome)

def State.write (origin : Origin) (data : Bytes) (s : State) : Option State :=
  if s.fifo.length+data.length ≤ capacity then some { s with fifo := s.fifo ++ tagged origin data }
  else none

def State.openFifo (s : State) : State := { s with opens := s.opens+1 }

def State.closeFifo (s : State) : State :=
  { s with opens := s.opens-1, fifo := if s.opens ≤ 1 then [] else s.fifo }

/-- What `send_request` does after it has written the request. A missing file
ends in a store past `file_name`. -/
def Request.next (q : Request) (k : ℕ) : Client :=
  if scanned "upload" 1 (cstr q.block) then
    match q.file with
    | none => .undefined
    | some content => .sending k (BoxClient.fileBlocks content)
  else .closing k

variable (cfg : Config)

/-- One step of `send_request` and `receive_response`. -/
def clientStep (s : State) : Option State :=
  match s.client with
  | .ready k => cfg.requests[k]?.map (fun _ => { s.openFifo with client := .opened k })
  | .opened k => cfg.requests[k]?.bind (fun q =>
      (s.write (.request k) q.block).map (fun s => { s with client := q.next k, sent := k+1 }))
  | .sending k [] => some { s with client := .closing k }
  | .sending k (b::bs) =>
    (s.write (.body k) b).map (fun s => { s with client := .sending k bs })
  | .closing k => some { s.closeFifo with client := .receiving k }
  | .receiving k => some { s.openFifo with client := .reading k }
  | .reading k =>
    if s.fifo = [] then none
    else some { s with
      fifo := s.fifo.drop maxLine
      printed := Function.update s.printed k (s.printed k ++ s.fifo.take maxLine) }
  | .undefined => none

/-- The request of which the bytes are the whole block. -/
def wholeRequest (taken : Tagged) : Option ℕ :=
  match taken with
  | (.request k, _)::_ =>
    match cfg.requests[k]? with
    | some q => if taken = tagged (.request k) q.block then some k else none
    | none => none
  | _ => none

/-- The array `buffer` of a child after its read. -/
def bufferAfter (o : Outcome) (taken : Tagged) : Bytes :=
  let array := overlay (fifoPath cfg.pid) o.array
  taken.map Prod.snd ++ array.drop taken.length

def State.setChild (i : ℕ) (c : Child) (s : State) : State :=
  { s with children := Function.update s.children i c }

@[simp] theorem setChild_self (i : ℕ) (c : Child) (s : State) : (s.setChild i c).children i = c :=
  Function.update_self _ _ _

theorem setChild_ne {i j : ℕ} (h : j ≠ i) (c : Child) (s : State) :
    (s.setChild i c).children j = s.children j :=
  Function.update_of_ne h _ _

def readRequest (i : ℕ) (o : Outcome) (s : State) : State :=
  let taken := s.fifo.take maxLine
  let buffer := bufferAfter cfg o taken
  let k := wholeRequest cfg taken
  { s.setChild i (.running k (handler cfg.pid o buffer (command (cstr buffer)))) with
    fifo := s.fifo.drop maxLine
    served := fun j =>
      if some j = k then some (composed o (command (cstr buffer))) else s.served j }

def Client.holds : Client → Bool
  | .ready _ => false
  | .receiving _ => false
  | _ => true

/-- `kill_server`: the server and its children are gone. -/
def State.killed (s : State) : State :=
  { s with
    alive := false
    children := fun _ => .done
    opens := if s.client.holds then 1 else 0
    fifo := if s.client.holds then s.fifo else [] }

/-- One step of `handle_client`. -/
def childStep (i : ℕ) (o : Outcome) (s : State) : Option State :=
  match s.children i with
  | .unborn => none
  | .opening => some (s.openFifo.setChild i .reading)
  | .reading => if s.fifo = [] then none else some (readRequest cfg i o s)
  | .running k (.send data :: effects) =>
    (s.write (.server k) data).map (State.setChild i (.running k effects))
  | .running _ (.drain :: _) =>
    if s.fifo = [] then none else some { s with fifo := s.fifo.drop maxLine }
  | .running _ (.kill :: _) => some s.killed
  | .running k [] => some { s.closeFifo.setChild i .done with
      finished := s.finished ++ k.toList }
  | .done => none

/-- The main loop dequeues the client and forks. -/
def fork (s : State) : Option State :=
  if s.alive ∧ 0 < s.queued then
    some { s.setChild s.forked .opening with queued := s.queued-1, forked := s.forked+1 }
  else none

def step (a : Act) (s : State) : Option State :=
  match a with
  | .client => clientStep cfg s
  | .fork => fork s
  | .child i o => childStep cfg i o s

/-- No request has been sent, or the first one has and no other will be. -/
def Once (s : State) : Prop :=
  (s.sent = 0 ∧ (s.client = .ready 0 ∨ s.client = .opened 0)) ∨
    (s.sent = 1 ∧ ∀ k, s.client ≠ .ready k ∧ s.client ≠ .opened k)

variable {cfg} {s t : State}

theorem childStep_client {i : ℕ} {o : Outcome} (h : childStep cfg i o s = some t) :
    t.client = s.client ∧ t.sent = s.sent := by
  unfold childStep State.write at h
  split at h
  · cases h
  · cases h
    exact ⟨rfl, rfl⟩
  · split_ifs at h
    cases h
    exact ⟨rfl, rfl⟩
  · split_ifs at h
    · cases h
      exact ⟨rfl, rfl⟩
    · cases h
  · split_ifs at h
    cases h
    exact ⟨rfl, rfl⟩
  · cases h
    exact ⟨rfl, rfl⟩
  · cases h
    exact ⟨rfl, rfl⟩
  · cases h

theorem once_client (hs : Once s) (h : clientStep cfg s = some t) : Once t := by
  unfold clientStep State.write at h
  rcases hs with ⟨hsent, hc | hc⟩ | ⟨hsent, hc⟩
  · rw [hc] at h
    obtain ⟨q, -, rfl⟩ := Option.map_eq_some_iff.mp h
    exact Or.inl ⟨hsent, Or.inr rfl⟩
  · rw [hc] at h
    obtain ⟨q, -, hq⟩ := Option.bind_eq_some_iff.mp h
    split_ifs at hq
    · cases hq
      refine Or.inr ⟨rfl, fun k => ?_⟩
      dsimp only
      unfold Request.next
      split_ifs
      · cases q.file <;> exact ⟨nofun, nofun⟩
      · exact ⟨nofun, nofun⟩
    · cases hq
  · right
    split at h
    · exact absurd ‹_› (hc _).1
    · exact absurd ‹_› (hc _).2
    · cases h
      exact ⟨hsent, fun k => ⟨nofun, nofun⟩⟩
    · split_ifs at h
      · cases h
        exact ⟨hsent, fun k => ⟨nofun, nofun⟩⟩
      · cases h
    · cases h
      exact ⟨hsent, fun k => ⟨nofun, nofun⟩⟩
    · cases h
      exact ⟨hsent, fun k => ⟨nofun, nofun⟩⟩
    · split_ifs at h
      cases h
      exact ⟨hsent, hc⟩
    · cases h

/-- The client never sends a second request: its first reply has no end. -/
theorem one_request (queued : ℕ) (as : List Act) (t : State)
    (h : TransitionRun.run (step cfg) as (init queued) = some t) : t.sent ≤ 1 := by
  have honce : Once t := by
    apply TransitionRun.run_invariant (step cfg) Once _ as (init queued) t _ h
    swap
    · exact Or.inl ⟨rfl, Or.inl rfl⟩
    intro a s t hs hstep
    cases a with
    | client => exact once_client hs hstep
    | fork =>
      change fork s = some t at hstep
      unfold fork at hstep
      split_ifs at hstep
      cases hstep
      exact hs
    | child i o =>
      obtain ⟨hclient, hsent⟩ := childStep_client hstep
      rw [Once, hclient, hsent]
      exact hs
  rcases honce with ⟨hsent, -⟩ | ⟨hsent, -⟩ <;> omega

end CSE344.FifoSession
