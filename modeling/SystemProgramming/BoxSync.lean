import SystemProgramming.BoxClient
import SystemProgramming.BoxServer
import SystemProgramming.SharedWire
import SystemProgramming.TransitionRun

/-!
# The synchronize thread and the server on one connection

Both directions are byte streams: a `recv` takes any number of the bytes that
have arrived, at most a buffer. Bytes to the server carry the number of the
check or timestamp request they belong to, bytes to the client the reason why
the server sent them.
-/

set_option autoImplicit false

namespace CSE344.BoxSync
open CString BoxClient BoxServer SharedWire TransitionRun

/-- What the client's directory calls return: the first listing, and each
pass of the loop with `none` for a failing `opendir`. -/
structure Local where
  clientDir : CStr
  listing : List CStr
  pass : ℕ → Option (List Entry)

inductive Task where
  | turn
  | awaitCheck (e : Entry)
  | awaitStamp (e : Entry)
  | ended
  | undefined
  deriving DecidableEq

/-- `sends` are the calls of `send` due before `task` goes on, `entries` the
rest of the pass, `requests` the number of checks and timestamps so far. -/
structure Client where
  sends : List (Option ℕ × Bytes)
  task : Task
  entries : List Entry
  passes : ℕ
  requests : ℕ

/-- Why the server sent a byte; an answer belongs to all requests that had a
byte in the block it was computed from. -/
inductive Origin where
  | listing
  | answer (requests : List (Option ℕ))
  deriving DecidableEq, Repr

/-- A block that the client consumed as the reply to a request. -/
structure Reply where
  request : ℕ
  origins : List Origin
  deriving DecidableEq, Repr

structure State where
  client : Client
  server : Conn
  toServer : List (Option ℕ × UInt8)
  toClient : List (Origin × UInt8)
  replies : List Reply

inductive Act where
  | send
  | turn
  | clientRecv (n : ℕ)
  | clientLost
  | serverRecv (n : ℕ) (o : Outcome)
  | serverList
  | serverEof (o : Outcome)

def Client.ask (h : Header) (e : Entry) (task : Task) (c : Client) : Client :=
  { c with
    sends := (request h e.name).map (some (c.requests+1), ·)
    task := task
    requests := c.requests+1 }

/-- One turn of the `readdir` loop; at its end the next pass is opened. -/
def Client.turn (env : Local) (c : Client) : Client :=
  match c.entries with
  | [] =>
    match env.pass c.passes with
    | none => { c with task := .ended }
    | some es => { c with entries := es, passes := c.passes+1 }
  | e::es =>
    if isDot e.name.bytes then { c with entries := es }
    else Client.ask .check e (.awaitCheck e) { c with entries := es }

def Client.upload (env : Local) (e : Entry) (c : Client) : Client :=
  { c with sends := (e.send env.clientDir).flatten.map (none, ·), task := .turn }

/-- What the client does with a block that answers its request. -/
def Client.receive (env : Local) (block : Bytes) (c : Client) : Client :=
  if BoxClient.bufferSize ≤ block.length then { c with task := .undefined }
  else
    match c.task with
    | .awaitCheck e =>
      if saysExists block then Client.ask .timestamp e (.awaitStamp e) c else Client.upload env e c
    | .awaitStamp e =>
      if isNewer block e.mtime then Client.upload env e c else { c with task := .turn }
    | _ => c

/-- A failing `recv` leaves the inner loop. -/
def Client.lost (c : Client) : Client := { c with entries := [], task := .turn }

def awaiting : Task → Bool
  | .awaitCheck _ => true
  | .awaitStamp _ => true
  | _ => false

def receiving : Mode → Bool
  | .hello => true
  | .command => true
  | .transfer _ _ => true
  | _ => false

/-- What the server has sent between two of its states. -/
def newSends (before after : Conn) (origin : Origin) : List (Origin × UInt8) :=
  wire ((after.sent.drop before.sent.length).map (origin, ·))

def step (env : Local) (cfg : Config) : Act → State → Option State
  | .send, s =>
    match s.client.sends with
    | [] => none
    | b::bs => some { s with
        client := { s.client with sends := bs }
        toServer := s.toServer ++ onWire b }
  | .turn, s =>
    if s.client.sends = [] ∧ s.client.task = .turn then
      some { s with client := s.client.turn env }
    else none
  | .clientRecv n, s =>
    if s.client.sends = [] ∧ awaiting s.client.task ∧
        1 ≤ n ∧ n ≤ BoxClient.bufferSize ∧ n ≤ s.toClient.length then
      some { s with
        client := s.client.receive env ((s.toClient.take n).map Prod.snd)
        toClient := s.toClient.drop n
        replies := s.replies ++ [⟨s.client.requests, (s.toClient.take n).map Prod.fst⟩] }
    else none
  | .clientLost, s =>
    if s.client.sends = [] ∧ awaiting s.client.task then
      some { s with client := s.client.lost }
    else none
  | .serverRecv n o, s =>
    if receiving s.server.mode ∧
        1 ≤ n ∧ n ≤ BoxServer.bufferSize ∧ n ≤ s.toServer.length then
      let server := onRecv cfg ⟨(s.toServer.take n).map Prod.snd, o⟩ s.server
      some { s with
        server := server
        toServer := s.toServer.drop n
        toClient := s.toClient ++
          newSends s.server server (.answer ((s.toServer.take n).map Prod.fst)) }
    else none
  | .serverList, s =>
    match s.server.mode with
    | .listing _ => some { s with
        server := synchronizeDirectory s.server
        toClient := s.toClient ++ newSends s.server (synchronizeDirectory s.server) .listing }
    | _ => none
  | .serverEof o, s =>
    if receiving s.server.mode ∧ s.toServer = [] ∧ s.client.task = .ended then
      some { s with server := onRecv cfg ⟨[], o⟩ s.server }
    else none

def start (env : Local) (buffer : Bytes) (files : Bytes → Option Bytes) : State where
  client := ⟨(hello env.clientDir env.listing).map (none, ·), .turn, [], 0, 0⟩
  server := accepted buffer files
  toServer := []
  toClient := []
  replies := []

/-- Every consumed reply was sent in answer to its request. -/
def RepliesMatch (s : State) : Prop :=
  ∀ r ∈ s.replies, ∀ o ∈ r.origins, ∃ ks, o = .answer ks ∧ some r.request ∈ ks

/-- The client waits for a reply and nothing is left to be sent or read. -/
def Blocked (s : State) : Prop :=
  s.client.sends = [] ∧ awaiting s.client.task = true ∧ s.toServer = [] ∧ s.toClient = [] ∧
    receiving s.server.mode = true

end CSE344.BoxSync
