import SystemProgramming.BiboServer
import SystemProgramming.TransitionRun

/-!
# Commands and replies of an HW4 session

The client writes the four bytes of the server's PID and then one command at
a time, each after a reply has been read. Bytes to the server are tagged with
the command they belong to, bytes to the client with the tags of the block
that they answer.
-/

set_option autoImplicit false

namespace CSE344.BiboReplies
open CString BiboServer TransitionRun

inductive Tag where
  | preamble
  | command (k : ℕ)
  deriving DecidableEq, Repr

/-- What one `recv` of the client gave, and the text printed for it. -/
structure Printed where
  command : ℕ
  answered : List (List Tag)
  text : Bytes
  deriving DecidableEq, Repr

inductive Pc where
  | typing
  | receiving
  | ended
  deriving DecidableEq, Repr

structure Session where
  typed : List CStr
  sent : ℕ
  pc : Pc
  last : Bytes
  clientResponse : Bytes
  server : Option State
  toServer : List (Tag × UInt8)
  toClient : List (List Tag × UInt8)
  printed : List Printed

inductive Act where
  | send
  | clientRecv (n : ℕ)
  | clientEof
  | serverRecv (n : ℕ) (openOk : Bool)

/-- The bytes of an `int` in memory. -/
def pidBytes (pid : UInt32) : Bytes :=
  [pid.toUInt8, (pid >>> 8).toUInt8, (pid >>> 16).toUInt8, (pid >>> 24).toUInt8]

def start (pid : UInt32) (commands : List CStr) (clientResponse : Bytes)
    (files : Bytes → Option Bytes) (response : Bytes) : Session where
  typed := commands
  sent := 0
  pc := .typing
  last := []
  clientResponse := clientResponse
  server := some ⟨files, response, .loop⟩
  toServer := (pidBytes pid).map (.preamble, ·)
  toClient := []
  printed := []

def leaves (command : Bytes) : Bool := strncmpEq "quit" command || strncmpEq "killServer" command

def step (cfg : Config) : Act → Session → Option Session
  | .send, s =>
    match s.pc, s.typed with
    | .typing, c::cs => some { s with
        typed := cs
        sent := s.sent+1
        pc := .receiving
        last := c.bytes
        toServer := s.toServer ++ c.bytes.map (.command s.sent, ·) }
    | _, _ => none
  | .clientRecv n, s =>
    if s.pc = .receiving ∧ 1 ≤ n ∧ n ≤ bufferSize ∧ n ≤ s.toClient.length then
      let block := s.toClient.take n
      let response := block.map Prod.snd ++ s.clientResponse.drop n
      some { s with
        pc := if leaves s.last then .ended else .typing
        clientResponse := response
        toClient := s.toClient.drop n
        printed := s.printed ++ [⟨s.sent-1, block.map Prod.fst, cstr response⟩] }
    else none
  | .clientEof, s =>
    if s.pc = .receiving ∧ s.toClient = [] ∧ s.server.all (fun t => t.next ≠ .loop) then
      some { s with pc := .ended }
    else none
  | .serverRecv n openOk, s =>
    match s.server with
    | none => none
    | some t =>
      if t.next = .loop ∧ 1 ≤ n ∧ n ≤ bufferSize ∧ n ≤ s.toServer.length then
        let block := s.toServer.take n
        match handle cfg openOk (block.map Prod.snd) t with
        | none => some { s with server := none, toServer := s.toServer.drop n }
        | some (t, reply) => some { s with
            server := some t
            toServer := s.toServer.drop n
            toClient := s.toClient ++ reply.map (block.map Prod.fst, ·) }
      else none

/-- The tags of the block that is exactly the `k`-th command. -/
def exactly (commands : List CStr) (k : ℕ) : List Tag :=
  List.replicate (commands.getD k ⟨[], by simp⟩).bytes.length (.command k)

/-- Every printed reply is the reply computed for its command. -/
def Matched (commands : List CStr) (s : Session) : Prop :=
  ∀ p ∈ s.printed, ∀ o ∈ p.answered, o = exactly commands p.command

/-- The law for a client: it holds of every run. -/
def RepliesMatch (pid : UInt32) (commands : List CStr) : Prop :=
  ∀ (cfg : Config) (clientResponse : Bytes) (files : Bytes → Option Bytes) (response : Bytes)
    (as : List Act) (s : Session),
    run (step cfg) as (start pid commands clientResponse files response) = some s →
      Matched commands s

theorem command_single (cfg : Config) (openOk : Bool) (b : UInt8) (s : State) :
    command cfg openOk (received [b]) s = s.respond (ascii "Invalid command") := by
  obtain ⟨rest, hrest⟩ : ∃ rest, received [b] = b::0::rest := ⟨_, rfl⟩
  simp [command, strncmpEq, hrest, ascii, List.isPrefixOf]

theorem handle_single (cfg : Config) (openOk : Bool) (b : UInt8) (files : Bytes → Option Bytes)
    (response : Bytes) :
    ∃ t, handle cfg openOk [b] ⟨files, response, .loop⟩ = some (t, ascii "Invalid command") := by
  refine ⟨⟨files, ascii "Invalid command" ++ 0 :: response.drop 16, .loop⟩, ?_⟩
  rw [handle, command_single]
  simp [State.respond, Stdio.strcpy, ascii, bufferSize, stringAt, cstrAt, cstr]

theorem step_idle (cfg : Config) (a : Act) (s t : Session)
    (hs : s.typed = [] ∧ s.pc = .typing ∧ s.printed = []) (h : step cfg a s = some t) :
    t.typed = [] ∧ t.pc = .typing ∧ t.printed = [] := by
  obtain ⟨htyped, hpc, hprinted⟩ := hs
  cases a with
  | send => simp [step, htyped] at h
  | clientRecv n => simp [step, hpc] at h
  | clientEof => simp [step, hpc] at h
  | serverRecv n openOk =>
    simp only [step] at h
    split at h
    · cases h
    · split_ifs at h
      split at h <;> cases h <;> exact ⟨htyped, hpc, hprinted⟩

theorem preamble_not_exact (commands : List CStr) (k : ℕ) :
    [Tag.preamble] ≠ exactly commands k := by
  intro h
  have hmem : Tag.preamble ∈ exactly commands k := by rw [← h]; simp
  cases List.eq_of_mem_replicate hmem

/-- The reply to the first byte of the PID is printed for the first command. -/
theorem preamble_printed (pid : UInt32) (c : CStr) (cs : List CStr) (cfg : Config) :
    ∃ as s, run (step cfg) as (start pid (c::cs) [] (fun _ => none) []) = some s ∧
      ¬ Matched (c::cs) s := by
  obtain ⟨t, ht⟩ := handle_single cfg true pid.toUInt8 (fun _ => none) []
  have hread : step cfg (.serverRecv 1 true) (start pid (c::cs) [] (fun _ => none) []) =
      some { start pid (c::cs) [] (fun _ => none) [] with
        server := some t
        toServer := (pidBytes pid).tail.map (.preamble, ·)
        toClient := (ascii "Invalid command").map ([.preamble], ·) } := by
    simp [step, start, pidBytes, bufferSize, ht]
  obtain ⟨s, hrun, hprinted⟩ : ∃ s, run (step cfg) [.serverRecv 1 true, .send, .clientRecv 1]
      (start pid (c::cs) [] (fun _ => none) []) = some s ∧
        s.printed = [⟨0, [[.preamble]], ascii "I"⟩] := by
    rw [run, hread]
    exact ⟨_, rfl, rfl⟩
  refine ⟨_, s, hrun, fun h => ?_⟩
  exact preamble_not_exact _ _ (h ⟨0, [[.preamble]], ascii "I"⟩ (by simp [hprinted]) [.preamble]
    (by simp))

/-- Replies match commands exactly when no command is typed. -/
theorem replies_match_iff (pid : UInt32) (commands : List CStr) :
    RepliesMatch pid commands ↔ commands = [] := by
  constructor
  · intro h
    rcases commands with - | ⟨c, cs⟩
    · rfl
    · obtain ⟨as, s, hrun, hnot⟩ := preamble_printed pid c cs ⟨[], none⟩
      exact absurd (h _ _ _ _ as s hrun) hnot
  · rintro rfl cfg clientResponse files response as s hrun
    have hidle := run_invariant (step cfg) (fun s => s.typed = [] ∧ s.pc = .typing ∧ s.printed = [])
      (step_idle cfg) as _ s ⟨rfl, rfl, rfl⟩ hrun
    intro p hp
    rw [hidle.2.2] at hp
    cases hp

/-- With every send delivered by itself the replies come one command late. -/
theorem replies_shifted :
    (∃ s, run (step ⟨ascii "srv", none⟩) [.serverRecv 4 true, .send, .clientRecv 15,
        .serverRecv 4 true, .send, .clientRecv 23]
        (start 1234 [literal "list", literal "help"] [] (fun _ => none) []) =
          some s ∧
      s.printed = [⟨0, List.replicate 15 (List.replicate 4 .preamble), ascii "Invalid command"⟩,
        ⟨1, List.replicate 23 (List.replicate 4 (.command 0)),
          ascii "Error reading directory"⟩]) ∧
    ¬ RepliesMatch 1234 [literal "list", literal "help"] := by
  have hrun : ∃ s, run (step ⟨ascii "srv", none⟩) [.serverRecv 4 true, .send, .clientRecv 15,
        .serverRecv 4 true, .send, .clientRecv 23]
        (start 1234 [literal "list", literal "help"] [] (fun _ => none) []) =
          some s ∧
      s.printed = [⟨0, List.replicate 15 (List.replicate 4 .preamble), ascii "Invalid command"⟩,
        ⟨1, List.replicate 23 (List.replicate 4 (.command 0)),
          ascii "Error reading directory"⟩] := ⟨_, rfl, by decide⟩
  refine ⟨hrun, fun h => ?_⟩
  obtain ⟨s, hs, hprinted⟩ := hrun
  have hmatch := h _ _ _ _ _ s hs ⟨0, List.replicate 15 (List.replicate 4 .preamble),
    ascii "Invalid command"⟩ (by simp [hprinted]) (List.replicate 4 .preamble) (by simp)
  exact absurd hmatch (by decide)

end CSE344.BiboReplies
