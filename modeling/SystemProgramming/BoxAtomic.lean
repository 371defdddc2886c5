import SystemProgramming.BoxLogs
import SystemProgramming.BoxStore

/-!
# Replacing one file

An update removes the old file under the client's directory before it opens a
new one under the bare name, and before any byte of it has arrived. Each of
the calls may fail, and the connection may end anywhere in the body.
-/

set_option autoImplicit false

namespace CSE344.BoxAtomic
open CString BoxServer BoxStore BoxLogs FileCalls PathResolve PathConfinement

variable (w : World)

/-- One return of `recv` and what is done before the next. -/
def turn (s : State) (r : Recv) : State where
  conn := listed (onRecv w.cfg r s.conn)
  files := performAll w.place (callsOf r s.conn) s.files

/-- A message, the pieces of the body and the return that ends it. They go to
the inner receive loop if the message has opened a target, and are the next
commands if not. -/
def request (m : Recv) (body : List Recv) (last : Recv) (s : State) : State :=
  turn w (body.foldl (turn w) (turn w s m)) last

def logPlace : Loc := w.place (joinPath w.clientDir (ascii "logfile.txt"))

def receivedBody (body : List Recv) : Bytes := (body.map Recv.block).flatten

/-- The line for the log, with what is at the pointer by then. -/
def lastLine (m : Recv) (body : List Recv) (last : Recv) (s : State) : Bytes :=
  logLine last.outcome (cstrAt
    (overlaid (body.map Recv.block) (parsed m.block s.conn.buffer).mem) (nameStart (cstr m.block)))

/-- The client's connection at the head of the command loop, with `mem` in the
array. -/
def idle (mem : Bytes) : Conn :=
  { accepted mem (fun _ => none) with mode := .command, clientDir := w.clientDir }

/-- The file calls that a series of returns asks for. -/
def callsFor : List Recv → Conn → List (Call Bytes UInt8)
  | [], _ => []
  | r :: rs, c => callsOf r c ++ callsFor rs (listed (onRecv w.cfg r c))

/-- What the commands in a body leave at the place of `name`, given what was
there before them. -/
def spoken (body : List Recv) (last : Recv) (name mem : Bytes) (x : Option Bytes) : Option Bytes :=
  (callsFor w (body ++ [last]) (idle w mem)).foldl (leftAt w.place (w.named name)) x

/-- What an update needs to be all or nothing. If a target is opened, it has to
be at the place of the old file and has to arrive whole; the client's log also
gets a line. If none is, the body is read as commands, and these have to leave
the old file, which is gone if `remove` succeeded. -/
def Spared (m : Recv) (body : List Recv) (last : Recv) (name content : Bytes) (s : State) : Prop :=
  let before := s.files (w.named name)
  let good (x : Option Bytes) : Prop := x = some content ∨ x = before
  if m.outcome.removeOk = true ∧ m.outcome.fopenOk = true then
    if w.place name = w.named name then
      good (some (receivedBody body ++ if last.outcome.logOk = true ∧ w.named name = logPlace w
        then lastLine m body last s else []))
    else if last.outcome.logOk = true ∧ w.named name = logPlace w then
      good (some (lastLine m body last s))
    else before = none
  else
    good (spoken w body last name (parsed m.block s.conn.buffer).mem
      (if m.outcome.removeOk = true then none else before))

section Alike

/-- What the loop goes by: the mode, the array and the directory. -/
def Alike (c d : Conn) : Prop :=
  c.mode = d.mode ∧ c.buffer = d.buffer ∧ c.clientDir = d.clientDir

variable {cfg : Config} {c d : Conn}

theorem Alike.openTarget (h : Alike c d) (o : Outcome) (p : Option ℕ) :
    Alike (BoxServer.openTarget o p c) (BoxServer.openTarget o p d) := by
  cases p with
  | none => exact h
  | some p =>
    simp only [BoxServer.openTarget, h.2.1]
    split_ifs
    · exact ⟨rfl, rfl, h.2.2⟩
    · exact h

theorem Alike.writeLog (h : Alike c d) (o : Outcome) (x y : Bytes) :
    Alike (BoxServer.writeLog o x c) (BoxServer.writeLog o y d) := by
  simp only [BoxServer.writeLog]
  split_ifs <;> exact h

theorem Alike.perform (h : Alike c d) (o : Outcome) (op : Option Bytes) (p : Option ℕ) :
    Alike (BoxServer.perform o op p c) (BoxServer.perform o op p d) := by
  have hremoved : Alike (BoxServer.removeFile p c) (BoxServer.removeFile p d) := h
  cases op with
  | none => exact ⟨rfl, h.2⟩
  | some op =>
    simp only [BoxServer.perform, BoxServer.upload, BoxServer.delete, BoxServer.update]
    split_ifs
    · exact h.openTarget o p
    · exact hremoved.writeLog o _ _
    · exact h
    · exact hremoved.openTarget o p
    · exact h
    · exact h

theorem Alike.listed (h : Alike c d) : Alike (BoxServer.listed c) (BoxServer.listed d) := by
  simp only [BoxServer.listed, h.1]
  split
  · exact ⟨rfl, h.2⟩
  · exact h

theorem Alike.hello (h : Alike c d) (r : Recv) :
    Alike (receiveHello cfg r c) (receiveHello cfg r d) := by
  simp only [receiveHello, h.2.1]
  split_ifs
  · exact ⟨rfl, rfl, h.2.2⟩
  · exact ⟨rfl, rfl, h.2.2⟩
  · exact ⟨rfl, rfl, rfl⟩

theorem Alike.command (h : Alike c d) (r : Recv) :
    Alike (receiveCommand r c) (receiveCommand r d) := by
  simp only [receiveCommand, h.2.1]
  split_ifs
  · exact ⟨rfl, rfl, h.2.2⟩
  · exact ⟨rfl, rfl, h.2.2⟩
  · apply Alike.perform
    exact ⟨h.1, rfl, h.2.2⟩

theorem Alike.body (h : Alike c d) (path : Bytes) (p : ℕ) (r : Recv) :
    Alike (receiveBody path p r c) (receiveBody path p r d) := by
  simp only [receiveBody, h.2.1]
  split_ifs
  · apply Alike.writeLog
    exact ⟨rfl, rfl, h.2.2⟩
  · exact ⟨h.1, rfl, h.2.2⟩

theorem Alike.onRecv (h : Alike c d) (r : Recv) :
    Alike (BoxServer.onRecv cfg r c) (BoxServer.onRecv cfg r d) := by
  unfold BoxServer.onRecv
  rw [← h.1]
  split
  · exact h.hello r
  · exact h.command r
  · exact h.body _ _ r
  · exact h

theorem Alike.callsOf (h : Alike c d) (r : Recv) : BoxStore.callsOf r c = BoxStore.callsOf r d := by
  obtain ⟨hmode, hbuffer, hdir⟩ := h
  simp only [BoxStore.callsOf, performed, removedPath, logged, logPath, hmode, hbuffer, hdir]

theorem Alike.callsFor (h : Alike c d) (rs : List Recv) :
    BoxAtomic.callsFor w rs c = BoxAtomic.callsFor w rs d := by
  induction rs generalizing c d with
  | nil => rfl
  | cons r rs ih =>
    show BoxStore.callsOf r c ++ _ = BoxStore.callsOf r d ++ _
    rw [h.callsOf r, ih (h.onRecv r).listed]

end Alike

section Update

variable {w} {s : State} {m last : Recv} {body : List Recv} {name : Bytes}

theorem stored_at (files : Loc → Option Bytes) (name received : Bytes) :
    Function.update (Function.update files (w.named name) none) (w.place name) (some received)
      (w.named name) = if w.place name = w.named name then some received else none := by
  by_cases hsame : w.place name = w.named name
  · rw [if_pos hsame, hsame, Function.update_self]
  · rw [if_neg hsame, Function.update_of_ne (Ne.symm hsame), Function.update_self]

section Message

variable (hmode : s.conn.mode = .command) (hne : m.block ≠ [])
  (hlen : m.block.length < BoxServer.bufferSize)
  (htokens : tokens (cstr m.block) = (some (ascii "update"), some name))

include hmode hne hlen htokens

/-- The files after the message: the old one is gone if `remove` says so, and
the bare name is there if `fopen` does. -/
theorem message_files (hdir : s.conn.clientDir = w.clientDir) : (turn w s m).files =
    if m.outcome.removeOk = true then
      let removed := Function.update s.files (w.named name) none
      if m.outcome.fopenOk = true then Function.update removed (w.place name) (some [])
      else removed
    else s.files := by
  have hupload : ascii "update" ≠ ascii "upload" := by decide
  have hdelete : ascii "update" ≠ ascii "delete" := by decide
  have hpath : w.place (removedPath s.conn (some name)) = w.named name := by
    rw [removedPath, hdir]
    rfl
  rw [turn, callsOf_message hmode hne hlen htokens]
  simp only [performed, if_neg hupload, if_neg hdelete, if_true, opened]
  split_ifs <;> simp only [performAll, List.foldl_cons, List.foldl_nil, FileCalls.perform, hpath]

end Message

end Update

/-- A client that waits, with one file in its directory. -/
def holding (w : World) (name content : Bytes) : State where
  conn := { BoxParser.waiting with clientDir := w.clientDir }
  files := Function.update (fun _ => none) (w.named name) (some content)

end CSE344.BoxAtomic
