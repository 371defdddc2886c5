import SystemProgramming.BoxBodies
import SystemProgramming.FileCalls
import SystemProgramming.PathConfinement
import SystemProgramming.TransitionRun

/-!
# The BibakBOX server as a store of files

`callsOf` lists the file calls of one turn of `handleClient`. Here they act on
the places their paths denote, since two paths may denote one file, and a file
is there for `remove` exactly if its place holds one. Against this stands a
map from places to contents that an upload binds, a delete unbinds and an
update rebinds. The message of a request arrives as one block.
-/

set_option autoImplicit false

namespace CSE344.BoxStore
open CString BoxClient BoxServer BoxBodies FileCalls PathResolve PathConfinement TransitionRun

def logLine (o : Outcome) (message : Bytes) : Bytes :=
  ascii "[" ++ o.stamp ++ ascii "] " ++ message ++ ascii "\n"

def logged (o : Outcome) (message : Bytes) (s : Conn) : List (Call Bytes UInt8) :=
  if o.logOk then [.append (logPath s) (logLine o message)] else []

def opened (o : Outcome) (name : Option Bytes) : List (Call Bytes UInt8) :=
  match name with
  | none => []
  | some name => if o.fopenOk then [.create name] else []

/-- The path that `delete` and `update` build for `remove`. -/
def removedPath (s : Conn) (name : Option Bytes) : Bytes :=
  joinPath s.clientDir (BoxServer.printed name)

def performed (o : Outcome) (op name : Option Bytes) (s : Conn) : List (Call Bytes UInt8) :=
  match op with
  | none => []
  | some op =>
    if op = ascii "upload" then opened o name
    else if op = ascii "delete" then
      (if o.removeOk then
        .remove (removedPath s name) :: logged o (BoxServer.printed name) s
      else [])
    else if op = ascii "update" then
      (if o.removeOk then .remove (removedPath s name) :: opened o name else [])
    else []

/-- The file calls made after a return of `recv`. -/
def callsOf (r : Recv) (s : Conn) : List (Call Bytes UInt8) :=
  match s.mode with
  | .command =>
    if r.block = [] ∨ BoxServer.bufferSize ≤ r.block.length then []
    else performed r.outcome (tokens (cstr r.block)).1 (tokens (cstr r.block)).2 s
  | .transfer path filename =>
    if r.block = [] then logged r.outcome (cstrAt s.buffer filename) s
    else [.append path r.block]
  | _ => []

theorem writeLog_calls (o : Outcome) (message : Bytes) (s : Conn) :
    (writeLog o message s).files = performAll id (logged o message s) s.files := by
  simp only [writeLog, logged]
  split_ifs <;> rfl

theorem openTarget_calls (o : Outcome) (file : Option ℕ) (s : Conn) :
    (openTarget o file s).files =
      performAll id (opened o (file.map (cstrAt s.buffer))) s.files := by
  cases file with
  | none => rfl
  | some p =>
    simp only [openTarget, opened, Option.map_some]
    split_ifs <;> rfl

theorem perform_calls (o : Outcome) (op : Option Bytes) (file : Option ℕ) (s : Conn) :
    (BoxServer.perform o op file s).files =
      performAll id (performed o op (file.map (cstrAt s.buffer)) s) s.files := by
  cases op with
  | none => rfl
  | some op =>
    simp only [BoxServer.perform, performed]
    split_ifs with hupload hdelete hremove hupdate hremove
    · exact openTarget_calls o file s
    · rw [delete, if_pos hremove, writeLog_calls]
      rfl
    · rw [delete, if_neg hremove]
      rfl
    · rw [update, if_pos hremove, openTarget_calls]
      rfl
    · rw [update, if_neg hremove]
      rfl
    · rfl

theorem onRecv_calls (cfg : Config) (r : Recv) (s : Conn) :
    (onRecv cfg r s).files = performAll id (callsOf r s) s.files := by
  unfold onRecv callsOf
  cases s.mode with
  | hello =>
    simp only [receiveHello]
    split_ifs <;> rfl
  | command =>
    dsimp only
    by_cases hnil : r.block = []
    · rw [receiveCommand, if_pos hnil, if_pos (Or.inl hnil)]
      rfl
    by_cases hlong : BoxServer.bufferSize ≤ r.block.length
    · rw [receiveCommand, if_neg hnil, if_pos hlong, if_pos (Or.inr hlong)]
      rfl
    have hpair := strtok_pair (terminated r.block s.buffer)
    rw [cstrAt_terminated] at hpair
    rw [receiveCommand, if_neg hnil, if_neg hlong, if_neg (by simp [hnil, hlong]), ← hpair]
    exact perform_calls _ _ _ _
  | transfer path filename =>
    dsimp only
    rw [receiveBody]
    split_ifs
    · exact writeLog_calls _ _ _
    · rfl
  | listing rest => rfl
  | closed => rfl
  | undefined => rfl

/-- A server and one client's directory; `buffer` is what the array of a new
thread holds. -/
structure World where
  cfg : Config
  cwd : Loc
  dirName : CStr
  nonempty : dirName.bytes ≠ []
  fits : dirName.bytes.length < BoxServer.bufferSize
  buffer : Bytes

def World.clientDir (w : World) : Bytes :=
  snprintf 1028 (joinPath w.cfg.directory w.dirName.bytes)

def World.place (w : World) (path : Bytes) : Loc := resolve unix w.cwd path

def World.home (w : World) : Loc := anchor unix w.cwd w.clientDir

/-- The place of a file name of the client. -/
def World.named (w : World) (name : Bytes) : Loc := w.place (joinPath w.clientDir name)

/-- The files under the client's directory other than its log. -/
def World.Held (w : World) (l : Loc) : Prop :=
  w.home <+: l ∧ l ≠ w.place (joinPath w.clientDir (ascii "logfile.txt"))

instance (w : World) (l : Loc) : Decidable (w.Held l) := inferInstanceAs (Decidable (_ ∧ _))

/-- A request with the blocks in which its body arrives; `closes` says whether
a delete ends its connection, an upload and an update always do. -/
structure Request where
  command : Command
  blocks : List Bytes
  stamp : Bytes
  closes : Bool
  whole : blocks.flatten = command.body
  received : ∀ b ∈ blocks, b ≠ [] ∧ b.length ≤ BoxServer.bufferSize

def Request.sent (q : Request) : Sent where
  command := q.command
  joined := true
  outcome := ⟨true, true, true, q.stamp⟩
  bodyOutcome := fun _ => ⟨true, true, true, q.stamp⟩

def Request.name (q : Request) : Bytes := q.command.name.bytes

def Request.last (q : Request) : Bool :=
  match q.command with
  | .delete _ => q.closes
  | _ => true

structure State where
  conn : Conn
  files : Loc → Option Bytes

variable (w : World)

/-- What `recv` and the calls after it return: a file that exists can be
removed, and every file can be created. -/
def answer (stamp block : Bytes) (s : State) : Recv where
  block := block
  outcome :=
    { removeOk := (s.files (w.place (removedPath s.conn (tokens (cstr block)).2))).isSome
      fopenOk := true
      logOk := true
      stamp := stamp }

def receive (stamp : Bytes) (s : State) (block : Bytes) : State where
  conn := listed (onRecv w.cfg (answer w stamp block s) s.conn)
  files := performAll w.place (callsOf (answer w stamp block s) s.conn) s.files

def feed (stamp : Bytes) (blocks : List Bytes) (s : State) : State :=
  blocks.foldl (receive w stamp) s

/-- A new connection, if the last one was closed. -/
def connect (stamp : Bytes) (s : State) : State :=
  match s.conn.mode with
  | .closed => receive w stamp { s with conn := accepted w.buffer s.conn.files } w.dirName.bytes
  | _ => s

def serveRequest (q : Request) (s : State) : State :=
  let s := feed w q.stamp (q.sent.message :: q.blocks) (connect w q.stamp s)
  if q.last then feed w q.stamp [[], []] s else s

def step (q : Request) (s : State) : Option State := some (serveRequest w q s)

/-- The map from places to contents that the requests are to act on. -/
def act (store : Loc → Option Bytes) (q : Request) : Loc → Option Bytes :=
  match q.command with
  | .upload name _ => Function.update store (w.named name.bytes) (some q.command.body)
  | .delete name => Function.update store (w.named name.bytes) none
  | .update name _ =>
    if (store (w.named name.bytes)).isSome then
      Function.update store (w.named name.bytes) (some q.command.body)
    else store

/-- The message is taken whole and its name is one token. -/
def Request.Plain (q : Request) : Prop :=
  q.sent.message.length < BoxServer.bufferSize ∧ q.name ≠ [] ∧ ∀ b ∈ q.name, b ∉ colon

/-- Read as a command, the block does nothing. -/
def Inert (files : Loc → Option Bytes) (block : Bytes) : Prop :=
  block.length < BoxServer.bufferSize ∧
    match tokens (cstr block) with
    | (none, _) => False
    | (some op, name) => op ≠ ascii "upload" ∧ (op = ascii "delete" ∨ op = ascii "update" →
        files (w.place (joinPath w.clientDir (BoxServer.printed name))) = none)

/-- When a request does what it is to do. An upload and an update write to the
bare name, a place of its own unless the server runs in the client's
directory; the body of an update that finds no file is read as commands. -/
def Guard (q : Request) (s : State) : Prop :=
  q.Plain ∧
  match q.command with
  | .upload _ _ => w.place q.name = w.named q.name ∨
      ((w.Held (w.named q.name) → s.files (w.named q.name) = some q.command.body) ∧
        (w.Held (w.place q.name) → s.files (w.place q.name) = some q.command.body))
  | .delete _ => True
  | .update _ _ =>
    match s.files (w.named q.name) with
    | none => ∀ b ∈ q.blocks, Inert w s.files b
    | some _ => w.place q.name = w.named q.name ∨
        (¬ w.Held (w.named q.name) ∧
          (w.Held (w.place q.name) → s.files (w.place q.name) = some q.command.body))

def Waiting (s : State) : Prop := s.conn.mode = .command ∧ s.conn.clientDir = w.clientDir

def Ready (s : State) : Prop := s.conn.mode = .closed ∨ Waiting w s

def Storing (path : Bytes) (s : State) : Prop :=
  (∃ filename, s.conn.mode = .transfer path filename) ∧ s.conn.clientDir = w.clientDir

section Turns

variable {w : World} {s : State} (stamp : Bytes)

theorem connect_waiting (h : Ready w s) :
    Waiting w (connect w stamp s) ∧ (connect w stamp s).files = s.files := by
  rcases h with h | h
  · have hlen : ¬ BoxServer.bufferSize ≤ w.dirName.bytes.length := Nat.not_le.mpr w.fits
    have hname : cstr w.dirName.bytes = w.dirName.bytes := cstr_of_noNul w.dirName.noNul
    simp only [connect, h, receive]
    refine ⟨⟨?_, ?_⟩, rfl⟩ <;>
      simp [onRecv, accepted, answer, receiveHello, w.nonempty, hlen, listed, cstrAt_terminated,
        hname, World.clientDir]
  · rw [connect, h.1]
    exact ⟨h, rfl⟩

theorem callsOf_message {r : Recv} {c : Conn} {op name : Option Bytes} (hmode : c.mode = .command)
    (hne : r.block ≠ []) (hlen : r.block.length < BoxServer.bufferSize)
    (htokens : tokens (cstr r.block) = (op, name)) :
    callsOf r c = performed r.outcome op name c := by
  have hkeep : ¬ (r.block = [] ∨ BoxServer.bufferSize ≤ r.block.length) := by
    rw [not_or]
    exact ⟨hne, Nat.not_le.mpr hlen⟩
  simp only [callsOf, hmode]
  rw [if_neg hkeep, htokens]

theorem callsOf_body {r : Recv} {c : Conn} {path : Bytes} {p : ℕ}
    (hmode : c.mode = .transfer path p) (hne : r.block ≠ []) :
    callsOf r c = [.append path r.block] := by
  simp only [callsOf, hmode, if_neg hne]

@[simp] theorem answer_block (block : Bytes) : (answer w stamp block s).block = block := rfl

theorem receive_message (h : Waiting w s) {block : Bytes} {op name : Option Bytes}
    (hne : block ≠ []) (hlen : block.length < BoxServer.bufferSize)
    (htokens : tokens (cstr block) = (op, name)) :
    ∃ file mem, file.map (cstrAt mem) = name ∧
      (receive w stamp s block).conn = listed (BoxServer.perform (answer w stamp block s).outcome
        op file { s.conn with
          buffer := mem
          requests := s.conn.requests ++ [⟨block, op, name⟩] }) ∧
      (receive w stamp s block).files =
        performAll w.place (performed (answer w stamp block s).outcome op name s.conn) s.files := by
  obtain ⟨file, mem, hfile, hrecv⟩ := receiveCommand_parsed block s.conn.buffer hne hlen htokens
  refine ⟨file, mem, hfile, ?_, ?_⟩
  · have hconn : onRecv w.cfg (answer w stamp block s) s.conn =
        receiveCommand (answer w stamp block s) s.conn := by rw [onRecv, h.1]
    exact congrArg listed (hconn.trans (hrecv _ s.conn rfl))
  · exact congrArg (performAll w.place · s.files)
      (callsOf_message (r := answer w stamp block s) h.1 hne hlen htokens)

theorem answer_removeOk (h : Waiting w s) {block : Bytes} {op name : Option Bytes}
    (htokens : tokens (cstr block) = (op, name)) : (answer w stamp block s).outcome.removeOk =
      (s.files (w.named (BoxServer.printed name))).isSome := by
  simp only [answer, htokens, removedPath, h.2, World.named]

theorem receive_inert (h : Waiting w s) {block : Bytes} (hne : block ≠ [])
    (hb : Inert w s.files block) :
    Waiting w (receive w stamp s block) ∧ (receive w stamp s block).files = s.files := by
  obtain ⟨hlen, hb⟩ := hb
  rcases htokens : tokens (cstr block) with ⟨op, name⟩
  rw [htokens] at hb
  cases op with
  | none => exact hb.elim
  | some op =>
    obtain ⟨hupload, hmissing⟩ := hb
    obtain ⟨file, mem, -, hconn, hfiles⟩ := receive_message stamp h hne hlen htokens
    have hremove (hop : op = ascii "delete" ∨ op = ascii "update") :
        (answer w stamp block s).outcome.removeOk = false := by
      rw [answer_removeOk stamp h htokens]
      exact Option.isSome_eq_false_iff.mpr (Option.isNone_iff_eq_none.mpr (hmissing hop))
    have hquiet (c : Conn) :
        BoxServer.perform (answer w stamp block s).outcome (some op) file c = c := by
      simp only [BoxServer.perform, if_neg hupload, delete, update]
      split_ifs <;> simp_all
    have hcalls : performed (answer w stamp block s).outcome (some op) name s.conn = [] := by
      simp only [performed, if_neg hupload]
      split_ifs <;> simp_all
    rw [hquiet] at hconn
    rw [hcalls] at hfiles
    refine ⟨?_, hfiles⟩
    rw [Waiting, hconn]
    simp only [listed, h.1, h.2, and_self]

theorem feed_inert (h : Waiting w s) {blocks : List Bytes} (hne : ∀ b ∈ blocks, b ≠ [])
    (hb : ∀ b ∈ blocks, Inert w s.files b) :
    Waiting w (feed w stamp blocks s) ∧ (feed w stamp blocks s).files = s.files := by
  induction blocks generalizing s with
  | nil => exact ⟨h, rfl⟩
  | cons b blocks ih =>
    obtain ⟨hwait, hfiles⟩ := receive_inert stamp h (hne b List.mem_cons_self)
      (hb b List.mem_cons_self)
    rw [← hfiles] at hb ⊢
    exact ih hwait (fun c hc => hne c (List.mem_cons_of_mem b hc))
      (fun c hc => hb c (List.mem_cons_of_mem b hc))

theorem feed_body {path : Bytes} (h : Storing w path s) {blocks : List Bytes}
    (hne : ∀ b ∈ blocks, b ≠ []) :
    Storing w path (feed w stamp blocks s) ∧ (feed w stamp blocks s).files =
      performAll w.place (blocks.map (Call.append path)) s.files := by
  induction blocks generalizing s with
  | nil => exact ⟨h, rfl⟩
  | cons b blocks ih =>
    obtain ⟨⟨filename, hmode⟩, hdir⟩ := h
    have hb := hne b List.mem_cons_self
    have hstore : Storing w path (receive w stamp s b) := by
      rw [Storing, receive, BoxTransfer.listed_body w.cfg hmode hb]
      exact ⟨⟨filename, hmode⟩, hdir⟩
    have hfiles :
        (receive w stamp s b).files = FileCalls.perform w.place s.files (.append path b) := by
      rw [receive, callsOf_body hmode hb]
      rfl
    obtain ⟨hfinal, hall⟩ := ih hstore (fun c hc => hne c (List.mem_cons_of_mem b hc))
    refine ⟨hfinal, hall.trans ?_⟩
    rw [hfiles]
    rfl

theorem receive_end {path : Bytes} (h : Storing w path s) :
    Waiting w (receive w stamp s []) ∧ ∃ line, (receive w stamp s []).files =
      FileCalls.perform w.place s.files
        (.append (joinPath w.clientDir (ascii "logfile.txt")) line) := by
  obtain ⟨⟨filename, hmode⟩, hdir⟩ := h
  constructor
  · simp [Waiting, receive, onRecv, hmode, answer, receiveBody, listed, hdir]
  · refine ⟨logLine (answer w stamp [] s).outcome (cstrAt s.conn.buffer filename), ?_⟩
    simp [receive, callsOf, hmode, logged, logPath, hdir, performAll, answer]

theorem receive_close (h : Waiting w s) :
    (receive w stamp s []).conn.mode = .closed ∧ (receive w stamp s []).files = s.files := by
  simp [receive, onRecv, h.1, receiveCommand, listed, callsOf, performAll]

theorem receive_closed (h : s.conn.mode = .closed) :
    (receive w stamp s []).conn.mode = .closed ∧ (receive w stamp s []).files = s.files := by
  simp [receive, onRecv, h, listed, callsOf, performAll]

theorem feed_end {path : Bytes} (h : Storing w path s) :
    (feed w stamp [[], []] s).conn.mode = .closed ∧ ∃ line,
      (feed w stamp [[], []] s).files = FileCalls.perform w.place s.files
        (.append (joinPath w.clientDir (ascii "logfile.txt")) line) := by
  obtain ⟨hwait, line, hline⟩ := receive_end stamp h
  obtain ⟨hmode, hfiles⟩ := receive_close stamp hwait
  exact ⟨hmode, line, hfiles.trans hline⟩

theorem feed_close (h : Waiting w s) :
    (feed w stamp [[], []] s).conn.mode = .closed ∧ (feed w stamp [[], []] s).files = s.files := by
  obtain ⟨hmode, hfiles⟩ := receive_close stamp h
  obtain ⟨hmode', hfiles'⟩ := receive_closed stamp hmode
  exact ⟨hmode', hfiles'.trans hfiles⟩

end Turns

section Requests

variable {w : World} {s : State} {q : Request}

theorem request_tokens (hq : q.Plain) :
    tokens (cstr q.sent.message) = (some q.sent.operation, some q.name) :=
  tokens_message q.sent hq.2.1 hq.2.2

theorem message_stores (hs : Waiting w s) (hq : q.Plain)
    (hop : q.sent.operation = ascii "upload" ∨
      (q.sent.operation = ascii "update" ∧ (s.files (w.named q.name)).isSome = true)) :
    Storing w q.name (receive w q.stamp s q.sent.message) ∧
      (receive w q.stamp s q.sent.message).files =
        FileCalls.perform w.place (if q.sent.operation = ascii "upload" then s.files
          else Function.update s.files (w.named q.name) none) (.create q.name) := by
  obtain ⟨file, mem, hfile, hconn, hfiles⟩ :=
    receive_message q.stamp hs (message_ne_nil q.sent) hq.1 (request_tokens hq)
  obtain ⟨p, rfl, hname⟩ := Option.map_eq_some_iff.mp hfile
  have hopen : (answer w q.stamp q.sent.message s).outcome.fopenOk = true := rfl
  rcases hop with hop | ⟨hop, hthere⟩
  · rw [hop] at hconn hfiles ⊢
    rw [if_pos rfl]
    refine ⟨?_, hfiles⟩
    simp [Storing, hconn, BoxServer.perform, upload, openTarget, hopen, listed, hname, hs.2]
  · have hremove : (answer w q.stamp q.sent.message s).outcome.removeOk = true := by
      rw [answer_removeOk q.stamp hs (request_tokens hq)]
      exact hthere
    have hne : ascii "update" ≠ ascii "upload" ∧ ascii "update" ≠ ascii "delete" := by decide
    rw [hop] at hconn hfiles ⊢
    rw [if_neg hne.1]
    constructor
    · simp [Storing, hconn, BoxServer.perform, hne, update, hremove, removeFile, openTarget, hopen,
        listed, hname, hs.2]
    · rw [hfiles]
      simp [performed, hne, hremove, opened, hopen, performAll, FileCalls.perform,
        removedPath, hs.2, World.named, BoxServer.printed]

theorem stored_request {m : State} {pre : Loc → Option Bytes} (hm : Storing w q.name m)
    (hfiles : m.files = FileCalls.perform w.place pre (.create q.name)) :
    (feed w q.stamp [[], []] (feed w q.stamp q.blocks m)).conn.mode = .closed ∧
      ∀ l, w.Held l → (feed w q.stamp [[], []] (feed w q.stamp q.blocks m)).files l =
        Function.update pre (w.place q.name) (some q.command.body) l := by
  obtain ⟨hbody, hcontent⟩ := feed_body q.stamp hm (fun b hb => (q.received b hb).1)
  obtain ⟨hmode, line, hlog⟩ := feed_end q.stamp hbody
  refine ⟨hmode, fun l hl => ?_⟩
  have hempty : m.files (w.place q.name) = some [] := by
    rw [hfiles]
    exact Function.update_self _ _ _
  calc (feed w q.stamp [[], []] (feed w q.stamp q.blocks m)).files l
      = (feed w q.stamp q.blocks m).files l := by
        rw [hlog]
        exact perform_frame w.place _ _ hl.2
    _ = Function.update m.files (w.place q.name) (some ([] ++ q.blocks.flatten)) l := by
        rw [hcontent, performAll_pieces w.place _ _ _ hempty]
    _ = Function.update pre (w.place q.name) (some q.command.body) l := by
        rw [hfiles, q.whole, List.nil_append]
        simp only [FileCalls.perform, Function.update_idem]

theorem message_absent (hs : Waiting w s) (hq : q.Plain)
    (hop : q.sent.operation ≠ ascii "upload") (hmissing : s.files (w.named q.name) = none) :
    Waiting w (receive w q.stamp s q.sent.message) ∧
      (receive w q.stamp s q.sent.message).files = s.files := by
  apply receive_inert q.stamp hs (message_ne_nil q.sent)
  refine ⟨hq.1, ?_⟩
  rw [request_tokens hq]
  exact ⟨hop, fun _ => hmissing⟩

theorem message_deletes (hs : Waiting w s) (hq : q.Plain)
    (hop : q.sent.operation = ascii "delete") :
    Waiting w (receive w q.stamp s q.sent.message) ∧
      ∀ l, w.Held l → (receive w q.stamp s q.sent.message).files l =
        Function.update s.files (w.named q.name) none l := by
  cases hthere : s.files (w.named q.name) with
  | none =>
    obtain ⟨hwait, hfiles⟩ := message_absent hs hq (by rw [hop]; decide) hthere
    refine ⟨hwait, fun l _ => ?_⟩
    rw [hfiles, ← hthere, Function.update_eq_self]
  | some content =>
    obtain ⟨file, mem, hfile, hconn, hfiles⟩ :=
      receive_message q.stamp hs (message_ne_nil q.sent) hq.1 (request_tokens hq)
    have hremove : (answer w q.stamp q.sent.message s).outcome.removeOk = true := by
      rw [answer_removeOk q.stamp hs (request_tokens hq)]
      exact Option.isSome_iff_exists.mpr ⟨content, hthere⟩
    have hlogOk : (answer w q.stamp q.sent.message s).outcome.logOk = true := rfl
    have hne : ascii "delete" ≠ ascii "upload" := by decide
    rw [hop] at hconn hfiles
    refine ⟨?_, fun l hl => ?_⟩
    · simp [Waiting, hconn, BoxServer.perform, hne, delete, hremove, listed, removeFile, hs.1, hs.2]
    · rw [hfiles]
      simp only [performed, if_neg hne, if_true, hremove, logged, hlogOk, logPath, removedPath,
        hs.2]
      exact perform_frame w.place (FileCalls.perform w.place s.files (.remove _)) (.append _ _) hl.2

theorem update_agrees {K V : Type*} [DecidableEq K] {f : K → Option V} {P : K → Prop} {j k : K}
    {v : V} (h : j = k ∨ ((P k → f k = some v) ∧ (P j → f j = some v))) (l : K) (hl : P l) :
    Function.update f j (some v) l = Function.update f k (some v) l := by
  rcases h with rfl | ⟨hk, hj⟩
  · rfl
  · simp only [Function.update_apply]
    split_ifs with hlj hlk hlk
    · rfl
    · rw [hlj] at hl
      rw [hlj, hj hl]
    · rw [hlk] at hl
      rw [hlk, hk hl]
    · rfl

theorem upload_acts (hs : Waiting w s) (hg : Guard w q s) {name : CStr} {file : Option Bytes}
    (hcmd : q.command = .upload name file) :
    (feed w q.stamp [[], []] (feed w q.stamp (q.sent.message :: q.blocks) s)).conn.mode = .closed ∧
      ∀ l, w.Held l →
        (feed w q.stamp [[], []] (feed w q.stamp (q.sent.message :: q.blocks) s)).files l =
          act w s.files q l := by
  obtain ⟨hq, hg⟩ := hg
  have hop : q.sent.operation = ascii "upload" := by simp [Request.sent, Sent.operation, hcmd]
  have hact : act w s.files q = Function.update s.files (w.named q.name) (some q.command.body) := by
    simp only [act, hcmd, Request.name, Command.name]
  obtain ⟨hm, hfiles⟩ := message_stores hs hq (Or.inl hop)
  obtain ⟨hmode, hstored⟩ := stored_request hm hfiles
  refine ⟨hmode, fun l hl => (hstored l hl).trans ?_⟩
  rw [if_pos hop, hact]
  exact update_agrees (by simpa only [hcmd] using hg) l hl

theorem delete_acts (hs : Waiting w s) (hg : Guard w q s) {name : CStr}
    (hcmd : q.command = .delete name) :
    Waiting w (feed w q.stamp (q.sent.message :: q.blocks) s) ∧ ∀ l, w.Held l →
      (feed w q.stamp (q.sent.message :: q.blocks) s).files l = act w s.files q l := by
  have hop : q.sent.operation = ascii "delete" := by simp [Request.sent, Sent.operation, hcmd]
  have hact : act w s.files q = Function.update s.files (w.named q.name) none := by
    simp only [act, hcmd, Request.name, Command.name]
  have hblocks : q.blocks = [] := by
    apply List.eq_nil_iff_forall_not_mem.mpr
    intro b hb
    have hwhole := q.whole
    rw [hcmd] at hwhole
    exact (q.received b hb).1 (List.flatten_eq_nil_iff.mp hwhole b hb)
  rw [hact, hblocks]
  exact message_deletes hs hg.1 hop

/-- An update of a file that is not there: the body is read as commands. -/
theorem update_absent (hs : Waiting w s) (hg : Guard w q s) {name : CStr} {file : Option Bytes}
    (hcmd : q.command = .update name file) (hmissing : s.files (w.named q.name) = none) :
    (feed w q.stamp [[], []] (feed w q.stamp (q.sent.message :: q.blocks) s)).conn.mode = .closed ∧
      (feed w q.stamp [[], []] (feed w q.stamp (q.sent.message :: q.blocks) s)).files =
        act w s.files q := by
  obtain ⟨hq, hg⟩ := hg
  have hop : q.sent.operation ≠ ascii "upload" := by
    simp only [Request.sent, Sent.operation, hcmd]
    decide
  have hact : act w s.files q = s.files := by
    simp only [Request.name, hcmd, Command.name] at hmissing
    simp [act, hcmd, hmissing]
  simp only [hcmd, hmissing] at hg
  obtain ⟨hm, hfiles⟩ := message_absent hs hq hop hmissing
  rw [← hfiles] at hg
  obtain ⟨hm, hkept⟩ := feed_inert q.stamp hm (fun b hb => (q.received b hb).1) hg
  obtain ⟨hmode, hclosed⟩ := feed_close q.stamp hm
  refine ⟨hmode, hclosed.trans ?_⟩
  rw [hact, ← hfiles]
  exact hkept

/-- An update of a file that is there: it goes, and the bare name is written. -/
theorem update_present (hs : Waiting w s) (hg : Guard w q s) {name : CStr} {file : Option Bytes}
    {content : Bytes} (hcmd : q.command = .update name file)
    (hthere : s.files (w.named q.name) = some content) :
    (feed w q.stamp [[], []] (feed w q.stamp (q.sent.message :: q.blocks) s)).conn.mode = .closed ∧
      ∀ l, w.Held l →
        (feed w q.stamp [[], []] (feed w q.stamp (q.sent.message :: q.blocks) s)).files l =
          act w s.files q l := by
  obtain ⟨hq, hg⟩ := hg
  have hop : q.sent.operation = ascii "update" := by simp [Request.sent, Sent.operation, hcmd]
  have hupload : q.sent.operation ≠ ascii "upload" := by
    rw [hop]
    decide
  have hact : act w s.files q = Function.update s.files (w.named q.name) (some q.command.body) := by
    simp only [Request.name, hcmd, Command.name] at hthere ⊢
    simp [act, hcmd, hthere]
  simp only [hcmd, hthere] at hg
  obtain ⟨hm, hfiles⟩ := message_stores hs hq (Or.inr ⟨hop, by rw [hthere]; rfl⟩)
  obtain ⟨hmode, hstored⟩ := stored_request hm hfiles
  refine ⟨hmode, fun l hl => (hstored l hl).trans ?_⟩
  rw [if_neg hupload, hact]
  rcases hg with hsame | ⟨hout, hbare⟩
  · rw [hsame, Function.update_idem]
  · have hne : l ≠ w.named q.name := fun h => hout (h ▸ hl)
    simp only [Function.update_of_ne hne, Function.update_apply]
    split_ifs with h
    · rw [h] at hl ⊢
      rw [hbare hl, hcmd]
    · rfl

theorem request_acts (hs : Ready w s) (hg : Guard w q s) :
    Ready w (serveRequest w q s) ∧
      ∀ l, w.Held l → (serveRequest w q s).files l = act w s.files q l := by
  obtain ⟨hwait, hsame⟩ := connect_waiting q.stamp hs
  have hguard : Guard w q (connect w q.stamp s) := by
    rw [Guard, hsame]
    exact hg
  rw [← hsame]
  unfold serveRequest
  generalize connect w q.stamp s = u at *
  cases hcmd : q.command with
  | upload name file =>
    rw [show q.last = true by simp [Request.last, hcmd]]
    obtain ⟨hmode, hfiles⟩ := upload_acts hwait hguard hcmd
    exact ⟨Or.inl hmode, hfiles⟩
  | delete name =>
    obtain ⟨hm, hfiles⟩ := delete_acts hwait hguard hcmd
    dsimp only
    split_ifs
    · obtain ⟨hmode, hclosed⟩ := feed_close q.stamp hm
      rw [hclosed]
      exact ⟨Or.inl hmode, hfiles⟩
    · exact ⟨Or.inr hm, hfiles⟩
  | update name file =>
    rw [show q.last = true by simp [Request.last, hcmd]]
    cases hthere : u.files (w.named q.name) with
    | none =>
      obtain ⟨hmode, hfiles⟩ := update_absent hwait hguard hcmd hthere
      exact ⟨Or.inl hmode, fun l _ => congrFun hfiles l⟩
    | some content =>
      obtain ⟨hmode, hfiles⟩ := update_present hwait hguard hcmd hthere
      exact ⟨Or.inl hmode, hfiles⟩

end Requests

variable {w}

theorem act_congr {f g : Loc → Option Bytes} (h : ∀ l, w.Held l → f l = g l) (q : Request) (l : Loc)
    (hl : w.Held l) : act w f q l = act w g q l := by
  have hupdate (k : Loc) (v : Option Bytes) :
      Function.update f k v l = Function.update g k v l := by
    simp only [Function.update_apply, h l hl]
  unfold act
  cases q.command with
  | upload name file => exact hupdate _ _
  | delete name => exact hupdate _ _
  | update name file =>
    dsimp only
    by_cases hheld : w.Held (w.named name.bytes)
    · rw [h _ hheld]
      split_ifs
      · exact hupdate _ _
      · exact h l hl
    · -- the place is out of sight, bound or not
      have hne : l ≠ w.named name.bytes := fun heq => hheld (heq ▸ hl)
      split_ifs <;> simp only [Function.update_of_ne hne, h l hl]

/-- In a run whose requests all meet the condition, the files under the
client's directory are those of the map. -/
theorem store_refined (w : World) (qs : List Request) (s t : State) (hs : Ready w s)
    (hg : Meets (step w) (Guard w) qs s) (h : run (step w) qs s = some t) :
    ∀ l, w.Held l → t.files l = qs.foldl (act w) s.files l := by
  have htrack (store : Loc → Option Bytes) (heq : ∀ l, w.Held l → s.files l = store l) :
      ∀ l, w.Held l → t.files l = qs.foldl (act w) store l := by
    induction qs generalizing s store with
    | nil =>
      obtain rfl : s = t := by simpa using h
      exact heq
    | cons q qs ih =>
      obtain ⟨u, hu, ht⟩ := (run_cons_iff _ q qs s t).mp h
      obtain rfl : serveRequest w q s = u := Option.some.inj hu
      obtain ⟨hready, hact⟩ := request_acts hs hg.1
      apply ih (serveRequest w q s) hready (hg.tail hu) ht
      intro l hl
      exact (hact l hl).trans (act_congr heq q l hl)
  exact htrack s.files (fun _ _ => rfl)

theorem place_eq_named (w : World) (hhome : w.home = w.cwd) {name : Bytes}
    (hrel : name.head? ≠ some unix.sep) : w.place name = w.named name := by
  have hjoin : joinPath w.clientDir name = w.clientDir ++ unix.sep::name := by
    simp [joinPath, unix, ascii]
  calc w.place name = walk unix.up w.cwd (components unix name) := by
        rw [World.place, resolve, if_neg hrel]
    _ = w.named name := by
        rw [← hhome, World.named, World.place, hjoin, resolve_join, World.home]

/-- There every request but an update of a missing file is served as it should be. -/
theorem guard_home {w : World} (hhome : w.home = w.cwd) {q : Request} {s : State} (hq : q.Plain)
    (hrel : q.name.head? ≠ some unix.sep)
    (hthere : q.sent.operation = ascii "update" → s.files (w.named q.name) ≠ none) :
    Guard w q s := by
  have hsame := place_eq_named w hhome hrel
  refine ⟨hq, ?_⟩
  cases hcmd : q.command with
  | upload name file => exact Or.inl hsame
  | delete name => trivial
  | update name file =>
    have hop : q.sent.operation = ascii "update" := by simp [Request.sent, Sent.operation, hcmd]
    obtain ⟨content, hcontent⟩ := Option.ne_none_iff_exists'.mp (hthere hop)
    simp only [hcontent]
    exact Or.inl hsame

def uploadA : Request :=
  ⟨.upload (literal "a") (some (ascii "one")), [ascii "one"], [], true, by decide, by decide⟩

def updateA : Request :=
  ⟨.update (literal "a") (some (ascii "two")), [ascii "t", ascii "wo"], [], true, by decide,
    by decide⟩

def server (directory : String) (client : CStr) (hne : client.bytes ≠ [])
    (hlen : client.bytes.length < BoxServer.bufferSize) : World :=
  ⟨⟨ascii directory, fun _ => some []⟩, [ascii "home"], client, hne, hlen, []⟩

def inPlace : World := server "." (literal ".") (by decide) (by decide)

def apart : World := server "srv" (literal "c") (by decide) (by decide)

def noClient : State := ⟨{ accepted [] (fun _ => none) with mode := .closed }, fun _ => none⟩

theorem store_refined_inPlace : ∃ t, run (step inPlace) [uploadA, updateA] noClient = some t ∧
    t.files [ascii "home", ascii "a"] = some (ascii "two") := by
  have hhome : inPlace.home = inPlace.cwd := by decide
  have hupload : Guard inPlace uploadA noClient :=
    guard_home hhome ⟨by decide +kernel, by decide +kernel, by decide +kernel⟩ (by decide +kernel)
      (fun h => absurd h (by decide))
  have hupdate : Guard inPlace updateA (serveRequest inPlace uploadA noClient) :=
    guard_home hhome ⟨by decide +kernel, by decide +kernel, by decide +kernel⟩ (by decide +kernel)
      (fun _ => by decide)
  have hheld : inPlace.Held [ascii "home", ascii "a"] := by decide
  refine ⟨_, rfl, (store_refined inPlace [uploadA, updateA] noClient _ (Or.inl rfl)
    ⟨hupload, hupdate, trivial⟩ rfl _ hheld).trans ?_⟩
  decide

/-- An upload to `srv/c` leaves no file there. -/
theorem upload_elsewhere : apart.Held (apart.named (ascii "a")) ∧
    (serveRequest apart uploadA noClient).files (apart.named (ascii "a")) = none ∧
    act apart noClient.files uploadA (apart.named (ascii "a")) = some (ascii "one") := by
  decide

end CSE344.BoxStore
