import SystemProgramming.BoxClient
import SystemProgramming.BoxTransfer

/-!
# File bodies and commands on one BibakBOX connection

A body has neither a length nor an end mark: once a target is open, the inner
loop stores every block until the connection ends, and when no target is open
the blocks of the body go to the command loop. The commands of a connection
are kept apart from the bodies exactly when neither of the two can show.
-/

set_option autoImplicit false

namespace CSE344.BoxBodies
open CString BoxClient BoxServer BoxTransfer

/-- A command of the client with what the server's calls return for it.
`joined` says whether a delete's two sends arrived in one block; an upload's
and an update's header and name always do. -/
structure Sent where
  command : Command
  joined : Bool
  outcome : Outcome
  bodyOutcome : Bytes → Outcome

def Sent.name (q : Sent) : Bytes := q.command.name.bytes

def Sent.message (q : Sent) : Bytes := q.command.header.bytes ++ q.name

def Sent.body (q : Sent) : Bytes := q.command.body

def Sent.operation (q : Sent) : Bytes :=
  match q.command with
  | .upload _ _ => ascii "upload"
  | .delete _ => ascii "delete"
  | .update _ _ => ascii "update"

def Sent.split (q : Sent) : Bool :=
  match q.command with
  | .delete _ => !q.joined
  | _ => false

def Sent.blocks (q : Sent) : List Bytes :=
  if q.split then [q.command.header.bytes, q.name].filter (· ≠ []) else [q.message]

def Sent.deliver (q : Sent) : List Recv :=
  q.blocks.map (⟨·, q.outcome⟩) ++ (bodyBlocks q.command.file).map (fun b => ⟨b, q.bodyOutcome b⟩)

/-- Whether the target file gets opened for the body. -/
def Sent.opened (q : Sent) : Bool :=
  match q.command with
  | .upload _ _ => q.outcome.fopenOk
  | .delete _ => false
  | .update _ _ => q.outcome.removeOk && q.outcome.fopenOk

def Sent.asked (q : Sent) : Request := ⟨q.message, some q.operation, some q.name⟩

def delivered (qs : List Sent) (eof : Outcome) : List Recv := qs.flatMap Sent.deliver ++ [⟨[], eof⟩]

/-- The law: nothing undefined happens, the messages parsed are exactly the
commands sent, and each opened file was closed with exactly its body. -/
def KeptApart (cfg : Config) (qs : List Sent) (eof : Outcome) (s : Conn) : Prop :=
  (serve cfg (delivered qs eof) s).mode ≠ .undefined ∧
    (serve cfg (delivered qs eof) s).requests = s.requests ++ qs.map Sent.asked ∧
    (serve cfg (delivered qs eof) s).stored =
      s.stored ++ (qs.filter Sent.opened).map (fun q => (q.name, q.body))

/-- The message arrives in one block that fits, and its name has no colon. -/
def Sent.Plain (q : Sent) : Prop :=
  q.split = false ∧ q.message.length < BoxServer.bufferSize ∧ q.name ≠ [] ∧ ∀ b ∈ q.name, b ∉ colon

/-- When the law holds: after an opened target no further command comes, and a
target that is not opened has an empty body. -/
def Apart : List Sent → Prop
  | [] => True
  | q::qs => q.Plain ∧ (q.opened = true → qs = []) ∧ (q.opened = false → q.body = [] ∧ Apart qs)

theorem tokens_message (q : Sent) (hne : q.name ≠ []) (hcolon : ∀ b ∈ q.name, b ∉ colon) :
    tokens (cstr q.message) = (some q.operation, some q.name) := by
  have hheader : q.command.header.bytes = q.operation ++ colon := by
    unfold Sent.operation Command.header
    cases q.command <;> rfl
  have hop : q.operation ≠ [] ∧ (∀ b ∈ q.operation, b ∉ colon) ∧ 0 ∉ q.operation ++ colon := by
    unfold Sent.operation
    cases q.command <;>
      (dsimp only; exact ⟨by decide, forall_of_all (by decide), by decide⟩)
  have hnul : 0 ∉ q.message := by
    rw [Sent.message, hheader, List.mem_append, not_or]
    exact ⟨hop.2.2, q.command.name.noNul⟩
  have hmsg : q.message = q.operation ++ 58::q.name := by
    rw [Sent.message, hheader, List.append_assoc]
    rfl
  rw [cstr_of_noNul hnul, hmsg, tokens, nextToken_delim hop.1 hop.2.1 (by decide)]
  simp only [nextToken_whole hne hcolon, Option.map_some]

theorem message_ne_nil (q : Sent) : q.message ≠ [] := by
  simp [Sent.message, q.command.header.bytes_ne_nil]

theorem plain_message (cfg : Config) (q : Sent) (s : Conn) (hs : s.mode = .command)
    (hq : q.Plain) :
    (onRecv cfg ⟨q.message, q.outcome⟩ s).requests = s.requests ++ [q.asked] ∧
      (onRecv cfg ⟨q.message, q.outcome⟩ s).stored = s.stored ∧
      (q.opened = true → ∃ p, (onRecv cfg ⟨q.message, q.outcome⟩ s).mode = .transfer q.name p ∧
        (onRecv cfg ⟨q.message, q.outcome⟩ s).files q.name = some []) ∧
      (q.opened = false → (onRecv cfg ⟨q.message, q.outcome⟩ s).mode = .command) := by
  obtain ⟨-, hlen, hne, hcolon⟩ := hq
  obtain ⟨file, mem, hfile, hrecv⟩ := receiveCommand_parsed q.message s.buffer
    (message_ne_nil q) hlen (tokens_message q hne hcolon)
  obtain ⟨p, rfl, hname⟩ := Option.map_eq_some_iff.mp hfile
  have hon : onRecv cfg ⟨q.message, q.outcome⟩ s = receiveCommand ⟨q.message, q.outcome⟩ s := by
    simp [onRecv, hs]
  rw [hon, hrecv q.outcome s rfl]
  refine ⟨by rw [perform_requests]; rfl, by rw [perform_stored], ?_⟩
  unfold Sent.opened Sent.operation
  cases q.command with
  | upload name file =>
    simp only [perform, upload, openTarget, hname, if_true]
    constructor
    · intro ho
      rw [if_pos ho]
      exact ⟨p, rfl, by simp⟩
    · intro ho
      rw [if_neg (by simp [ho])]
      exact hs
  | delete name =>
    refine ⟨fun ho => by simp at ho, fun _ => ?_⟩
    dsimp only
    rw [perform, if_neg (by decide), if_pos rfl, delete]
    split_ifs
    · rw [writeLog_mode, removeFile_mode]
      exact hs
    · exact hs
  | update name file =>
    dsimp only
    rw [perform, if_neg (by decide), if_neg (by decide), if_pos rfl, update]
    cases hr : q.outcome.removeOk <;> cases ho : q.outcome.fopenOk
    · exact ⟨fun h => by simp at h, fun _ => hs⟩
    · exact ⟨fun h => by simp at h, fun _ => hs⟩
    · refine ⟨fun h => by simp at h, fun _ => ?_⟩
      simp only [if_true, openTarget, ho, Bool.false_eq_true, if_false]
      exact hs
    · refine ⟨fun _ => ⟨p, ?_, ?_⟩, fun h => by simp at h⟩
      · simp [openTarget, ho, hname]
      · simp [openTarget, ho, hname]

theorem deliver_ne_nil (q : Sent) : ∀ r ∈ q.deliver, r.block ≠ [] := by
  intro r hr
  rcases List.mem_append.mp hr with hr | hr
  · obtain ⟨b, hb, rfl⟩ := List.mem_map.mp hr
    unfold Sent.blocks at hb
    split_ifs at hb
    · simpa using (List.mem_filter.mp hb).2
    · rw [List.mem_singleton.mp hb]
      exact message_ne_nil q
  · obtain ⟨b, hb, rfl⟩ := List.mem_map.mp hr
    exact bodyBlocks_ne_nil _ b hb

theorem deliver_length (q : Sent) :
    (q.deliver.map (fun r => r.block.length)).sum = q.message.length + q.body.length := by
  have hbody : ((bodyBlocks q.command.file).map List.length).sum = q.body.length := by
    rw [Sent.body, Command.body, ← bodyBlocks_flatten, List.length_flatten]
  have hblocks : (q.blocks.map List.length).sum = q.message.length := by
    unfold Sent.blocks Sent.message
    split_ifs
    · by_cases hn : q.name = [] <;> by_cases hh : q.command.header.bytes = [] <;> simp [hn, hh]
    · simp
  simp only [Sent.deliver, List.map_append, List.map_map, Function.comp_def, List.sum_append]
  rw [← hbody, ← hblocks]

theorem delivered_ne_nil (qs : List Sent) : ∀ r ∈ qs.flatMap Sent.deliver, r.block ≠ [] := by
  intro r hr
  obtain ⟨q, -, hq⟩ := List.mem_flatMap.mp hr
  exact deliver_ne_nil q r hq

theorem delivered_length (qs : List Sent) :
    ((qs.flatMap Sent.deliver).map (fun r => r.block.length)).sum =
      (qs.map (fun q => q.message.length)).sum + (qs.map (fun q => q.body.length)).sum := by
  induction qs with
  | nil => rfl
  | cons q qs ih =>
    simp only [List.flatMap_cons, List.map_append, List.sum_append, ih, deliver_length,
      List.map_cons, List.sum_cons]
    omega

theorem opened_sum_le (qs : List Sent) :
    ((qs.filter Sent.opened).map (fun q => q.body.length)).sum ≤
      (qs.map (fun q => q.body.length)).sum := by
  induction qs with
  | nil => rfl
  | cons q qs ih =>
    by_cases ho : q.opened = true <;> simp [ho] <;> omega

theorem tokens_name {text name : Bytes} (h : (tokens text).2 = some name) :
    name ≠ [] ∧ ∀ b ∈ name, b ∉ colon := by
  unfold tokens at h
  split at h
  · cases h
  · obtain ⟨⟨tok, rest⟩, ht, rfl⟩ := Option.map_eq_some_iff.mp h
    exact nextToken_some ht

/-- The first block after the command loop was entered has to be the first
command's message. -/
theorem kept_first (cfg : Config) (q : Sent) (qs : List Sent) (eof : Outcome) (s : Conn)
    (hs : s.mode = .command) (r : Recv) (rs : List Recv) (hd : delivered (q::qs) eof = r::rs)
    (hne : r.block ≠ []) (hk : KeptApart cfg (q::qs) eof s) :
    r.block.length < BoxServer.bufferSize ∧ r.block = q.message ∧
      q.name ≠ [] ∧ ∀ b ∈ q.name, b ∉ colon := by
  obtain ⟨hu, hreq, -⟩ := hk
  rw [hd, serve_cons] at hu hreq
  have hon : onRecv cfg r s = receiveCommand r s := by simp [onRecv, hs]
  rw [hon] at hu hreq
  have hlen : r.block.length < BoxServer.bufferSize := by
    by_contra hlen
    apply hu
    apply serve_undefined
    simp [receiveCommand, hne, not_lt.mp hlen, listed]
  have hpre := serve_requests cfg rs (listed (receiveCommand r s))
  rw [hreq, listed_requests, receiveCommand_requests r s hne hlen,
    List.prefix_append_right_inj, List.map_cons, List.cons_prefix_cons] at hpre
  have hasked : Request.mk r.block _ _ = Request.mk _ _ _ := hpre.1
  simp only [Request.mk.injEq] at hasked
  obtain ⟨hblock, -, hname⟩ := hasked
  exact ⟨hlen, hblock, tokens_name hname⟩

theorem kept_plain (cfg : Config) (q : Sent) (qs : List Sent) (eof : Outcome) (s : Conn)
    (hs : s.mode = .command) (hk : KeptApart cfg (q::qs) eof s) : q.Plain := by
  have hd (r : Recv) (rs : List Recv) (h : q.deliver = r::rs) :
      delivered (q::qs) eof = r :: (rs ++ delivered qs eof) := by
    simp [delivered, h]
  cases hsplit : q.split with
  | false =>
    have hmsg := kept_first cfg q qs eof s hs ⟨q.message, q.outcome⟩ _
      (hd _ _ (by rw [Sent.deliver, Sent.blocks, hsplit]; rfl)) (message_ne_nil q) hk
    exact ⟨hsplit, hmsg.1, hmsg.2.2⟩
  | true =>
    -- the name of a delete was sent by itself: the header alone is no command
    have hheader := q.command.header.bytes_ne_nil
    have hhead := kept_first cfg q qs eof s hs ⟨q.command.header.bytes, q.outcome⟩ _
      (hd _ _ (by
        rw [Sent.deliver, Sent.blocks, if_pos hsplit, List.filter_cons_of_pos (by simp [hheader])]
        rfl)) hheader hk
    have hnil : q.name = [] := by simpa [Sent.message] using hhead.2.1
    exact absurd hnil hhead.2.2.1

theorem serve_eof (cfg : Config) (o : Outcome) (s : Conn) (hs : Active s) :
    (listed (onRecv cfg ⟨[], o⟩ s)).mode ≠ .undefined ∧
      (listed (onRecv cfg ⟨[], o⟩ s)).requests = s.requests := by
  rcases hs with hs | ⟨path, p, hs⟩ <;>
    simp [onRecv, hs, receiveCommand, receiveBody, listed]

theorem eof_stored (cfg : Config) (o : Outcome) (s : Conn) (path : Bytes) (p : ℕ)
    (hs : s.mode = .transfer path p) :
    (listed (onRecv cfg ⟨[], o⟩ s)).stored = s.stored ++ [(path, (s.files path).getD [])] := by
  rw [listed_command (by simp [onRecv, hs, receiveBody])]
  simp [onRecv, hs, receiveBody]

theorem serve_plain (cfg : Config) (q : Sent) (qs : List Sent) (eof : Outcome) (s : Conn)
    (hq : q.Plain) (hs : Active (onRecv cfg ⟨q.message, q.outcome⟩ s)) :
    serve cfg (delivered (q::qs) eof) s =
      serve cfg ((bodyBlocks q.command.file).map (fun b => ⟨b, q.bodyOutcome b⟩) ++
        delivered qs eof) (onRecv cfg ⟨q.message, q.outcome⟩ s) := by
  have hd : q.deliver = ⟨q.message, q.outcome⟩ ::
      (bodyBlocks q.command.file).map (fun b => ⟨b, q.bodyOutcome b⟩) := by
    rw [Sent.deliver, Sent.blocks, hq.1]
    rfl
  rw [delivered, List.flatMap_cons, hd, List.append_assoc, List.cons_append, serve_cons,
    listed_active hs, delivered]

theorem kept_unopened (cfg : Config) (q : Sent) (qs : List Sent) (eof : Outcome) (s : Conn)
    (hs : s.mode = .command) (hq : q.Plain) (ho : q.opened = false) (hbody : q.body = []) :
    KeptApart cfg (q::qs) eof s ↔
      KeptApart cfg qs eof (onRecv cfg ⟨q.message, q.outcome⟩ s) := by
  obtain ⟨hreq, hst, -, hm⟩ := plain_message cfg q s hs hq
  have hblocks : bodyBlocks q.command.file = [] := (bodyBlocks_eq_nil _).mpr hbody
  rw [KeptApart, KeptApart, serve_plain cfg q qs eof s hq (.inl (hm ho)), hblocks, hreq, hst]
  simp [ho]

theorem kept_opened (cfg : Config) (q : Sent) (qs : List Sent) (eof : Outcome) (s : Conn)
    (hs : s.mode = .command) (hq : q.Plain) (ho : q.opened = true) :
    KeptApart cfg (q::qs) eof s ↔ qs = [] := by
  obtain ⟨hreq, hst, hopen, -⟩ := plain_message cfg q s hs hq
  obtain ⟨p, hm, hfile⟩ := hopen ho
  set body : List Recv := (bodyBlocks q.command.file).map (fun b => ⟨b, q.bodyOutcome b⟩) with hb
  have hne : ∀ r ∈ body ++ qs.flatMap Sent.deliver, r.block ≠ [] := by
    intro r hr
    rcases List.mem_append.mp hr with hr | hr
    · obtain ⟨b, hb, rfl⟩ := List.mem_map.mp hr
      exact bodyBlocks_ne_nil _ b hb
    · exact delivered_ne_nil qs r hr
  obtain ⟨htm, htr, hts, htf⟩ := transfer_swallows cfg q.name p _ _ hm hne
  have hserve : serve cfg (delivered (q::qs) eof) s = listed (onRecv cfg ⟨[], eof⟩
      (serve cfg (body ++ qs.flatMap Sent.deliver) (onRecv cfg ⟨q.message, q.outcome⟩ s))) := by
    rw [serve_plain cfg q qs eof s hq (.inr ⟨_, _, hm⟩), delivered, ← List.append_assoc,
      serve_append]
    rfl
  obtain ⟨hmode, heof⟩ := serve_eof cfg eof _ (.inr ⟨_, _, htm⟩)
  constructor
  · rintro ⟨-, hk, -⟩
    rw [hserve, heof, htr, hreq, List.map_cons, ← List.singleton_append,
      List.append_cancel_left_eq] at hk
    simpa using hk
  · rintro rfl
    refine ⟨by rw [hserve]; exact hmode, by rw [hserve, heof, htr, hreq]; rfl, ?_⟩
    have hflat : (body.map Recv.block).flatten = q.body := by
      rw [hb, List.map_map, Sent.body, Command.body, ← bodyBlocks_flatten]
      simp [Function.comp_def]
    rw [List.flatMap_nil, List.append_nil] at *
    rw [hfile, hflat] at htf
    rw [hserve, eof_stored cfg eof _ _ _ htm, hts, hst, htf]
    simp [ho]

theorem kept_body (cfg : Config) (q : Sent) (qs : List Sent) (eof : Outcome) (s : Conn)
    (hs : s.mode = .command) (hk : KeptApart cfg (q::qs) eof s) (ho : q.opened = false) :
    q.body = [] := by
  obtain ⟨hu, hreq, hst⟩ := hk
  rw [delivered, serve_append] at hu hreq hst
  have hu' : (serve cfg ((q::qs).flatMap Sent.deliver) s).mode ≠ .undefined :=
    fun h => hu (serve_undefined cfg _ _ h)
  obtain ⟨hact, hw⟩ := serve_weight cfg _ s (.inl hs) (delivered_ne_nil (q::qs)) hu'
  obtain ⟨heof, hpend⟩ := eof_weight cfg eof _ hact
  have hlast : serve cfg [⟨[], eof⟩] (serve cfg ((q::qs).flatMap Sent.deliver) s) =
      listed (onRecv cfg ⟨[], eof⟩ (serve cfg ((q::qs).flatMap Sent.deliver) s)) := rfl
  rw [hlast] at hreq hst
  rw [hw, delivered_length, weight, weight, hreq, hst, hpend, pending_command hs] at heof
  have hle := opened_sum_le qs
  simp only [List.map_append, List.sum_append, List.map_map, Function.comp_def, Sent.asked,
    List.filter_cons_of_neg (by simp [ho] : ¬ q.opened = true), List.map_cons, List.sum_cons,
    List.length_nil] at heof
  exact List.length_eq_zero_iff.mp (by omega)

/-- Commands and bodies are kept apart exactly when no command follows an
opened target and every target that is not opened has an empty body. -/
theorem kept_apart_iff (cfg : Config) (qs : List Sent) (eof : Outcome) (s : Conn)
    (hs : s.mode = .command) : KeptApart cfg qs eof s ↔ Apart qs := by
  induction qs generalizing s with
  | nil =>
    have hr : serve cfg (delivered [] eof) s = { s with mode := .closed } := by
      simp [delivered, serve, onRecv, hs, receiveCommand, listed]
    simp [KeptApart, hr, Apart]
  | cons q qs ih =>
    constructor
    · intro hk
      have hq := kept_plain cfg q qs eof s hs hk
      refine ⟨hq, fun ho => (kept_opened cfg q qs eof s hs hq ho).mp hk, fun ho => ?_⟩
      have hbody := kept_body cfg q qs eof s hs hk ho
      have hm := (plain_message cfg q s hs hq).2.2.2 ho
      exact ⟨hbody, (ih _ hm).mp ((kept_unopened cfg q qs eof s hs hq ho hbody).mp hk)⟩
    · rintro ⟨hq, hopened, hunopened⟩
      cases ho : q.opened with
      | true => exact (kept_opened cfg q qs eof s hs hq ho).mpr (hopened ho)
      | false =>
        obtain ⟨hbody, hrest⟩ := hunopened ho
        have hm := (plain_message cfg q s hs hq).2.2.2 ho
        exact (kept_unopened cfg q qs eof s hs hq ho hbody).mpr ((ih _ hm).mpr hrest)

def allOk : Outcome := ⟨true, true, true, []⟩

def emptyServer : Config := ⟨ascii "srv", fun _ => some []⟩

/-- A connection in the command loop that has handled nothing yet. -/
def ready : Conn := { accepted [] (fun _ => none) with mode := .command }

def sentUpload (name : CStr) (body : Bytes) (fopenOk : Bool) : Sent where
  command := .upload name (some body)
  joined := true
  outcome := { allOk with fopenOk := fopenOk }
  bodyOutcome _ := allOk

theorem kept_apart_iff_last_upload :
    KeptApart emptyServer [sentUpload (literal "a") (ascii "x") true] allOk ready :=
  (kept_apart_iff emptyServer _ allOk ready rfl).mpr
    ⟨⟨rfl, by decide +kernel, by decide +kernel, by decide +kernel⟩, fun _ => rfl,
      fun h => absurd h (by decide)⟩

/-- The second upload ends up in the first one's file; a body whose target
could not be opened is taken as a command. -/
theorem upload_swallows_upload :
    (serve emptyServer (delivered [sentUpload (literal "a") (ascii "x") true,
        sentUpload (literal "b") (ascii "y") true] allOk) ready).stored =
      [(ascii "a", ascii "xupload:by")] ∧
    (serve emptyServer (delivered [sentUpload (literal "a") (ascii "delete:b") false]
        allOk) ready).requests =
      [⟨ascii "upload:a", some (ascii "upload"), some (ascii "a")⟩,
        ⟨ascii "delete:b", some (ascii "delete"), some (ascii "b")⟩] ∧
    ¬ KeptApart emptyServer [sentUpload (literal "a") (ascii "x") true,
        sentUpload (literal "b") (ascii "y") true] allOk ready ∧
    ¬ KeptApart emptyServer [sentUpload (literal "a") (ascii "delete:b") false]
        allOk ready := by
  have hfirst : (serve emptyServer (delivered [sentUpload (literal "a") (ascii "x") true,
      sentUpload (literal "b") (ascii "y") true] allOk) ready).stored =
      [(ascii "a", ascii "xupload:by")] := by decide
  have hsecond : (serve emptyServer (delivered
      [sentUpload (literal "a") (ascii "delete:b") false] allOk) ready).requests =
      [⟨ascii "upload:a", some (ascii "upload"), some (ascii "a")⟩,
        ⟨ascii "delete:b", some (ascii "delete"), some (ascii "b")⟩] := by decide
  refine ⟨hfirst, hsecond, fun ⟨_, _, h⟩ => ?_, fun ⟨_, h, _⟩ => ?_⟩
  · rw [hfirst] at h
    exact absurd h (by decide)
  · rw [hsecond] at h
    exact absurd h (by decide)

end CSE344.BoxBodies
