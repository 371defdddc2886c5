import SystemProgramming.BiboServer
import SystemProgramming.BoxServer
import SystemProgramming.SharedStrtok

/-!
# The tokens of a request in the threaded servers

The HW4 server tokenises `readF` and `writeT` by two and three calls of
`strtok` and `upload` and `download` by one, the BibakBOX server every command
by two. In each there is one thread for each client and one saved position.
-/

set_option autoImplicit false

namespace CSE344.RequestTokens
open CString TransitionRun SharedStrtok

/-- The calls that `handle_client` of HW4 makes for a received command. -/
def biboCalls (buffer : Bytes) : List Call :=
  if BiboServer.strncmpEq "help" buffer then []
  else if BiboServer.strncmpEq "list" buffer then []
  else if BiboServer.strncmpEq "readF" buffer then
    [⟨some 6, BiboServer.space⟩, ⟨none, BiboServer.space⟩]
  else if BiboServer.strncmpEq "writeT" buffer then
    [⟨some 7, BiboServer.space⟩, ⟨none, BiboServer.space⟩, ⟨none, []⟩]
  else if BiboServer.strncmpEq "upload" buffer then [⟨some 7, BiboServer.space⟩]
  else if BiboServer.strncmpEq "download" buffer then [⟨some 9, BiboServer.space⟩]
  else []

/-- The calls that `handleClient` of BibakBOX makes for every command. -/
def boxCalls : List Call := [⟨some 0, BoxServer.colon⟩, ⟨none, BoxServer.colon⟩]

inductive Program where
  | bibo
  | box
  deriving DecidableEq, Repr

def Program.server : Program → Server
  | .bibo => ⟨fun block _ => BiboServer.received block, none, biboCalls⟩
  | .box => ⟨BoxServer.terminated, some BoxServer.recvInto, fun _ => boxCalls⟩

theorem biboCalls_wellFormed (m : Bytes) : WellFormed (biboCalls m) := by
  unfold biboCalls
  split_ifs <;> rintro c ⟨⟩ <;> rfl

theorem server_wellFormed (pr : Program) (m : Bytes) : WellFormed (pr.server.script m) := by
  cases pr with
  | bibo => exact biboCalls_wellFormed m
  | box =>
    intro c hc
    obtain rfl : ⟨some 0, BoxServer.colon⟩ = c := by simpa [Program.server, boxCalls] using hc
    rfl

theorem biboCalls_readF {m : Bytes} (h : BiboServer.strncmpEq "readF" m = true) :
    biboCalls m = ⟨some 6, BiboServer.space⟩ :: [BiboServer.space].map (Call.mk none) := by
  obtain ⟨rest, rfl⟩ := List.isPrefixOf_iff_prefix.mp h
  rfl

theorem biboCalls_writeT {m : Bytes} (h : BiboServer.strncmpEq "writeT" m = true) :
    biboCalls m = ⟨some 7, BiboServer.space⟩ :: [BiboServer.space, []].map (Call.mk none) := by
  obtain ⟨rest, rfl⟩ := List.isPrefixOf_iff_prefix.mp h
  rfl

theorem chain_fields (args : Bytes) : chain [BiboServer.space, BiboServer.space, []] args =
    [(BiboServer.fields args).filename, (BiboServer.fields args).lineStr,
      (BiboServer.fields args).text] := by
  unfold BiboServer.fields
  simp only [chain]
  cases nextToken BiboServer.space args with
  | none => rfl
  | some tr =>
    dsimp only
    cases nextToken BiboServer.space tr.2 with
    | none => rfl
    | some ur =>
      dsimp only
      cases nextToken [] ur.2 <;> rfl

theorem alone_readF (m : Bytes) (h : BiboServer.strncmpEq "readF" m = true) :
    alone (biboCalls m) m 0 [] =
      [(BiboServer.fields (cstrAt m 6)).filename, (BiboServer.fields (cstrAt m 6)).lineStr] := by
  rw [biboCalls_readF h, alone_chain]
  calc chain [BiboServer.space, BiboServer.space] (cstrAt m 6)
      = (chain [BiboServer.space, BiboServer.space, []] (cstrAt m 6)).take 2 :=
        (chain_take [BiboServer.space, BiboServer.space, []] _ 2).symm
    _ = _ := by rw [chain_fields]; rfl

theorem alone_writeT (m : Bytes) (h : BiboServer.strncmpEq "writeT" m = true) :
    alone (biboCalls m) m 0 [] =
      [(BiboServer.fields (cstrAt m 7)).filename, (BiboServer.fields (cstrAt m 7)).lineStr,
        (BiboServer.fields (cstrAt m 7)).text] := by
  rw [biboCalls_writeT h, alone_chain]
  exact chain_fields _

theorem alone_box (m : Bytes) : alone boxCalls m 0 [] =
    [(BoxServer.tokens (cstrAt m 0)).1, (BoxServer.tokens (cstrAt m 0)).2] := by
  rw [show boxCalls = ⟨some 0, BoxServer.colon⟩ :: [BoxServer.colon].map (Call.mk none) from rfl,
    alone_chain]
  unfold BoxServer.tokens
  simp only [chain]
  cases nextToken BoxServer.colon (cstrAt m 0) with
  | none => rfl
  | some tr =>
    dsimp only
    cases nextToken BoxServer.colon tr.2 <;> rfl

/-- Tokens of a request come from that request alone as long as no thread
calls `strtok` while another one is between its first and its last call. -/
theorem tokens_own {ι : Type*} [DecidableEq ι] (pr : Program) (mem : ι → Bytes) (save : ι × ℕ)
    (as : List (Act ι)) (t : State ι)
    (hc : Meets (step pr.server) Undisturbed as (init mem save))
    (h : run (step pr.server) as (init mem save) = some t) : Own pr.server t :=
  own_of_undisturbed (server_wellFormed pr) mem save as t hc h

def start : State Bool := init (fun _ => List.replicate 9 0) (false, 0)

def uploadA : Act Bool := .recv false (ascii "upload:a")

def deleteB : Act Bool := .recv true (ascii "delete:b")

/-- One command after the other. -/
def inTurn : List (Act Bool) :=
  [uploadA, deleteB, .call false, .call false, .call true, .call true]

theorem tokens_own_inTurn : ∃ t, run (step Program.box.server) inTurn start = some t ∧
    Own Program.box.server t :=
  ⟨_, rfl, tokens_own .box _ _ inTurn _ (by decide) rfl⟩

/-- Both threads have made their first call before either makes its second. -/
def mixed : List (Act Bool) :=
  [uploadA, deleteB, .call false, .call true, .call false, .call true]

/-- The upload gets the name of the file to be deleted, the delete gets none. -/
theorem mixed_tokens : ∃ t, run (step Program.box.server) mixed start = some t ∧
    ¬ Own Program.box.server t ∧
    (t.threads false).parsed =
      [(ascii "upload:a" ++ [0], [some (ascii "upload"), some (ascii "b")])] ∧
    (t.threads true).parsed = [(ascii "delete:b" ++ [0], [some (ascii "delete"), none])] := by
  refine ⟨_, rfl, fun h => ?_, rfl, rfl⟩
  have := h false (ascii "upload:a" ++ [0], [some (ascii "upload"), some (ascii "b")])
    (List.mem_singleton_self _)
  revert this
  decide

end CSE344.RequestTokens
