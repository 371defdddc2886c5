import SystemProgramming.BoxClient
import SystemProgramming.SharedWire

/-!
# The two threads of the BibakBOX client on one socket

The command loop and the synchronize thread call `send` on the same socket
without a lock. The requests stay in one piece on the wire exactly when one of
the threads is silent or neither has a request of two sends.
-/

set_option autoImplicit false

namespace CSE344.BoxWire
open CString BoxClient SharedWire

/-- The sends of the command loop and of the synchronize thread, tagged by
request. -/
def commandSends (commands : List Command) : List ((ℕ ⊕ ℕ) × Bytes) :=
  tagged Sum.inl 0 (commands.map Command.sends)

def synchronizeSends (requests : List (List Bytes)) : List ((ℕ ⊕ ℕ) × Bytes) :=
  tagged Sum.inr 0 requests

/-- However the two threads are scheduled, every request is in one piece. -/
def Unmixed (commands : List Command) (requests : List (List Bytes)) : Prop :=
  ∀ sends, Interleaves (commandSends commands) (synchronizeSends requests) sends →
    Together Sum.inl (commands.map Command.sends) (wire sends) ∧
      Together Sum.inr requests (wire sends)

theorem command_silent (c : Command) : ¬ Silent c.sends :=
  fun h => c.header.bytes_ne_nil (h c.header.bytes (by simp [Command.sends, request]))

theorem command_multi (c : Command) : Multi c.sends ↔ c.name.bytes ≠ [] ∨ c.body ≠ [] := by
  have hblocks : (bodyBlocks c.file).filter (fun s => !s.isEmpty) = bodyBlocks c.file :=
    List.filter_eq_self.mpr (fun b hb => by simpa using bodyBlocks_ne_nil c.file b hb)
  have hpos : 0 < (bodyBlocks c.file).length ↔ c.body ≠ [] := by
    rw [List.length_pos_iff, ne_eq, bodyBlocks_eq_nil]
    rfl
  rw [Multi, Command.sends, List.filter_append, hblocks, ← hpos, List.length_append]
  by_cases hn : c.name.bytes = []
  · have hlen : ((request c.header c.name).filter (fun s => !s.isEmpty)).length = 1 := by
      simp [request, c.header.bytes_ne_nil, hn]
    simp only [hlen, hn, ne_eq, not_true_eq_false, false_or]
    omega
  · have hlen : ((request c.header c.name).filter (fun s => !s.isEmpty)).length = 2 := by
      simp [request, c.header.bytes_ne_nil, hn]
    simp only [hlen, ne_eq, hn, not_false_eq_true, true_or, iff_true]
    omega

/-- The requests of the client stay in one piece exactly when no command of
two sends meets a synchronize thread that sends something, and no request of
two sends of that thread meets a command. -/
theorem unmixed_iff (commands : List Command) (clientDir : CStr) (listing : List CStr)
    (passes : List (List Visit)) :
    Unmixed commands (synchronizeRequests clientDir listing passes) ↔
      ((∃ c ∈ commands, c.name.bytes ≠ [] ∨ c.body ≠ []) →
        ∀ r ∈ synchronizeRequests clientDir listing passes, Silent r) ∧
      ((∃ r ∈ synchronizeRequests clientDir listing passes, Multi r) → commands = []) := by
  have hsilent : (∀ r ∈ commands.map Command.sends, Silent r) ↔ commands = [] := by
    simp only [List.forall_mem_map, command_silent, imp_false]
    exact List.eq_nil_iff_forall_not_mem.symm
  have hmulti : (∃ r ∈ commands.map Command.sends, Multi r) ↔
      ∃ c ∈ commands, c.name.bytes ≠ [] ∨ c.body ≠ [] := by
    simp [command_multi]
  rw [Unmixed, ← hsilent, ← hmulti]
  exact together_iff Sum.inl Sum.inr (fun _ _ => Sum.inl.inj) (fun _ _ => Sum.inr.inj)
    (by simp) _ _

def uploadA : Command := .upload (literal "a") (some (ascii "body"))

/-- The directory name of the synchronize thread lands inside an upload. -/
theorem directory_inside_upload :
    Interleaves (commandSends [uploadA]) (synchronizeSends (synchronizeRequests
        (literal "d") [] []))
      [(.inl 0, ascii "upload:"), (.inl 0, ascii "a"), (.inr 0, ascii "d"),
        (.inl 0, ascii "body")] ∧
    ¬ Unmixed [uploadA] (synchronizeRequests (literal "d") [] []) := by
  have hint : Interleaves (commandSends [uploadA]) (synchronizeSends (synchronizeRequests
        (literal "d") [] []))
      [(.inl 0, ascii "upload:"), (.inl 0, ascii "a"), (.inr 0, ascii "d"),
        (.inl 0, ascii "body")] := .left (.left (.right (.left .nil)))
  refine ⟨hint, fun h => ?_⟩
  have hin : uploadA.sends.flatten.map (Sum.inl 0, ·) <:+:
      wire [(Sum.inl 0, ascii "upload:"), (.inl 0, ascii "a")] ++
        (wire [(Sum.inr 0, ascii "d")] ++ wire [(Sum.inl 0, ascii "body")]) :=
    (h _ hint).1 0 uploadA.sends rfl
  rcases infix_beside (p := fun x => decide (x.1 = Sum.inl 0)) hin (by decide) (by decide)
    (by decide) with hside | hside
  · exact absurd hside.length_le (by decide)
  · exact absurd hside.length_le (by decide)

end CSE344.BoxWire
