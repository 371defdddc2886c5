import SystemProgramming.BoxAtomic

/-!
# Requests for files that cannot be read

`sendFile` opens the file before it sends a byte. The two commands of the main
loop send the header and the name first, and that is all the server needs to
truncate or remove its copy.
-/

set_option autoImplicit false

namespace CSE344.BoxUnread
open CString BoxClient BoxServer BoxBodies BoxStore BoxAtomic

/-- The three places of the client that send a file. -/
inductive SendPath where
  | sendFile
  | upload
  | update
  deriving DecidableEq

def SendPath.sends : SendPath → CStr → Option Bytes → List Bytes
  | .sendFile, filePath, file => (BoxClient.sendFile filePath.bytes file).flatten
  | .upload, name, file => (Command.upload name file).sends
  | .update, name, file => (Command.update name file).sends

/-- Nothing is sent for a file that cannot be opened, and no server that
receives what is sent changes a file. -/
def Silent (p : SendPath) (name : CStr) (file : Option Bytes) : Prop :=
  file = none → (p.sends name file).flatten = [] ∧
    ∀ (w : World) (s : State) (rs : List Recv), (∀ r ∈ rs, r.block ≠ []) →
      (rs.map Recv.block).flatten = (p.sends name file).flatten →
        (rs.foldl (turn w) s).files = s.files

theorem sendFile_silent (filePath : CStr) (file : Option Bytes) :
    Silent .sendFile filePath file := by
  rintro rfl
  refine ⟨rfl, fun w s rs hne hflat => ?_⟩
  have hnil : rs = [] := by
    apply List.eq_nil_iff_forall_not_mem.mpr
    intro r hr
    exact hne r hr (List.flatten_eq_nil_iff.mp hflat r.block (List.mem_map_of_mem hr))
  rw [hnil]
  rfl

theorem command_speaks (c : Command) : c.sends.flatten ≠ [] := by
  intro hnil
  have hheader : c.header.bytes ∈ c.sends := by simp [Command.sends, BoxClient.request]
  exact c.header.bytes_ne_nil (List.flatten_eq_nil_iff.mp hnil _ hheader)

/-- The client is silent just on the path through `sendFile`, or about files
that it can open. -/
theorem silent_iff (p : SendPath) (name : CStr) (file : Option Bytes) :
    Silent p name file ↔ p = .sendFile ∨ file ≠ none := by
  constructor
  · intro h
    by_cases hfile : file = none
    · left
      have hnone := (h hfile).1
      cases p with
      | sendFile => rfl
      | upload => exact absurd hnone (command_speaks _)
      | update => exact absurd hnone (command_speaks _)
    · exact Or.inr hfile
  · rintro (rfl | hfile) hnone
    · exact sendFile_silent name file hnone
    · exact absurd hnone hfile

section Server

variable {w : World} {s : State} {o : Outcome} (name : CStr) (hwait : Waiting w s)
  (hname : name.bytes ≠ []) (hcolon : ∀ b ∈ name.bytes, b ∉ colon)

include hwait hname hcolon

/-- The header of an upload, with no byte of a body, empties the server's file. -/
theorem header_truncates (hopen : o.fopenOk = true)
    (hlen : (Header.upload.bytes ++ name.bytes).length < BoxServer.bufferSize) :
    (turn w s ⟨Header.upload.bytes ++ name.bytes, o⟩).files (w.place name.bytes) = some [] := by
  have htokens : tokens (cstr (Header.upload.bytes ++ name.bytes)) =
      (some (ascii "upload"), some name.bytes) :=
    tokens_message ⟨.upload name none, true, o, fun _ => o⟩ hname hcolon
  have hcalls := callsOf_message (r := ⟨Header.upload.bytes ++ name.bytes, o⟩) hwait.1
    (message_ne_nil ⟨.upload name none, true, o, fun _ => o⟩) hlen htokens
  rw [turn, hcalls]
  simp [performed, opened, hopen, FileCalls.performAll, FileCalls.perform]

theorem header_removes (hremove : o.removeOk = true)
    (hlen : (Header.update.bytes ++ name.bytes).length < BoxServer.bufferSize) :
    (turn w s ⟨Header.update.bytes ++ name.bytes, o⟩).files (w.named name.bytes) =
      if o.fopenOk = true ∧ w.place name.bytes = w.named name.bytes then some [] else none := by
  have htokens : tokens (cstr (Header.update.bytes ++ name.bytes)) =
      (some (ascii "update"), some name.bytes) :=
    tokens_message ⟨.update name none, true, o, fun _ => o⟩ hname hcolon
  have hfiles := message_files (w := w) (m := ⟨Header.update.bytes ++ name.bytes, o⟩) hwait.1
    (message_ne_nil ⟨.update name none, true, o, fun _ => o⟩) hlen htokens hwait.2
  rw [hfiles, if_pos hremove]
  dsimp only
  cases o.fopenOk with
  | false => simp
  | true => simpa using stored_at (w := w) s.files name.bytes []

end Server

/-- A name that is not there, sent to a server that has a copy. -/
theorem copy_lost :
    ¬ Silent .upload (literal "a") none ∧ ¬ Silent .update (literal "a") none ∧
    (turn inPlace (holding inPlace (ascii "a") (ascii "old"))
      ⟨(SendPath.upload.sends (literal "a") none).flatten, allOk⟩).files
        (inPlace.named (ascii "a")) = some [] ∧
    (turn apart (holding apart (ascii "a") (ascii "old"))
      ⟨(SendPath.update.sends (literal "a") none).flatten, allOk⟩).files
        (apart.named (ascii "a")) = none := by
  have hplace : inPlace.named (ascii "a") = inPlace.place (ascii "a") := by decide
  have hcolon : ∀ b ∈ (literal "a").bytes, b ∉ colon := by simp [literal, colon, ascii, cstr]
  refine ⟨fun h => command_speaks _ (h rfl).1, fun h => command_speaks _ (h rfl).1, ?_, ?_⟩
  · rw [hplace]
    exact header_truncates (literal "a") ⟨rfl, rfl⟩ (by decide) hcolon rfl (by decide)
  · have hwait : Waiting apart (holding apart (ascii "a") (ascii "old")) := ⟨rfl, rfl⟩
    have hgone := header_removes (o := allOk) (literal "a") hwait (by decide) hcolon rfl
      (by decide)
    exact hgone.trans (if_neg (by decide))

end CSE344.BoxUnread
