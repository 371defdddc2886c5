import SystemProgramming.BiboServer
import SystemProgramming.BoxServer
import SystemProgramming.PathResolve

/-!
# File names and the served directories

Which files the commands of the two servers touch, and when the paths built
from a client's names stay in the directory argument. Neither server looks at
the components of a name.
-/

set_option autoImplicit false

namespace CSE344.PathConfinement
open CString PathResolve

def unix : Convention UInt8 where
  sep := 47
  here := ascii "."
  up := ascii ".."

abbrev Loc := List Bytes

/-- The path denotes the directory or something below it. -/
def Inside (cwd : Loc) (dir path : Bytes) : Prop := anchor unix cwd dir <+: resolve unix cwd path

/-- The name, walked from the directory, comes back to all it has left. -/
def Confined (cwd : Loc) (dir name : Bytes) : Prop :=
  Stays unix.up (anchor unix cwd dir) (components unix name)

instance (cwd : Loc) (dir path : Bytes) : Decidable (Inside cwd dir path) :=
  inferInstanceAs (Decidable (_ <+: _))

instance (cwd : Loc) (dir name : Bytes) : Decidable (Confined cwd dir name) :=
  inferInstanceAs (Decidable (Stays _ _ _))

theorem inside_resolve (cwd : Loc) {dir : Bytes} (h : dir ≠ []) (path : Bytes) :
    Inside cwd dir path ↔ resolve unix cwd dir <+: resolve unix cwd path := by
  rw [Inside, anchor_of_ne_nil unix cwd h]

theorem inside_joinPath (cwd : Loc) (dir name : Bytes) :
    Inside cwd dir (joinPath dir name) ↔ Confined cwd dir name := by
  have hjoin : joinPath dir name = dir ++ unix.sep::name := by
    show dir ++ [47] ++ name = dir ++ 47::name
    simp
  rw [Inside, hjoin]
  exact inside_iff unix cwd dir name

/-- A name without the component `..` is confined in every directory. -/
theorem confined_of_no_up (cwd : Loc) (dir : Bytes) {name : Bytes}
    (h : unix.up ∉ components unix name) : Confined cwd dir name := by
  apply stays_of_no_climb
  rw [climb_of_no_up _ h]

section Commands
open BiboServer

/-- The file at a path replaced. -/
def withFile (p : Bytes) (content : Option Bytes) (s : State) : State :=
  { s with files := Function.update s.files p content }

/-- Replacing the file at `p` does not commute with the operation: the
operation reads, creates, truncates or removes it. -/
def Touches (op : State → Option State) (p : Bytes) : Prop :=
  ∃ s content, op (withFile p content s) ≠ (op s).map (withFile p content)

/-- The text behind the command word of the four file commands. -/
def commandArgs (buffer : Bytes) : Option Bytes :=
  if strncmpEq "help" buffer then none
  else if strncmpEq "list" buffer then none
  else if strncmpEq "readF" buffer then stringAt buffer 6
  else if strncmpEq "writeT" buffer then stringAt buffer 7
  else if strncmpEq "upload" buffer then stringAt buffer 7
  else if strncmpEq "download" buffer then stringAt buffer 9
  else none

variable (p : Bytes) (content : Option Bytes)

def Commutes (op : State → Option State) : Prop :=
  ∀ s, op (withFile p content s) = (op s).map (withFile p content)

theorem respond_commutes (text : Bytes) : Commutes p content (State.respond text) := by
  intro s
  simp only [State.respond, Option.map_map]
  rfl

theorem append_commutes (text : Bytes) : Commutes p content (State.append text) := by
  intro s
  simp only [State.append, Option.map_map]
  rfl

theorem bind_commutes {f g : State → Option State} (hf : Commutes p content f)
    (hg : Commutes p content g) : Commutes p content (fun s => (f s).bind g) := by
  intro s
  show (f (withFile p content s)).bind g = ((f s).bind g).map (withFile p content)
  rw [hf s]
  cases f s with
  | none => rfl
  | some t => exact hg t

theorem foldlM_commutes {ι : Type*} {f : ι → State → Option State}
    (hf : ∀ i, Commutes p content (f i)) (is : List ι) :
    Commutes p content (fun s => is.foldlM (fun s i => f i s) s) := by
  induction is with
  | nil => exact fun s => rfl
  | cons i is ih => exact bind_commutes p content (hf i) ih

theorem list_commutes (cfg : Config) : Commutes p content (list cfg) := by
  unfold list
  cases cfg.readDir with
  | none => exact respond_commutes p content _
  | some names =>
    apply bind_commutes p content (respond_commutes p content _)
    apply foldlM_commutes p content
    exact fun name => bind_commutes p content (append_commutes p content name)
      (append_commutes p content _)

theorem put_withFile {path : Bytes} (h : p ≠ path) (data : Bytes) (s : State) :
    (withFile p content s).put path data = withFile p content (s.put path data) := by
  simp only [withFile, State.put]
  rw [Function.update_comm h]

theorem files_withFile {path : Bytes} (h : p ≠ path) (s : State) :
    (withFile p content s).files path = s.files path :=
  Function.update_of_ne h.symm _ _

theorem readF_commutes (cfg : Config) (args : Bytes) (h : p ≠ filepath cfg (fields args)) :
    Commutes p content (readF cfg args) := by
  intro s
  simp only [readF, files_withFile p content h]
  cases s.files (filepath cfg (fields args)) with
  | none => exact respond_commutes p content _ s
  | some data =>
    dsimp only
    split_ifs
    · exact bind_commutes p content (respond_commutes p content _)
        (foldlM_commutes p content (append_commutes p content) _) s
    · exact respond_commutes p content _ s
    · exact respond_commutes p content _ s

theorem finish_commutes (text : Bytes) : Commutes p content (fun s =>
    if s.response.head? = some 0 then s.respond text else some s) := by
  intro s
  show (if s.response.head? = some 0 then (withFile p content s).respond text else
    some (withFile p content s)) = Option.map _ (if s.response.head? = some 0 then _ else _)
  split_ifs
  · exact respond_commutes p content _ s
  · rfl

theorem writeT_commutes (cfg : Config) (openOk : Bool) (args : Bytes)
    (h : p ≠ filepath cfg (fields args)) : Commutes p content (writeT cfg openOk args) := by
  cases openOk with
  | false => exact fun s => rfl
  | true =>
    intro s
    have hfinish := finish_commutes p content (ascii "Write successful")
    simp only [writeT, guard, if_true, pure_bind, files_withFile p content h,
      put_withFile p content h]
    cases s.files (filepath cfg (fields args)) with
    | none =>
      cases (fields args).text with
      | none => rfl
      | some text => exact hfinish (s.put _ text)
    | some data =>
      dsimp only
      split
      · rfl
      · exact bind_commutes p content (respond_commutes p content _) hfinish s
      · exact hfinish (s.put _ _)

theorem upload_commutes (cfg : Config) (openOk : Bool) (args : Bytes)
    (h : p ≠ filepath cfg (fields args)) :
    Commutes p content (BiboServer.upload cfg openOk args) := by
  intro s
  simp only [BiboServer.upload, put_withFile p content h]
  split_ifs
  · exact respond_commutes p content _ _
  · exact respond_commutes p content _ s

theorem download_commutes (cfg : Config) (args : Bytes) (h : p ≠ filepath cfg (fields args)) :
    Commutes p content (download cfg args) := by
  intro s
  simp only [download, files_withFile p content h]
  cases s.files (filepath cfg (fields args)) with
  | none => exact respond_commutes p content _ s
  | some data => exact respond_commutes p content _ s

theorem next_commutes (text : Bytes) (next : Next) :
    Commutes p content (fun s => (s.respond text).map (fun s => { s with next := next })) := by
  intro s
  simp only [State.respond, Option.map_map]
  rfl

theorem bindArgs_commutes {f : Bytes → State → Option State} {text : Option Bytes}
    (h : ∀ args, text = some args → Commutes p content (f args)) :
    Commutes p content (fun s => text.bind (fun args => f args s)) := by
  cases text with
  | none => exact fun s => rfl
  | some args => exact h args rfl

theorem ite_commutes {c : Prop} [Decidable c] {f g : State → Option State}
    (hf : c → Commutes p content f) (hg : ¬ c → Commutes p content g) :
    Commutes p content (fun s => if c then f s else g s) := by
  by_cases h : c
  · simpa only [if_pos h] using hf h
  · simpa only [if_neg h] using hg h

theorem command_commutes (cfg : Config) (openOk : Bool) (buffer : Bytes)
    (hnot : ∀ args, commandArgs buffer = some args → p ≠ filepath cfg (fields args)) :
    Commutes p content (command cfg openOk buffer) := by
  unfold command
  apply ite_commutes p content (fun _ => respond_commutes p content _)
  intro hhelp
  apply ite_commutes p content (fun _ => list_commutes p content cfg)
  intro hlist
  rw [commandArgs, if_neg hhelp, if_neg hlist] at hnot
  apply ite_commutes p content
  · intro hread
    rw [if_pos hread] at hnot
    exact bindArgs_commutes p content
      (fun args ha => readF_commutes p content cfg args (hnot args ha))
  intro hread
  rw [if_neg hread] at hnot
  apply ite_commutes p content
  · intro hwrite
    rw [if_pos hwrite] at hnot
    exact bindArgs_commutes p content
      (fun args ha => writeT_commutes p content cfg openOk args (hnot args ha))
  intro hwrite
  rw [if_neg hwrite] at hnot
  apply ite_commutes p content
  · intro hupload
    rw [if_pos hupload] at hnot
    exact bindArgs_commutes p content
      (fun args ha => upload_commutes p content cfg openOk args (hnot args ha))
  intro hupload
  rw [if_neg hupload] at hnot
  apply ite_commutes p content
  · intro hdownload
    rw [if_pos hdownload] at hnot
    exact bindArgs_commutes p content
      (fun args ha => download_commutes p content cfg args (hnot args ha))
  intro _
  apply ite_commutes p content (fun _ => next_commutes p content _ _)
  intro _
  exact ite_commutes p content (fun _ => next_commutes p content _ _)
    (fun _ => respond_commutes p content _)

theorem touched_path (cfg : Config) (openOk : Bool) (buffer : Bytes)
    (h : Touches (command cfg openOk buffer) p) :
    ∃ args, commandArgs buffer = some args ∧ p = filepath cfg (fields args) := by
  by_contra hno
  obtain ⟨s, content, hne⟩ := h
  exact hne (command_commutes p content cfg openOk buffer (fun args ha hp => hno ⟨args, ha, hp⟩) s)

end Commands

section Requests
open BoxServer

/-- The file at a path replaced. -/
def setFile (p : Bytes) (content : Option Bytes) (s : Conn) : Conn :=
  { s with files := Function.update s.files p content }

/-- As `Touches`, for what a connection does from one state. -/
def TouchesAt (op : Conn → Conn) (s : Conn) (p : Bytes) : Prop :=
  ∃ content, op (setFile p content s) ≠ setFile p content (op s)

def logPath (s : Conn) : Bytes := joinPath s.clientDir (ascii "logfile.txt")

variable (p : Bytes) (content : Option Bytes) (o : Outcome)

theorem writeLog_commutes (message : Bytes) (s : Conn) (h : p ≠ logPath s) :
    writeLog o message (setFile p content s) = setFile p content (writeLog o message s) := by
  have hread : Function.update s.files p content (logPath s) = s.files (logPath s) :=
    Function.update_of_ne h.symm _ _
  simp only [logPath] at h hread
  simp only [writeLog, setFile, hread, Function.update_comm h]
  split_ifs <;> rfl

theorem openTarget_commutes (file : Option ℕ) (s : Conn)
    (h : ∀ q, file = some q → p ≠ cstrAt s.buffer q) :
    openTarget o file (setFile p content s) = setFile p content (openTarget o file s) := by
  cases file with
  | none => rfl
  | some q =>
    simp only [openTarget, setFile, Function.update_comm (h q rfl)]
    split_ifs <;> rfl

theorem removeFile_commutes (file : Option ℕ) (s : Conn)
    (h : p ≠ joinPath s.clientDir (BoxServer.printed (file.map (cstrAt s.buffer)))) :
    removeFile file (setFile p content s) = setFile p content (removeFile file s) := by
  simp only [removeFile, setFile, Function.update_comm h]

theorem perform_commutes (op : Option Bytes) (file : Option ℕ) (s : Conn)
    (hlog : p ≠ logPath s)
    (hremove : op = some (ascii "delete") ∨ op = some (ascii "update") →
      p ≠ joinPath s.clientDir (BoxServer.printed (file.map (cstrAt s.buffer))))
    (hopen : op = some (ascii "upload") ∨ op = some (ascii "update") →
      ∀ q, file = some q → p ≠ cstrAt s.buffer q) :
    perform o op file (setFile p content s) = setFile p content (perform o op file s) := by
  cases op with
  | none => rfl
  | some op =>
    simp only [perform]
    split_ifs with hupload hdelete hupdate
    · exact openTarget_commutes p content o file s (hopen (Or.inl (by rw [hupload])))
    · simp only [delete]
      rw [removeFile_commutes p content file s (hremove (Or.inl (by rw [hdelete])))]
      split_ifs
      · exact writeLog_commutes p content o _ (removeFile file s) hlog
      · rfl
    · simp only [update]
      rw [removeFile_commutes p content file s (hremove (Or.inr (by rw [hupdate])))]
      split_ifs
      · exact openTarget_commutes p content o file (removeFile file s)
          (hopen (Or.inr (by rw [hupdate])))
      · rfl
    · rfl

/-- The files a request touches: the log, the path built for `remove`, and the
bare name that `fopen` is given. -/
theorem request_touched (r : Recv) (s : Conn) (op name : Bytes)
    (htokens : tokens (cstr r.block) = (some op, some name))
    (h : TouchesAt (receiveCommand r) s p) :
    p = logPath s ∨
      ((op = ascii "delete" ∨ op = ascii "update") ∧ p = joinPath s.clientDir name) ∨
      ((op = ascii "upload" ∨ op = ascii "update") ∧ p = name) := by
  obtain ⟨content, hne⟩ := h
  by_contra hno
  simp only [not_or] at hno
  obtain ⟨hlog, hremove, hopen⟩ := hno
  apply hne
  by_cases hnil : r.block = []
  · simp only [receiveCommand, if_pos hnil]
    rfl
  · by_cases hlen : r.block.length < BoxServer.bufferSize
    · obtain ⟨file, mem, hfile, hrecv⟩ := receiveCommand_parsed r.block s.buffer hnil hlen htokens
      obtain ⟨q, rfl, hq⟩ := Option.map_eq_some_iff.mp hfile
      rw [hrecv r.outcome s rfl, hrecv r.outcome (setFile p content s) rfl]
      apply perform_commutes p content r.outcome (some op) (some q)
        { s with buffer := mem, requests := s.requests ++ [⟨r.block, some op, some name⟩] } hlog
      · intro hop hp
        rw [Option.map_some, hq] at hp
        exact hremove ⟨by simpa using hop, hp⟩
      · intro hop q' hq' hp
        cases hq'
        rw [hq] at hp
        exact hopen ⟨by simpa using hop, hp⟩
    · simp only [receiveCommand, if_neg hnil, if_pos (Nat.not_lt.mp hlen)]
      rfl

end Requests

theorem inside_logPath (cwd : Loc) (s : BoxServer.Conn) : Inside cwd s.clientDir (logPath s) := by
  rw [logPath, inside_joinPath]
  apply confined_of_no_up
  decide

theorem snprintf_joinPath (dir name : Bytes) :
    (dir.length ≤ 1026 →
      snprintf 1028 (joinPath dir name) = joinPath dir (name.take (1026-dir.length))) ∧
    (1026 < dir.length → snprintf 1028 (joinPath dir name) = dir.take 1027) := by
  have hslash : (ascii "/").length = 1 := rfl
  simp only [snprintf, joinPath, List.append_assoc]
  constructor
  · intro h
    rw [List.take_append, List.take_append, List.take_of_length_le (by omega),
      List.take_of_length_le (by omega), hslash]
    congr 3
    omega
  · intro h
    rw [List.take_append_of_le_length (by omega)]

theorem hello_clientDir (cfg : BoxServer.Config) (r : BoxServer.Recv) (s : BoxServer.Conn)
    (hne : r.block ≠ []) (hlen : r.block.length < BoxServer.bufferSize) :
    (BoxServer.receiveHello cfg r s).clientDir =
      snprintf 1028 (joinPath cfg.directory (cstr r.block)) := by
  simp only [BoxServer.receiveHello, if_neg hne, if_neg (Nat.not_le.mpr hlen),
    BoxServer.cstrAt_terminated]

/-- The paths the servers build from a client's names stay in their directory
exactly if the name is confined there. Nothing is said of the bare name that
`fopen` is given for an upload or an update. -/
theorem names_confined (cwd : Loc) :
    (∀ (cfg : BiboServer.Config) (openOk : Bool) (block p : Bytes),
      Touches (BiboServer.command cfg openOk (BiboServer.received block)) p →
      ∃ args, commandArgs (BiboServer.received block) = some args ∧
        (Inside cwd cfg.dirname p ↔
          Confined cwd cfg.dirname (BiboServer.printed (BiboServer.fields args).filename))) ∧
    (∀ (cfg : BoxServer.Config) (r : BoxServer.Recv) (s : BoxServer.Conn), r.block ≠ [] →
      r.block.length < BoxServer.bufferSize →
      (cfg.directory.length ≤ 1026 →
        (Inside cwd cfg.directory (BoxServer.receiveHello cfg r s).clientDir ↔
          Confined cwd cfg.directory ((cstr r.block).take (1026-cfg.directory.length)))) ∧
      (1026 < cfg.directory.length →
        (BoxServer.receiveHello cfg r s).clientDir = cfg.directory.take 1027)) ∧
    (∀ (r : BoxServer.Recv) (s : BoxServer.Conn) (op name p : Bytes),
      BoxServer.tokens (cstr r.block) = (some op, some name) →
      TouchesAt (BoxServer.receiveCommand r) s p →
      (op = ascii "upload" ∨ op = ascii "update" → p ≠ name) →
      p = logPath s ∧ Inside cwd s.clientDir p ∨
        p = joinPath s.clientDir name ∧
          (Inside cwd s.clientDir p ↔ Confined cwd s.clientDir name)) := by
  refine ⟨?_, ?_, ?_⟩
  · intro cfg openOk block p h
    obtain ⟨args, hargs, rfl⟩ := touched_path p cfg openOk _ h
    exact ⟨args, hargs, inside_joinPath cwd _ _⟩
  · intro cfg r s hne hlen
    rw [hello_clientDir cfg r s hne hlen]
    obtain ⟨hshort, hlong⟩ := snprintf_joinPath cfg.directory (cstr r.block)
    refine ⟨fun h => ?_, hlong⟩
    rw [hshort h]
    exact inside_joinPath cwd _ _
  · intro r s op name p htokens h hne
    rcases request_touched p r s op name htokens h with rfl | ⟨-, rfl⟩ | ⟨hop, rfl⟩
    · exact Or.inl ⟨rfl, inside_logPath cwd s⟩
    · exact Or.inr ⟨rfl, inside_joinPath cwd _ _⟩
    · exact absurd rfl (hne hop)

def srv : BiboServer.Config := ⟨ascii "srv", none⟩

def idle : BiboServer.State := ⟨fun _ => none, [], .loop⟩

theorem upload_touches : Touches (BiboServer.command srv true
    (BiboServer.received (ascii "upload a"))) (ascii "srv/a") := by
  refine ⟨idle, none, fun h => ?_⟩
  have hfile := congrArg (Option.map (fun s => s.files (ascii "srv/a"))) h
  exact absurd hfile (by decide)

theorem names_confined_plain : Inside [ascii "home"] (ascii "srv") (ascii "srv/a") := by
  obtain ⟨args, hargs, hiff⟩ := (names_confined [ascii "home"]).1 srv true (ascii "upload a")
    (ascii "srv/a") upload_touches
  have hname : args = ascii "a" := by
    have h : commandArgs (BiboServer.received (ascii "upload a")) = some (ascii "a") := by
      decide
    exact Option.some.inj (hargs.symm.trans h)
  rw [hname] at hiff
  exact hiff.mpr (by decide)

/-- `upload ../x` creates a file beside the served directory. -/
theorem upload_escapes :
    Touches (BiboServer.command srv true (BiboServer.received (ascii "upload ../x")))
      (ascii "srv/../x") ∧ ¬ Inside [ascii "home"] (ascii "srv") (ascii "srv/../x") := by
  refine ⟨⟨idle, none, fun h => ?_⟩, by decide⟩
  have hfile := congrArg (Option.map (fun s => s.files (ascii "srv/../x"))) h
  exact absurd hfile (by decide)

end CSE344.PathConfinement
