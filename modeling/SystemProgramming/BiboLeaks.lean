import SystemProgramming.BiboBounds
import SystemProgramming.TransitionRun

/-!
# What a reply keeps of the replies before it

The array `response` is never cleared. Every branch stores a new string in it
before it is sent, but for a `writeT` that succeeds: it answers only if the
string there is empty, and sends again what is there otherwise.
-/

set_option autoImplicit false

namespace CSE344.BiboLeaks
open CString Stdio BiboServer BiboCommands BiboAlone TransitionRun

/-- What the client sends and what the directory and `fopen` return for it. -/
structure Turn where
  readDir : Option (List Bytes)
  openOk : Bool
  block : Bytes

/-- The string in the array, which is what is sent. -/
def sent (s : State) : Option Bytes := stringAt s.response 0

def answer (dirname : Bytes) (a : Turn) (s : State) : Option Bytes :=
  (handle ⟨dirname, a.readDir⟩ a.openOk a.block s).map Prod.snd

/-- One turn of the loop of `handle_client`. -/
def turn (dirname : Bytes) (a : Turn) (s : State) : Option State :=
  if s.next = .loop then (handle ⟨dirname, a.readDir⟩ a.openOk a.block s).map Prod.fst else none

def writeSuccessful : Bytes := ascii "Write successful"

/-- `writeT` gets to write its text. -/
def Stores (cfg : Config) (openOk : Bool) (args : Bytes) (s : State) : Prop :=
  openOk = true ∧
    match s.files (filepath cfg (fields args)) with
    | none => (fields args).text.isSome = true
    | some content =>
      ∃ d, rewritten (fields args).lineNum (fields args).text content = some (some d)

/-- The turn is a `writeT` that succeeds. -/
def Succeeds (dirname : Bytes) (a : Turn) (s : State) : Prop :=
  strncmpEq "writeT" (received a.block) = true ∧
    ∃ args, stringAt (received a.block) 7 = some args ∧
      Stores ⟨dirname, a.readDir⟩ a.openOk args s

/-- The string left in the array is empty or the answer that is wanted. -/
def Quiet (s : State) : Prop := sent s = some [] ∨ sent s = some writeSuccessful

/-- The answer does not depend on the history, and is the right one to a write. -/
def Tight (dirname : Bytes) (a : Turn) (s t : State) : Prop :=
  answer dirname a s = answer dirname a t ∧
    (Succeeds dirname a s → answer dirname a s = some writeSuccessful)

section Replies

variable {cfg : Config} {openOk : Bool} {text reply buffer args : Bytes} {s t : State}

theorem handle_answer (block : Bytes) : (handle cfg openOk block s).map Prod.snd =
    (command cfg openOk (received block) s).bind sent := by
  rw [handle]
  cases command cfg openOk (received block) s with
  | none => rfl
  | some t =>
    show ((sent t).map (fun reply => (t, reply))).map Prod.snd = sent t
    cases sent t <;> rfl

theorem sent_respond : (s.respond text).bind sent =
    if text.length < bufferSize then some (cstr text) else none := by
  split_ifs with h
  · obtain ⟨t, ht, hreply⟩ := BiboLines.respond_some h s
    rw [ht]
    exact hreply
  · rw [State.respond, strcpy, if_neg h]
    rfl

theorem sent_append (text : Bytes) (hs : sent s = some reply) :
    s.append text = none ∧ bufferSize ≤ reply.length+text.length ∨
      ∃ t, s.append text = some t ∧ sent t = some (reply ++ cstr text) ∧
        reply.length+text.length < bufferSize := by
  by_cases h : reply.length+text.length < bufferSize
  · obtain ⟨t, ht⟩ : ∃ t, s.append text = some t := by
      rw [State.append, strcat, BiboBounds.cstr_response hs, strcpy,
        if_pos (by rwa [List.length_append])]
      exact ⟨_, rfl⟩
    exact Or.inr ⟨t, ht, (append_spec ht hs).2, h⟩
  · apply Or.inl
    refine ⟨?_, by omega⟩
    rw [State.append, strcat, BiboBounds.cstr_response hs, strcpy,
      if_neg (by rwa [List.length_append])]
    rfl

theorem sent_appends (texts : List Bytes) (hs : sent s = some reply) (ht : sent t = some reply) :
    (texts.foldlM (fun (s : State) l => s.append l) s).bind sent =
      (texts.foldlM (fun (s : State) l => s.append l) t).bind sent := by
  induction texts generalizing s t reply with
  | nil => exact hs.trans ht.symm
  | cons l ls ih =>
    rw [List.foldlM_cons, List.foldlM_cons, Option.bind_eq_bind]
    rcases sent_append l hs with ⟨hnone, hlong⟩ | ⟨u, hu, hsent, hshort⟩
    · rcases sent_append l ht with ⟨hnone', -⟩ | ⟨v, -, -, hshort'⟩
      · rw [hnone, hnone']
      · omega
    · rcases sent_append l ht with ⟨-, hlong'⟩ | ⟨v, hv, hsent', -⟩
      · omega
      · rw [hu, hv]
        exact ih hsent hsent'

theorem sent_header (header : Bytes) (texts : List Bytes) (s t : State) :
    ((s.respond header).bind (fun s => texts.foldlM (fun s l => s.append l) s)).bind sent =
      ((t.respond header).bind (fun s => texts.foldlM (fun s l => s.append l) s)).bind sent := by
  have hsame : (s.respond header).bind sent = (t.respond header).bind sent := by
    rw [sent_respond, sent_respond]
  cases hs : s.respond header with
  | none =>
    cases ht : t.respond header with
    | none => rfl
    | some v =>
      rw [hs, ht] at hsame
      exact absurd ((respond_spec ht).2.symm.trans hsame.symm) (Option.some_ne_none _)
  | some u =>
    cases ht : t.respond header with
    | none =>
      rw [hs, ht] at hsame
      exact absurd ((respond_spec hs).2.symm.trans hsame) (Option.some_ne_none _)
    | some v => exact sent_appends texts (respond_spec hs).2 (respond_spec ht).2

theorem sent_next (o : Option State) (next : Next) :
    (o.map (fun s => { s with next := next })).bind sent = o.bind sent := by
  cases o <;> rfl

theorem sent_ite {c : Prop} [Decidable c] {o o' p p' : Option State}
    (h : o.bind sent = o'.bind sent) (h' : p.bind sent = p'.bind sent) :
    (if c then o else p).bind sent = (if c then o' else p').bind sent := by
  split_ifs
  · exact h
  · exact h'

theorem sent_args {buffer : Bytes} {n : ℕ} {f f' : Bytes → Option State}
    (h : ∀ args, (f args).bind sent = (f' args).bind sent) :
    ((stringAt buffer n).bind f).bind sent = ((stringAt buffer n).bind f').bind sent := by
  cases stringAt buffer n with
  | none => rfl
  | some args => exact h args

theorem sent_head : sent s = some [] ↔ s.response.head? = some 0 := by
  rw [sent, stringAt, cstrAt, List.drop_zero]
  cases s.response with
  | nil => simp
  | cons b m =>
    by_cases hb : b = 0
    · subst hb
      simp [cstr]
    · simp [cstr, hb]

theorem sent_readF (hfiles : s.files = t.files) :
    (readF cfg args s).bind sent = (readF cfg args t).bind sent := by
  unfold readF
  dsimp only
  rw [hfiles]
  cases hc : t.files (filepath cfg (fields args)) with
  | none => exact sent_respond.trans sent_respond.symm
  | some content =>
    dsimp only
    split_ifs
    · exact sent_header _ _ s t
    · exact sent_respond.trans sent_respond.symm
    · exact sent_respond.trans sent_respond.symm

theorem sent_list : (list cfg s).bind sent = (list cfg t).bind sent := by
  unfold list
  cases hdir : cfg.readDir with
  | none => exact sent_respond.trans sent_respond.symm
  | some names =>
    simp only [BiboBounds.list_loop]
    exact sent_header _ _ s t

theorem sent_download (hfiles : s.files = t.files) :
    (download cfg args s).bind sent = (download cfg args t).bind sent := by
  unfold download
  rw [hfiles]
  cases hc : t.files (filepath cfg (fields args)) <;> exact sent_respond.trans sent_respond.symm

theorem sent_upload :
    (upload cfg openOk args s).bind sent = (upload cfg openOk args t).bind sent := by
  unfold upload
  dsimp only
  split_ifs <;> exact sent_respond.trans sent_respond.symm

end Replies

section Writes

variable {cfg : Config} {openOk : Bool} {args : Bytes} {s t : State}

/-- What `writeT` does before it looks at the array. -/
def stored (cfg : Config) (args : Bytes) (s : State) : Option State :=
  match s.files (filepath cfg (fields args)) with
  | none => (fields args).text.map (fun text => s.put (filepath cfg (fields args)) text)
  | some content =>
    match rewritten (fields args).lineNum (fields args).text content with
    | none => none
    | some none => s.respond (notFound (fields args).lineNum)
    | some (some content) => some (s.put (filepath cfg (fields args)) content)

/-- The end of `writeT`. -/
def confirm (s : State) : Option State :=
  if s.response.head? = some 0 then s.respond writeSuccessful else some s

theorem writeT_eq : writeT cfg openOk args s =
    if openOk = true then (stored cfg args s).bind confirm else none := by
  unfold writeT stored guard
  dsimp only
  split_ifs
  · cases s.files (filepath cfg (fields args)) with
    | none => rfl
    | some content =>
      dsimp only
      cases rewritten (fields args).lineNum (fields args).text content with
      | none => rfl
      | some r => cases r <;> rfl
  · rfl

theorem sent_confirm : (confirm s).bind sent =
    if sent s = some [] then some writeSuccessful else sent s := by
  rw [confirm, if_congr sent_head rfl rfl]
  split_ifs
  · rw [sent_respond]
    decide
  · rfl

theorem sent_stored (h : Stores cfg openOk args s) : (writeT cfg openOk args s).bind sent =
    if sent s = some [] then some writeSuccessful else sent s := by
  obtain ⟨hok, h⟩ := h
  obtain ⟨files, hstored⟩ : ∃ files, stored cfg args s = some { s with files := files } := by
    unfold stored
    cases hfile : s.files (filepath cfg (fields args)) with
    | none =>
      rw [hfile] at h
      obtain ⟨text, htext⟩ := Option.isSome_iff_exists.mp h
      rw [htext]
      exact ⟨_, rfl⟩
    | some content =>
      rw [hfile] at h
      obtain ⟨d, hd⟩ := h
      simp only [hd]
      exact ⟨_, rfl⟩
  rw [writeT_eq, if_pos hok, hstored]
  exact sent_confirm (s := { s with files := files })

theorem sent_missing (line : ℤ) :
    ((s.respond (notFound line)).bind confirm).bind sent =
      (s.respond (notFound line)).bind sent := by
  cases h : s.respond (notFound line) with
  | none => rfl
  | some u =>
    have hsent : sent u = some (cstr (notFound line)) := (respond_spec h).2
    have hline : cstr (notFound line) ≠ [] := by
      have hfirst : notFound line = 76 :: (ascii "ine " ++ ascii (toString line) ++
        ascii " not found") := by
        simp [notFound, ascii]
      rw [hfirst]
      exact List.cons_ne_nil _ _
    show (confirm u).bind sent = sent u
    rw [sent_confirm, if_neg]
    rw [hsent, Option.some.injEq]
    exact hline

theorem sent_failed (hfiles : s.files = t.files) (h : ¬ Stores cfg openOk args s) :
    (writeT cfg openOk args s).bind sent = (writeT cfg openOk args t).bind sent := by
  rw [writeT_eq, writeT_eq]
  split_ifs with hok
  · rw [Stores, hok, hfiles] at h
    simp only [true_and] at h
    unfold stored
    rw [hfiles]
    cases hfile : t.files (filepath cfg (fields args)) with
    | none =>
      rw [hfile] at h
      dsimp only at h ⊢
      rw [Option.not_isSome_iff_eq_none.mp h]
      rfl
    | some content =>
      rw [hfile] at h
      dsimp only at h ⊢
      cases hnew : rewritten (fields args).lineNum (fields args).text content with
      | none => rfl
      | some r =>
        cases r with
        | some d => exact absurd ⟨d, hnew⟩ h
        | none =>
          dsimp only
          rw [sent_missing, sent_missing, sent_respond, sent_respond]
  · rfl

end Writes

section Histories

variable {dirname : Bytes} {a : Turn} {s t : State}

/-- A turn that is no successful `writeT` answers by the files alone. -/
theorem answer_failed (hfiles : s.files = t.files) (h : ¬ Succeeds dirname a s) :
    answer dirname a s = answer dirname a t := by
  rw [answer, answer, handle_answer, handle_answer]
  by_cases hkey : strncmpEq "writeT" (received a.block) = true
  · rw [command_writeT hkey, command_writeT hkey]
    cases hargs : stringAt (received a.block) 7 with
    | none => rfl
    | some args => exact sent_failed hfiles (fun hstores => h ⟨hkey, args, hargs, hstores⟩)
  · have hplain (text : Bytes) : (s.respond text).bind sent = (t.respond text).bind sent :=
      sent_respond.trans sent_respond.symm
    have hlast (text : Bytes) (next : Next) :
        ((s.respond text).map (fun s => { s with next := next })).bind sent =
          ((t.respond text).map (fun s => { s with next := next })).bind sent := by
      rw [sent_next, sent_next]
      exact hplain text
    unfold command
    refine sent_ite (hplain _) (sent_ite sent_list
      (sent_ite (sent_args (fun _ => sent_readF hfiles)) ?_))
    rw [if_neg hkey, if_neg hkey]
    refine sent_ite (sent_args (fun _ => sent_upload)) (sent_ite
      (sent_args (fun _ => sent_download hfiles)) ?_)
    exact sent_ite (hlast _ _) (sent_ite (hlast _ _) (hplain _))

theorem answer_stored (h : Succeeds dirname a s) :
    answer dirname a s = if sent s = some [] then some writeSuccessful else sent s := by
  obtain ⟨hkey, args, hargs, hstores⟩ := h
  rw [answer, handle_answer, command_writeT hkey, hargs, Option.bind_some]
  exact sent_stored hstores

theorem answer_right_iff (h : Succeeds dirname a s) :
    answer dirname a s = some writeSuccessful ↔ Quiet s := by
  rw [answer_stored h, Quiet]
  split_ifs with hempty
  · exact iff_of_true rfl (Or.inl hempty)
  · simp only [hempty, false_or]

theorem Succeeds.congr (hfiles : s.files = t.files) (h : Succeeds dirname a s) :
    Succeeds dirname a t := by
  obtain ⟨hkey, args, hargs, hok, hstores⟩ := h
  rw [hfiles] at hstores
  exact ⟨hkey, args, hargs, hok, hstores⟩

/-- Two histories that leave the same files are told apart by the next answer
just where a `writeT` succeeds and one of them has left a text in the array. -/
theorem tight_iff (dirname : Bytes) (as bs : List Turn) (s₀ t₀ s t : State) (a : Turn) :
    run (turn dirname) as s₀ = some s → run (turn dirname) bs t₀ = some t → s.files = t.files →
      (Tight dirname a s t ↔ (Succeeds dirname a s → Quiet s ∧ Quiet t)) := by
  intro _ _ hfiles
  by_cases h : Succeeds dirname a s
  · have hs' := answer_right_iff h
    have ht' := answer_right_iff (h.congr hfiles)
    simp only [Tight, h, forall_const]
    rw [← hs', ← ht']
    constructor
    · rintro ⟨heq, hright⟩
      exact ⟨hright, heq.symm.trans hright⟩
    · rintro ⟨hright, hright'⟩
      exact ⟨hright.trans hright'.symm, hright⟩
  · simp only [Tight, h, false_implies, and_true, iff_true]
    exact answer_failed hfiles h

end Histories

def helpTurn : Turn := ⟨none, true, ascii "help"⟩

def appendTurn : Turn := ⟨none, true, ascii "writeT f 0 x"⟩

def helpText : Bytes :=
  ascii "Available commands are: list, readF, writeT, upload, download, quit, killServer"

def helped : State := { BiboLines.holding with response := helpText ++ [0] }

theorem run_helped : run (turn (ascii "srv")) [helpTurn] BiboLines.holding = some helped := rfl

/-- A `help` after a `help` or after nothing answers the same. -/
theorem tight_iff_help : Tight (ascii "srv") helpTurn BiboLines.holding helped :=
  (tight_iff (ascii "srv") [] [helpTurn] BiboLines.holding BiboLines.holding BiboLines.holding
    helped helpTurn rfl run_helped rfl).mpr (by
      rintro ⟨hkey, -⟩
      exact absurd hkey (by decide))

/-- After a `help` a `writeT` is answered with the commands. -/
theorem help_repeated :
    run (turn (ascii "srv")) [] BiboLines.holding = some BiboLines.holding ∧
    run (turn (ascii "srv")) [helpTurn] BiboLines.holding = some helped ∧
    BiboLines.holding.files = helped.files ∧ Succeeds (ascii "srv") appendTurn helped ∧
    answer (ascii "srv") appendTurn BiboLines.holding = some writeSuccessful ∧
    answer (ascii "srv") appendTurn helped = some helpText := by
  refine ⟨rfl, run_helped, rfl, ?_, by decide, by decide⟩
  exact ⟨by decide, ascii "f 0 x", by decide, rfl, _, rfl⟩

end CSE344.BiboLeaks
