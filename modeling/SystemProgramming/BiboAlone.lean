import SystemProgramming.BiboThreads

/-!
# What a command does when it runs alone

`result` is what a command does to its file when nothing else runs, and the
reply of a `readF`. It is what the handler computes: a command carried out
from beginning to end has the effect of its event.
-/

set_option autoImplicit false

namespace CSE344.BiboAlone
open CString Stdio BiboServer BiboThreads

def Command.path : Command → Bytes
  | .readF path _ => path
  | .writeT w => w.path
  | .upload path => path

/-- The file after a command, and the reply of a `readF`, for a file that can be
opened for writing or cannot. -/
def result (writable : Bool) : Command → Option Bytes → Option (Option Bytes × Option Bytes)
  | .readF _ _, none => some (none, some (ascii "File not found"))
  | .readF _ line, some c => some (some c, some (readText line (fgetsAll lineSize c)))
  | .writeT w, none => if writable then some (some w.text, none) else none
  | .writeT w, some c =>
    if writable then (rewritten w.line (some w.text) c).map (fun r => (some (r.getD c), none))
    else none
  | .upload _, c => some (if writable then some [] else c, none)

section Files

variable {Loc : Type*} [DecidableEq Loc] {disk : Disk Loc}

/-- The place of the file that a command works on. -/
def Command.loc (disk : Disk Loc) (c : Command) : Loc := disk.denotes (Command.path c)

/-- What a command does to its file. -/
def resultAt (disk : Disk Loc) (c : Command) (f : Files Loc) :
    Option (Option Bytes × Option Bytes) :=
  result (disk.writable (Command.loc disk c)) c (f (Command.loc disk c))

def exec (disk : Disk Loc) (e : Event) (f : Files Loc) : Option (Files Loc) :=
  match resultAt disk e.command f with
  | none => none
  | some (c, reply) =>
    if reply = e.reply then some (Function.update f (Command.loc disk e.command) c) else none

theorem exec_of_result {c : Command} {f : Files Loc} {content reply : Option Bytes}
    (h : resultAt disk c f = some (content, reply)) :
    exec disk ⟨c, reply⟩ f = some (Function.update f (Command.loc disk c) content) := by
  simp [exec, h]

theorem exec_unchanged {c : Command} {f : Files Loc} {reply : Option Bytes}
    (h : resultAt disk c f = some (f (Command.loc disk c), reply)) :
    exec disk ⟨c, reply⟩ f = some f := by
  rw [exec_of_result h, Function.update_eq_self]

end Files

theorem stringAt_strcpy {n : ℕ} {text m buffer : Bytes} (h : strcpy n text m = some buffer) :
    stringAt buffer 0 = some (cstr text) := by
  simp only [strcpy, Option.ite_none_right_eq_some, Option.some.injEq] at h
  obtain ⟨-, rfl⟩ := h
  rw [stringAt, if_pos (by simp), cstrAt, List.drop_zero, cstr_append_zero]

theorem respond_spec {text : Bytes} {s t : BiboServer.State} (h : s.respond text = some t) :
    t.files = s.files ∧ stringAt t.response 0 = some (cstr text) := by
  obtain ⟨m, hm, rfl⟩ := Option.map_eq_some_iff.mp h
  exact ⟨rfl, stringAt_strcpy hm⟩

theorem append_spec {text reply : Bytes} {s t : BiboServer.State} (h : s.append text = some t)
    (hs : stringAt s.response 0 = some reply) :
    t.files = s.files ∧ stringAt t.response 0 = some (reply ++ cstr text) := by
  obtain ⟨m, hm, rfl⟩ := Option.map_eq_some_iff.mp h
  have hreply : cstr s.response = reply := by
    simp only [stringAt, cstrAt, List.drop_zero, Option.ite_none_right_eq_some,
      Option.some.injEq] at hs
    exact hs.2
  refine ⟨rfl, (stringAt_strcpy hm).trans ?_⟩
  rw [cstr_append (noNul_cstr _), hreply]

theorem append_lines {lines : List Bytes} {reply : Bytes} {s t : BiboServer.State}
    (h : lines.foldlM (fun s line => s.append line) s = some t)
    (hs : stringAt s.response 0 = some reply) :
    t.files = s.files ∧ stringAt t.response 0 = some (reply ++ (lines.map cstr).flatten) := by
  induction lines generalizing s reply with
  | nil =>
    obtain rfl : s = t := by simpa using h
    exact ⟨rfl, by simpa using hs⟩
  | cons line lines ih =>
    rw [List.foldlM_cons] at h
    obtain ⟨u, hu, hrest⟩ := Option.bind_eq_some_iff.mp h
    obtain ⟨hfiles, hreply⟩ := append_spec hu hs
    obtain ⟨htail, htext⟩ := ih hrest hreply
    exact ⟨htail.trans hfiles, by rw [htext]; simp⟩

theorem cstr_lines (lines : List Bytes) :
    ((lines.map cstr).map cstr).flatten = cstr (lines.map cstr).flatten := by
  have hnul : 0 ∉ (lines.map cstr).flatten := by
    intro h
    obtain ⟨l, hl, h0⟩ := List.mem_flatten.mp h
    obtain ⟨line, -, rfl⟩ := List.mem_map.mp hl
    exact noNul_cstr line h0
  rw [cstr_of_noNul hnul, List.map_map]
  congr 1
  exact List.map_congr_left (fun line _ => cstr_of_noNul (noNul_cstr line))

section Alone

variable {cfg : Config} {args text : Bytes} {s t : BiboServer.State}

theorem readF_result (writable : Bool) (h : readF cfg args s = some t) :
    t.files = s.files ∧ ∃ reply,
      result writable (.readF (filepath cfg (fields args)) (fields args).lineNum)
        (s.files (filepath cfg (fields args))) =
          some (t.files (filepath cfg (fields args)), some reply) ∧
      stringAt t.response 0 = some (cstr reply) := by
  unfold readF at h
  dsimp only at h
  cases hf : s.files (filepath cfg (fields args)) with
  | none =>
    rw [hf] at h
    obtain ⟨hfiles, hreply⟩ := respond_spec h
    exact ⟨hfiles, _, by rw [hfiles, hf]; rfl, hreply⟩
  | some c =>
    rw [hf] at h
    dsimp only at h
    suffices hs : t.files = s.files ∧ stringAt t.response 0 =
        some (cstr (readText (fields args).lineNum (fgetsAll lineSize c))) by
      exact ⟨hs.1, _, by rw [hs.1, hf]; rfl, hs.2⟩
    unfold readText
    rw [List.length_map] at h
    split_ifs at h ⊢ with hall hline
    · obtain ⟨u, hu, hlines⟩ := Option.bind_eq_some_iff.mp h
      obtain ⟨hfiles, hreply⟩ := respond_spec hu
      obtain ⟨hrest, htext⟩ := append_lines hlines hreply
      refine ⟨hrest.trans hfiles, ?_⟩
      rw [htext, cstr_lines, cstr_append (by decide), cstr_of_noNul (by decide)]
    · obtain ⟨hfiles, hreply⟩ := respond_spec h
      refine ⟨hfiles, ?_⟩
      have hline : ((fgetsAll lineSize c).map cstr).getD ((fields args).lineNum.toNat-1) [] =
          cstr ((fgetsAll lineSize c).getD ((fields args).lineNum.toNat-1) []) := by
        simp only [List.getD_eq_getElem?_getD, List.getElem?_map]
        cases (fgetsAll lineSize c)[(fields args).lineNum.toNat-1]? <;> rfl
      rw [hreply, hline]
    · exact respond_spec h

theorem writeT_result {openOk : Bool} (htext : (fields args).text = some text)
    (h : writeT cfg openOk args s = some t) : ∃ content,
      t.files = Function.update s.files (filepath cfg (fields args)) content ∧
      result openOk (.writeT ⟨filepath cfg (fields args), (fields args).lineNum, text⟩)
        (s.files (filepath cfg (fields args))) = some (content, none) := by
  have hend {u : BiboServer.State} (hu : (if u.response.head? = some 0 then
      u.respond (ascii "Write successful") else some u) = some t) : t.files = u.files := by
    split_ifs at hu
    · exact (respond_spec hu).1
    · cases hu
      rfl
  unfold writeT guard at h
  cases openOk with
  | false => cases h
  | true =>
  rw [if_pos rfl] at h
  simp only [Option.pure_def, Option.bind_eq_bind, Option.bind_some] at h
  cases hf : s.files (filepath cfg (fields args)) with
  | none =>
    rw [hf, htext] at h
    exact ⟨_, hend h, rfl⟩
  | some c =>
    rw [hf, htext] at h
    dsimp only at h
    cases hr : rewritten (fields args).lineNum (some text) c with
    | none =>
      rw [hr] at h
      cases h
    | some r =>
      rw [hr] at h
      have hresult : result true
          (.writeT ⟨filepath cfg (fields args), (fields args).lineNum, text⟩) (some c) =
            some (some (r.getD c), none) := by rw [result, if_pos rfl, hr]; rfl
      refine ⟨_, ?_, hresult⟩
      cases r with
      | none =>
        obtain ⟨u, hu, hrest⟩ := Option.bind_eq_some_iff.mp h
        rw [hend hrest, (respond_spec hu).1, Option.getD_none, ← hf, Function.update_eq_self]
      | some d => exact hend h

theorem upload_result {openOk : Bool} (h : upload cfg openOk args s = some t) : ∃ content,
    t.files = Function.update s.files (filepath cfg (fields args)) content ∧
    result openOk (.upload (filepath cfg (fields args))) (s.files (filepath cfg (fields args))) =
      some (content, none) := by
  unfold upload at h
  cases openOk with
  | false =>
    refine ⟨_, ?_, rfl⟩
    rw [(respond_spec h).1]
    exact (Function.update_eq_self _ _).symm
  | true => exact ⟨_, (respond_spec h).1, rfl⟩

section Disk

variable {Loc : Type*} [DecidableEq Loc] {disk : Disk Loc} {f : Files Loc}

/-- On the disk the handlers do what their commands do, whatever the path of the
file is called. -/
theorem readF_alone (hfile : s.files (filepath cfg (fields args)) =
    f (disk.denotes (filepath cfg (fields args)))) (h : readF cfg args s = some t) :
    ∃ reply, exec disk
        ⟨.readF (filepath cfg (fields args)) (fields args).lineNum, some reply⟩ f = some f ∧
      stringAt t.response 0 = some (cstr reply) := by
  obtain ⟨hsame, reply, hresult, hreply⟩ := readF_result _ h
  refine ⟨reply, exec_unchanged ?_, hreply⟩
  rw [hsame, hfile] at hresult
  exact hresult

theorem writeT_alone (hfile : s.files (filepath cfg (fields args)) =
    f (disk.denotes (filepath cfg (fields args)))) (htext : (fields args).text = some text)
    (h : writeT cfg (disk.writable (disk.denotes (filepath cfg (fields args)))) args s = some t) :
    exec disk ⟨.writeT ⟨filepath cfg (fields args), (fields args).lineNum, text⟩, none⟩ f =
      some (Function.update f (disk.denotes (filepath cfg (fields args)))
        (t.files (filepath cfg (fields args)))) := by
  obtain ⟨content, hfiles, hresult⟩ := writeT_result htext h
  rw [hfiles, Function.update_self]
  rw [hfile] at hresult
  exact exec_of_result hresult

theorem upload_alone (hfile : s.files (filepath cfg (fields args)) =
    f (disk.denotes (filepath cfg (fields args))))
    (h : upload cfg (disk.writable (disk.denotes (filepath cfg (fields args)))) args s = some t) :
    exec disk ⟨.upload (filepath cfg (fields args)), none⟩ f =
      some (Function.update f (disk.denotes (filepath cfg (fields args)))
        (t.files (filepath cfg (fields args)))) := by
  obtain ⟨content, hfiles, hresult⟩ := upload_result h
  rw [hfiles, Function.update_self]
  rw [hfile] at hresult
  exact exec_of_result hresult

end Disk

end Alone

end CSE344.BiboAlone
