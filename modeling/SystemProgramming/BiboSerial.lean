import SystemProgramming.BiboInvariant

/-!
# Commands one at a time

Threads that keep out of each other's way do what the commands do alone, in
some order: a `readF` takes effect at its last line, a `writeT` when its last
piece has reached the file, an `upload` when it truncates.
-/

set_option autoImplicit false

namespace CSE344.BiboSerial
open CString Stdio BiboServer BiboThreads BiboAlone BiboInvariant SerialOrder TransitionRun

theorem readText_line {line : ℤ} {lines rest : List Bytes} {l : Bytes}
    (h : ((lines.length+1 : ℕ) : ℤ) = line) :
    readText line ((lines ++ [l]) ++ rest) = cstr l := by
  have hne : line ≠ 0 := by omega
  have hin : 1 ≤ line ∧ line ≤ ((lines ++ [l]) ++ rest).length := by
    simp only [List.length_append, List.length_cons, List.length_nil]
    omega
  have hidx : line.toNat-1 = lines.length := by omega
  rw [readText, if_neg hne, if_pos hin, hidx]
  simp

theorem resultAt_rewritten {Loc : Type*} {disk : Disk Loc} {abs : Files Loc} {w : Write}
    {c : Bytes} {r : Option Bytes}
    (hw : disk.writable (disk.denotes w.path) = true) (hc : abs (disk.denotes w.path) = some c)
    (hr : rewritten w.line (some w.text) c = some r) :
    resultAt disk (.writeT w) abs = some (some (r.getD c), none) := by
  rw [resultAt, Command.loc, Command.path, hc, hw, result, if_pos rfl, hr]
  rfl

section Calls

variable {Loc : Type*} [DecidableEq Loc] {disk : Disk Loc} {n : ℕ} {f₀ abs : Files Loc}
variable {s : State Loc n}

theorem readOpen_inv (h : Explained disk f₀ s abs) (i : Fin n) (path : Bytes) (line : ℤ)
    {r : Files Loc × Pc} (hpc : (s.threads i).pc = .readOpen path line)
    (hr : call disk 0 s.files (.readOpen path line) = some r) :
    Explained disk f₀ ({ s with files := r.1 }.setPc i r.2) abs := by
  simp only [call] at hr
  split at hr <;> cases hr
  · next hnone =>
    refine h.settle i ⟨.readF path line, some (ascii "File not found")⟩ hpc rfl rfl
      (exec_unchanged ?_) trivial (fun _ => id) (fun hh => hh.elim)
    rw [resultAt, Command.loc, Command.path, h.missing hnone]
    rfl
  · next c hc =>
    refine h.move i hpc rfl ⟨⟨c, hc, Scan.start _ _⟩, ?_⟩ (fun _ => id) (fun hh => hh.elim)
    simp only [List.length_nil]
    omega

theorem readLine_inv (h : Explained disk f₀ s abs) (i : Fin n) (path : Bytes) (line : ℤ) (pos : ℕ)
    (lines : List Bytes) (content : Bytes)
    (hpc : (s.threads i).pc = .reading path line pos lines)
    (hc : s.files (disk.denotes path) = some content)
    (hfree : ∀ j, ¬ Cut disk (disk.denotes path) (s.threads j).pc) :
    Explained disk f₀ (s.setPc i (readLine path line pos lines content)) abs := by
  have hok := h.ok i
  rw [hpc] at hok
  obtain ⟨⟨c, hc', hscan⟩, hline⟩ := hok
  obtain rfl : content = c := Option.some.inj (hc.symm.trans hc')
  have habs : abs (disk.denotes path) = some content := (h.agree _ hfree).symm.trans hc
  have hread (reply : Bytes) (hr : reply = readText line (fgetsAll lineSize content)) :
      Explained disk f₀ (s.setPc i (.readClose path line reply)) abs := by
    refine h.settle i ⟨.readF path line, some reply⟩ hpc rfl rfl (exec_unchanged ?_) trivial
      (fun _ => id) (fun hh => hh.elim)
    rw [resultAt, Command.loc, Command.path, habs, hr]
    rfl
  unfold readLine
  split
  · next hend => exact hread _ (by rw [hscan.done hend])
  · next l rest hf =>
    have hnext := hscan.next (by decide) hf
    split_ifs with hlast
    · exact hread _ (by rw [hnext.2, readText_line hlast])
    · refine h.move i hpc rfl ⟨⟨content, hc, hnext⟩, ?_⟩ (fun _ => id) (fun hh => hh.elim)
      simp only [List.length_append, List.length_cons, List.length_nil]
      omega

theorem rewritten_append {w : Write} (h : w.line = 0) (content : Bytes) :
    rewritten w.line (some w.text) content = some (some (content ++ w.text)) := by
  rw [rewritten, if_pos h]
  rfl

theorem settle_unwritten (h : Explained disk f₀ s abs) (i : Fin n) (w : Write) {old : Pc}
    {content : Bytes} (hpc : (s.threads i).pc = old) (hpend : pending old = [])
    (hcut : ∀ l, ¬ Cut disk l old) (hh : Holds old)
    (habs : abs (disk.denotes w.path) = some content)
    (hres : resultAt disk (.writeT w) abs = some (some content, none)) :
    Explained disk f₀ (s.setPc i (.writeClose w)) abs := by
  refine h.settle i ⟨.writeT w, none⟩ hpc hpend rfl (exec_unchanged ?_) trivial hcut (fun _ => hh)
  rw [hres, Command.loc, Command.path, habs]

theorem scanLine_inv (h : Explained disk f₀ s abs) (i : Fin n) (w : Write) (pos : ℕ)
    (lines : List Bytes) (content : Bytes) {pc : Pc}
    (hpc : (s.threads i).pc = .scanning w pos lines)
    (hc : s.files (disk.denotes w.path) = some content)
    (hs : scanLine w pos lines content = some pc) : Explained disk f₀ (s.setPc i pc) abs := by
  have hok := h.ok i
  rw [hpc] at hok
  obtain ⟨⟨c, hc', hscan⟩, hline, hw⟩ := hok
  obtain rfl : content = c := Option.some.inj (hc.symm.trans hc')
  have habs := h.content hpc trivial (fun _ => id) hc
  unfold scanLine at hs
  split at hs
  · next hend =>
    obtain ⟨r, hr, rfl⟩ := Option.map_eq_some_iff.mp hs
    have hrew : rewritten w.line (some w.text) content = some (r.map List.flatten) := by
      rw [rewritten, if_neg hline, hscan.done hend, hr]
      rfl
    cases r with
    | none =>
      exact settle_unwritten h i w hpc rfl (fun _ => id) trivial habs
        (resultAt_rewritten hw habs hrew)
    | some new => exact h.move i hpc rfl ⟨content, hc, hrew⟩ (fun _ => id) (fun _ => trivial)
  · next l rest hf =>
    obtain ⟨-, rfl⟩ := guarded_iff.mp hs
    exact h.move i hpc rfl ⟨⟨content, hc, hscan.next (by decide) hf⟩, hline, hw⟩ (fun _ => id)
      (fun _ => trivial)

theorem opening_inv (h : Explained disk f₀ s abs) (i : Fin n) (w : Write) {r : Files Loc × Pc}
    (hpc : (s.threads i).pc = .opening w) (hr : call disk 0 s.files (.opening w) = some r) :
    Explained disk f₀ ({ s with files := r.1 }.setPc i r.2) abs := by
  simp only [call] at hr
  split at hr <;> cases hr
  · next hnone => exact h.move i hpc rfl hnone (fun _ => id) (fun _ => trivial)
  · next c hc => exact h.move i hpc rfl (by simp [Ok, hc]) (fun _ => id) (fun _ => trivial)

/-- The `fopen` that creates or truncates; `out` is what will be written. -/
theorem create_inv (h : Explained disk f₀ s abs) (i : Fin n) (w : Write) (out : Bytes) {old : Pc}
    {r : Files Loc × Pc} (hpc : (s.threads i).pc = old) (hpend : pending old = [])
    (hi : Holds old) (hcut : ∀ l, ¬ Cut disk l old)
    (hread : ∀ j, ¬ MidRead disk (disk.denotes w.path) (s.threads j).pc)
    (hres : disk.writable (disk.denotes w.path) = true →
      resultAt disk (.writeT w) abs = some (some out, none))
    (hr : create disk s.files w out = some r) :
    ∃ abs', Explained disk f₀ ({ s with files := r.1 }.setPc i r.2) abs' := by
  obtain ⟨hw, rfl⟩ := guarded_iff.mp hr
  exact h.flushed i w 0 out [] hpc hpend hi hread (fun _ _ => hcut _) rfl (hres hw)

theorem reopening_inv (h : Explained disk f₀ s abs) (i : Fin n) (w : Write) {r : Files Loc × Pc}
    (hpc : (s.threads i).pc = .reopening w) (hr : call disk 0 s.files (.reopening w) = some r) :
    Explained disk f₀ ({ s with files := r.1 }.setPc i r.2) abs := by
  have hok := h.ok i
  rw [hpc] at hok
  obtain ⟨hw, rfl⟩ := guarded_iff.mp hr
  obtain ⟨c, hc⟩ := Option.ne_none_iff_exists'.mp hok
  dsimp only
  split_ifs with hline
  · exact h.move i hpc rfl ⟨hok, hline, hw⟩ (fun _ => id) (fun _ => trivial)
  · exact h.move i hpc rfl ⟨⟨c, hc, Scan.start _ _⟩, hline, hw⟩ (fun _ => id) (fun _ => trivial)

theorem seeking_inv (h : Explained disk f₀ s abs) (i : Fin n) (w : Write) {r : Files Loc × Pc}
    (hpc : (s.threads i).pc = .seeking w) (hr : call disk 0 s.files (.seeking w) = some r) :
    Explained disk f₀ ({ s with files := r.1 }.setPc i r.2) abs := by
  have hok := h.ok i
  rw [hpc] at hok
  obtain ⟨-, hline, hw⟩ := hok
  obtain ⟨c, hc, rfl⟩ := Option.map_eq_some_iff.mp hr
  have habs := h.content hpc trivial (fun _ => id) hc
  dsimp only
  split_ifs with htext
  · -- an empty text: nothing will be flushed, so the command is settled here
    have hres := resultAt_rewritten hw habs (rewritten_append hline c)
    rw [htext, List.append_nil] at hres
    exact settle_unwritten h i w hpc rfl (fun _ => id) trivial habs hres
  · exact h.move i hpc rfl ⟨⟨c, hc, rfl⟩, hline, hw⟩ (fun _ => id) (fun _ => trivial)

theorem uploadOpen_inv (h : Explained disk f₀ s abs) (i : Fin n) (path : Bytes)
    {r : Files Loc × Pc} (hpc : (s.threads i).pc = .uploadOpen path)
    (hg : disk.writable (disk.denotes path) = true →
      ∀ j, ¬ MidRead disk (disk.denotes path) (s.threads j).pc ∧
        ¬ Relies disk (disk.denotes path) (s.threads j).pc)
    (hr : call disk 0 s.files (.uploadOpen path) = some r) :
    ∃ abs', Explained disk f₀ ({ s with files := r.1 }.setPc i r.2) abs' := by
  simp only [call] at hr
  split_ifs at hr with hw <;> cases hr
  · have hres : resultAt disk (.upload path) abs = some (some [], none) := by
      rw [resultAt, Command.loc, Command.path, hw]
      rfl
    refine ⟨_, h.write i _ (disk.denotes path) [] (.inr ⟨⟨.upload path, none⟩, ?_,
      exec_of_result hres, rfl⟩) (fun j _ => hg hw j) trivial
      (fun l _ => by rw [hpc]; exact id) (fun hh => hh.elim)⟩
    rw [log_at hpc]
    exact congrArg (· ++ _) (List.append_nil _).symm
  · refine ⟨abs, h.settle i ⟨.upload path, none⟩ hpc rfl rfl (exec_unchanged ?_) trivial
      (fun _ => id) (fun hh => hh.elim)⟩
    rw [Bool.not_eq_true] at hw
    rw [resultAt, Command.loc, Command.path, hw]
    rfl

/-- The calls on files keep the invariant when they disturb nothing. -/
theorem call_inv (h : Explained disk f₀ s abs) (a : Act n) {r : Files Loc × Pc}
    (hg : Undisturbed disk a s)
    (hr : call disk a.chunk s.files (s.threads a.thread).pc = some r) :
    ∃ abs', Explained disk f₀ ({ s with files := r.1 }.setPc a.thread r.2) abs' := by
  obtain ⟨i, k⟩ := a
  have hok := h.ok i
  simp only [Undisturbed] at hg hr
  cases hpc : (s.threads i).pc <;> rw [hpc] at hok hg hr
  case readOpen path line => exact ⟨abs, readOpen_inv h i path line hpc hr⟩
  case reading path line pos lines =>
    obtain ⟨content, hc, rfl⟩ := Option.map_eq_some_iff.mp hr
    exact ⟨abs, readLine_inv h i path line pos lines content hpc hc hg⟩
  case opening w => exact ⟨abs, opening_inv h i w hpc hr⟩
  case creating w =>
    have habs := h.whole hpc trivial (fun _ => id) (disk.denotes w.path)
    refine create_inv h i w w.text hpc rfl trivial (fun _ => id) hg (fun hw => ?_) hr
    rw [resultAt, Command.loc, Command.path, ← habs, hok, hw]
    rfl
  case firstClose w =>
    cases hr
    exact ⟨abs, h.move i hpc rfl hok (fun _ => id) (fun _ => trivial)⟩
  case reopening w => exact ⟨abs, reopening_inv h i w hpc hr⟩
  case seeking w => exact ⟨abs, seeking_inv h i w hpc hr⟩
  case appending w pos =>
    obtain ⟨⟨c, hc, hpos⟩, hline, hw⟩ := hok
    have habs := h.content hpc trivial (fun _ => id) hc
    exact h.flush i k w pos w.text c hpc rfl trivial hg (fun _ _ => id) hc hpos
      (resultAt_rewritten hw habs (rewritten_append hline c)) hr
  case scanning w pos lines =>
    obtain ⟨content, hc, hs⟩ := Option.bind_eq_some_iff.mp hr
    obtain ⟨pc, hscan, rfl⟩ := Option.map_eq_some_iff.mp hs
    exact ⟨abs, scanLine_inv h i w pos lines content hpc hc hscan⟩
  case scanClose w out =>
    cases hr
    exact ⟨abs, h.move i hpc rfl hok (fun _ => id) (fun _ => trivial)⟩
  case truncating w out =>
    obtain ⟨c, hc, hrew⟩ := hok
    have habs := h.content hpc trivial (fun _ => id) hc
    exact create_inv h i w out hpc rfl trivial (fun _ => id) hg
      (fun hw => resultAt_rewritten hw habs hrew) hr
  case flushing w pos out =>
    obtain ⟨-, d, hd, hpos, hres⟩ := hok
    exact h.flush i k w pos out d hpc rfl trivial hg (fun l hl => Ne.symm hl) hd hpos hres hr
  case writeClose w =>
    cases hr
    exact ⟨abs, h.move i hpc rfl trivial (fun _ => id) (fun _ => trivial)⟩
  case uploadOpen path => exact uploadOpen_inv h i path hpc hg hr
  all_goals cases hr

end Calls

section Runs

variable {Loc : Type*} [DecidableEq Loc] {disk : Disk Loc} {n : ℕ}

theorem step_inv {f₀ abs : Files Loc} {s t : State Loc n} (h : Explained disk f₀ s abs) (a : Act n)
    (hg : Undisturbed disk a s) (hstep : step disk a s = some t) :
    ∃ abs', Explained disk f₀ t abs' := by
  have hm : ∀ j, j ≠ a.thread → Holds (s.threads j).pc → s.mutex = some j := fun j _ => h.holds j
  have finish (m : Option (Fin n)) (hcut : ∀ l, ¬ Cut disk l (s.threads a.thread).pc)
      (hother : ∀ j, j ≠ a.thread → Holds (s.threads j).pc → m = some j) :
      Explained disk f₀ { s.finish a.thread with mutex := m } abs :=
    h.quiet a.thread _ m (.inl (List.append_nil _)) trivial hcut (fun hh => hh.elim) hother
  unfold step at hstep
  cases hpc : (s.threads a.thread).pc <;> rw [hpc] at hstep
  case idle =>
    cases htodo : (s.threads a.thread).todo with
    | nil => rw [htodo] at hstep; cases hstep
    | cons c cs =>
      rw [htodo] at hstep
      cases hstep
      refine ⟨abs, h.quiet a.thread _ s.mutex (.inl ?_) ?_ (fun l => by rw [hpc]; exact id) ?_ hm⟩
      · rw [log, hpc]
        cases c <;> rfl
      · cases c <;> trivial
      · cases c <;> exact fun hh => hh.elim
  case lock w =>
    obtain ⟨hfree, rfl⟩ : s.mutex = none ∧ _ := by
      simpa only [Option.ite_none_right_eq_some, Option.some.injEq] using hstep
    refine ⟨abs, h.quiet a.thread _ (some a.thread) (.inl ?_) trivial
      (fun l => by rw [hpc]; exact id) (fun _ => rfl) (fun j _ hj => ?_)⟩
    · rw [log, hpc]
      rfl
    · have := h.holds j hj
      rw [hfree] at this
      cases this
  case unlock w =>
    cases hstep
    refine ⟨abs, finish none (fun l => by rw [hpc]; exact id) (fun j hj hh => ?_)⟩
    have hself := h.holds a.thread (by rw [hpc]; trivial)
    rw [h.holds j hh] at hself
    exact absurd (Option.some.inj hself) hj
  case readClose path line reply =>
    cases hstep
    exact ⟨abs, finish s.mutex (fun l => by rw [hpc]; exact id) hm⟩
  case uploadClose path =>
    cases hstep
    exact ⟨abs, finish s.mutex (fun l => by rw [hpc]; exact id) hm⟩
  all_goals
    obtain ⟨r, hr, rfl⟩ := Option.map_eq_some_iff.mp hstep
    exact call_inv h a hg (by rw [hpc]; exact hr)

theorem start_inv (programs : Fin n → List Command) (files : Files Loc) :
    Explained disk files (start programs files) files where
  serial := Serialisable.start (exec disk) files
  agree _ _ := rfl
  ok _ := trivial
  holds _ hh := hh.elim

/-- Undisturbed commands behave as if they were carried out one at a time. -/
theorem commands_serialise (disk : Disk Loc) (programs : Fin n → List Command) (files : Files Loc)
    (as : List (Act n)) (t : State Loc n)
    (hmeets : Meets (step disk) (Undisturbed disk) as (start programs files))
    (hrun : run (step disk) as (start programs files) = some t)
    (hquiet : ∀ i, (t.threads i).pc = .idle) :
    Serialisable (exec disk) files (fun i => (t.threads i).done) t.files := by
  obtain ⟨abs, hinv⟩ := guarded_invariant (step disk) (Undisturbed disk)
    (fun s => ∃ abs, Explained disk files s abs)
    (fun a s u ⟨abs, h⟩ hg hs => step_inv h a hg hs) as _ t ⟨files, start_inv programs files⟩
    hmeets hrun
  have habs : t.files = abs := funext (fun l => hinv.agree l (fun j hj => by
    rw [hquiet j] at hj
    exact hj))
  have hlog : log t = fun i => (t.threads i).done := by
    funext i
    rw [log, hquiet i]
    exact List.append_nil _
  rw [habs, ← hlog]
  exact hinv.serial

end Runs

/-- A directory: `./` before a name leads to the same file. -/
def directory : Disk Bytes where
  denotes path := if (ascii "./").isPrefixOf path then path.drop 2 else path
  writable _ := true

/-- One client replaces the only line of `f`, another one reads it as `./f`. -/
def writeAndRead : Fin 2 → List Command
  | 0 => [.writeT ⟨ascii "f", 1, ascii "b\n"⟩]
  | 1 => [.readF (ascii "./f") 0]

def oneLine : Files Bytes := fun p => if p = ascii "f" then some (ascii "a\n") else none

/-- The reader has opened the file before it is rewritten, and has read it
before it is truncated. -/
def overlapping : List (Act 2) :=
  [⟨1, 0⟩, ⟨1, 0⟩, ⟨0, 0⟩, ⟨0, 0⟩, ⟨0, 0⟩, ⟨0, 0⟩, ⟨0, 0⟩, ⟨1, 0⟩, ⟨0, 0⟩, ⟨0, 0⟩, ⟨1, 0⟩, ⟨0, 0⟩,
    ⟨0, 0⟩, ⟨1, 0⟩, ⟨0, 2⟩, ⟨0, 0⟩, ⟨0, 0⟩]

theorem commands_serialise_overlapping :
    ∃ t, run (step directory) overlapping (start writeAndRead oneLine) = some t ∧
      Serialisable (exec directory) oneLine (fun i => (t.threads i).done) t.files :=
  ⟨_, rfl, commands_serialise directory writeAndRead oneLine overlapping _ (by decide) rfl
    (by decide)⟩

/-- The reader sees the file after it was truncated and before it is
rewritten. -/
theorem truncated_file_read :
    ∃ t, run (step directory) [⟨0, 0⟩, ⟨0, 0⟩, ⟨0, 0⟩, ⟨0, 0⟩, ⟨0, 0⟩, ⟨0, 0⟩, ⟨0, 0⟩, ⟨0, 0⟩,
        ⟨0, 0⟩, ⟨1, 0⟩, ⟨1, 0⟩, ⟨1, 0⟩, ⟨1, 0⟩, ⟨0, 2⟩, ⟨0, 0⟩, ⟨0, 0⟩]
        (start writeAndRead oneLine) = some t ∧
      (∀ i, (t.threads i).pc = .idle) ∧
      (t.threads 1).done = [⟨.readF (ascii "./f") 0, some (ascii "File content:\n")⟩] ∧
      ¬ Serialisable (exec directory) oneLine (fun i => (t.threads i).done) t.files := by
  refine ⟨_, rfl, by decide, by decide, ?_⟩
  rintro ⟨order, hrun, hlogs⟩
  have hw : history order 0 = [⟨.writeT ⟨ascii "f", 1, ascii "b\n"⟩, none⟩] := by
    rw [hlogs]
    decide
  have hr : history order 1 = [⟨.readF (ascii "./f") 0, some (ascii "File content:\n")⟩] := by
    rw [hlogs]
    decide
  have hsome := congrArg Option.isSome hrun
  rcases order_of_two hw hr with rfl | rfl
  · revert hsome
    decide
  · revert hsome
    decide

end CSE344.BiboSerial
