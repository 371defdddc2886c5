import Mathlib.Data.List.Induction
import SystemProgramming.ShellSegments

/-!
# The commands that the HW2 shell gets

A segment is executed whatever it looks like: without a word, behind an `open`
that failed, or behind an operator at the end of the line. The descriptor is
then -1, and the child goes on with the standard one.
-/

set_option autoImplicit false

namespace CSE344.ShellForms
open CString Words ProcessFiles ShellProcess ShellSegments TransitionRun
open Shell (Line)
open ShellLines (Mode stdinFileno stdoutFileno)

def IsOpen (t : Table File) (fd : ℤ) : Prop := 0 ≤ fd ∧ lookup t fd.toNat ≠ none

instance IsOpen.decidable (t : Table File) (fd : ℤ) : Decidable (IsOpen t fd) :=
  inferInstanceAs (Decidable (_ ∧ _))

/-- A call with something to execute, on open descriptors. -/
structure CallFormed (c : Call) : Prop where
  argv : c.argv ≠ []
  input : IsOpen c.fds c.inputFd
  output : IsOpen c.fds c.outputFd

/-- The last redirection of a kind, with its number if `k` came before. -/
def lastOf (mode : Mode) (k : ℕ) (rs : List (Mode × Option Bytes)) :
    Option ((Mode × Option Bytes) × ℕ) :=
  ((rs.zipIdx k).filter (fun p => p.1.1 = mode)).getLast?

/-- A redirection has a target, and that opens. -/
def Opens (env : Env) (p : (Mode × Option Bytes) × ℕ) : Prop :=
  p.1.2 ≠ none ∧ env.opens p.2 = true

/-- A segment with a word, of which the last redirection of each kind opens its target. -/
structure Formed (env : Env) (k : ℕ) (seg : Segment) : Prop where
  words : wordsOf seg.items ≠ []
  input : ∀ p ∈ lastOf .read k (redirectsOf seg.items), Opens env p
  output : ∀ p ∈ lastOf .write k (redirectsOf seg.items), Opens env p

/-- The segments that are executed are well formed, when `k` redirections came before. -/
def AllFormed (env : Env) : ℕ → List Segment → Prop
  | _, [] => True
  | k, seg::segs => (seg.ending ≠ .quit → Formed env k seg) ∧
      AllFormed env (k+(redirectsOf seg.items).length) segs

section Descriptors

variable {env : Env}

/-- `input_fd` or `output_fd` -/
def fdOf (mode : Mode) (v : Vars Bytes) : ℤ :=
  match mode with
  | .read => v.inputFd
  | .write => v.outputFd

/-- A descriptor that is not -1 is open. -/
def Valid (mode : Mode) (v : Vars Bytes) : Prop :=
  0 ≤ fdOf mode v → lookup v.fds (fdOf mode v).toNat ≠ none

theorem fdOf_redirect (mode mode' : Mode) (path : Option Bytes) (v : Vars Bytes) :
    fdOf mode (v.redirect env mode' path) =
      if mode' = mode then (v.openFile env mode' path).1 else fdOf mode v := by
  cases mode <;> cases mode' <;> rfl

theorem openFile_iff (mode : Mode) (path : Option Bytes) (v : Vars Bytes) :
    0 ≤ (v.openFile env mode path).1 ↔ path ≠ none ∧ env.opens v.opened = true := by
  unfold Vars.openFile
  cases path with
  | none => simp
  | some path =>
    dsimp only
    split_ifs with h
    · simp [h]
    · simp [h]

theorem openFile_valid (mode : Mode) (path : Option Bytes) (v : Vars Bytes)
    (h : 0 ≤ (v.openFile env mode path).1) :
    lookup (v.openFile env mode path).2 (v.openFile env mode path).1.toNat ≠ none := by
  unfold Vars.openFile at *
  cases path with
  | none => simp at h
  | some path =>
    dsimp only at *
    split_ifs at *
    · rw [Int.toNat_natCast, lookup_install_free]
      exact Option.some_ne_none _
    · simp at h

theorem item_valid {mode : Mode} (i : Item) {v : Vars Bytes} (h : Valid mode v) :
    Valid mode (item env i v) := by
  cases i with
  | word w => exact h
  | redirect mode' path =>
    show 0 ≤ fdOf mode (v.redirect env mode' path) → lookup (v.openFile env mode' path).2
      (fdOf mode (v.redirect env mode' path)).toNat ≠ none
    rw [fdOf_redirect]
    split_ifs with hmode
    · exact openFile_valid mode' path v
    · intro hpos
      obtain ⟨x, hx⟩ := Option.ne_none_iff_exists'.mp (h hpos)
      have hkept := item_lookup env (.redirect mode' path) v hx
      rw [show lookup (v.openFile env mode' path).2 _ = some x from hkept]
      exact Option.some_ne_none x

theorem items_valid {mode : Mode} (its : List Item) {v : Vars Bytes} (h : Valid mode v) :
    Valid mode (items env its v) := by
  induction its generalizing v with
  | nil => exact h
  | cons i its ih => exact ih (item_valid i h)

theorem lastOf_concat (mode : Mode) (k : ℕ) (rs : List (Mode × Option Bytes))
    (r : Mode × Option Bytes) :
    lastOf mode k (rs ++ [r]) = if r.1 = mode then some (r, k+rs.length) else lastOf mode k rs := by
  rw [lastOf, List.zipIdx_append, List.filter_append, List.zipIdx_singleton]
  split_ifs with h
  · rw [List.filter_cons_of_pos (by simpa using h), List.filter_nil, List.getLast?_concat]
  · rw [List.filter_cons_of_neg (by simpa using h), List.filter_nil, List.append_nil, lastOf]

theorem items_fd_iff {mode : Mode} (its : List Item) {v : Vars Bytes} (h : 0 ≤ fdOf mode v) :
    0 ≤ fdOf mode (items env its v) ↔
      ∀ p ∈ lastOf mode v.opened (redirectsOf its), Opens env p := by
  induction its using List.reverseRecOn with
  | nil => exact iff_of_true h (fun p hp => by cases hp)
  | append_singleton its i ih =>
    rw [items_append, redirectsOf, List.filterMap_append, ← redirectsOf, ← redirectsOf]
    cases i with
    | word w =>
      rw [show redirectsOf [Item.word w] = [] from rfl, List.append_nil, ← ih]
      rfl
    | redirect mode' path =>
      have hopened := (items_stored env its v).opened
      rw [show redirectsOf [Item.redirect mode' path] = [(mode', path)] from rfl, lastOf_concat]
      show 0 ≤ fdOf mode ((items env its v).redirect env mode' path) ↔ _
      rw [fdOf_redirect]
      split_ifs with hmode
      · rw [openFile_iff, hopened]
        simp [Opens]
      · exact ih

theorem items_open_iff (env : Env) {mode : Mode} (its : List Item) {v : Vars Bytes}
    (h : IsOpen v.fds (fdOf mode v)) :
    IsOpen (items env its v).fds (fdOf mode (items env its v)) ↔
      ∀ p ∈ lastOf mode v.opened (redirectsOf its), Opens env p := by
  rw [← items_fd_iff its h.1]
  exact and_iff_left_of_imp (items_valid its (fun _ => h.2))

end Descriptors

section Readings

/-- The words of a piece, and its last redirection of each kind. -/
def commandOf (its : List Item) : Shell.Command where
  argv := wordsOf its
  input := (lastOf .read 0 (redirectsOf its)).map (fun p => p.1.2)
  output := (lastOf .write 0 (redirectsOf its)).map (fun p => p.1.2)

theorem commandOf_word (its : List Item) (w : Bytes) : commandOf (its ++ [.word w]) =
    { commandOf its with argv := (commandOf its).argv ++ [w] } := by
  simp [commandOf, wordsOf, redirectsOf]

theorem commandOf_redirect (its : List Item) (mode : Mode) (path : Option Bytes) :
    commandOf (its ++ [.redirect mode path]) =
      match mode with
      | .read => { commandOf its with input := some path }
      | .write => { commandOf its with output := some path } := by
  have hwords : wordsOf (its ++ [.redirect mode path]) = wordsOf its := by simp [wordsOf]
  have hredirects : redirectsOf (its ++ [.redirect mode path]) =
      redirectsOf its ++ [(mode, path)] := by simp [redirectsOf]
  rw [commandOf, hwords, hredirects, lastOf_concat, lastOf_concat]
  cases mode <;> rfl

/-- The pieces of a line are the commands that it spells out. -/
theorem piecesFrom_commands (ws : List Bytes) (begun : List Item) :
    (piecesFrom ws begun).map commandOf = ShellRun.pieces ws (commandOf begun) := by
  fun_induction piecesFrom ws begun with
  | case1 begun => rfl
  | case2 begun =>
    rw [List.map_singleton, commandOf_redirect]
    rfl
  | case3 begun f ws ih =>
    rw [ih, commandOf_redirect]
    rfl
  | case4 begun =>
    rw [List.map_singleton, commandOf_redirect]
    rfl
  | case5 begun hgt f ws ih =>
    rw [ih, commandOf_redirect]
    rfl
  | case6 begun ws hgt hlt ih =>
    rw [List.map_cons, ih, ShellRun.pieces_bar]
    rfl
  | case7 w ws begun hgt hlt hbar ih =>
    rw [ih, commandOf_word, ShellRun.pieces_word hgt hlt hbar]

end Readings

section Calls

variable {env : Env}

theorem callOf_formed_iff (env : Env) (seg : Segment) {v : Vars Bytes} (h : AtPrompt v) :
    CallFormed (callOf env seg v) ↔ Formed env v.opened seg := by
  have hin : IsOpen v.fds (fdOf .read v) := by
    rw [fdOf, h.inputFd]
    exact ⟨le_refl _, by rw [show (stdinFileno).toNat = 0 from rfl, h.stdin]; simp⟩
  have hout : IsOpen v.fds (fdOf .write v) := by
    rw [fdOf, h.outputFd]
    exact ⟨by decide, by rw [show (stdoutFileno).toNat = 1 from rfl, h.stdout]; simp⟩
  have hargv : (callOf env seg v).argv = wordsOf seg.items := by
    rw [callOf, (items_stored env seg.items v).tokens, h.tokens, List.nil_append]
  have hread := items_open_iff env seg.items hin
  have hwrite := items_open_iff env seg.items hout
  constructor
  · rintro ⟨hne, hi, ho⟩
    exact ⟨hargv ▸ hne, hread.mp hi, hwrite.mp ho⟩
  · rintro ⟨hne, hi, ho⟩
    exact ⟨hargv.symm ▸ hne, hread.mpr hi, hwrite.mpr ho⟩

theorem callsOf_formed_iff (segs : List Segment) {v : Vars Bytes} (h : AtPrompt v) :
    (∀ c ∈ callsOf env segs v, CallFormed c) ↔
      AllFormed env v.opened (reached env v.calls.length segs) := by
  induction segs generalizing v with
  | nil => simp [callsOf, reached, AllFormed]
  | cons seg segs ih =>
    rw [callsOf, reached, AllFormed]
    by_cases hquit : seg.ending = .quit
    · simp [hquit, AllFormed]
    have hseg := callOf_formed_iff env seg h
    rw [if_neg hquit, List.forall_mem_cons, hseg]
    by_cases hout : env.outcome v.calls.length = .returned
    · have hopened : (behind env seg v).opened = v.opened+(redirectsOf seg.items).length :=
        (items_stored env seg.items v).opened
      have hrest := ih (behind_atPrompt env seg h)
      rw [behind_calls_length, hopened] at hrest
      rw [if_pos hout, if_pos ⟨hquit, hout⟩, hrest]
      simp [hquit]
    · rw [if_neg hout, if_neg (fun hand => hout hand.2)]
      simp [hquit, AllFormed]

/-- The calls that a line makes are well formed just if its segments are, as
far as they are come to. -/
theorem line_formed_iff (env : Env) (inherited : Table File) (history : List Line) (s : State)
    (h : run (turn env) (history.map entered) (start inherited) = some s) (hs : s.exited = false)
    (line : Line) : ∃ t cs, turn env (entered line) s = some t ∧
      t.vars.calls = s.vars.calls ++ cs ∧ ((∀ c ∈ cs, CallFormed c) ↔
        AllFormed env s.vars.opened (reached env s.vars.calls.length (segments line.bytes))) := by
  obtain ⟨t, ht, hcalls, hprompt⟩ := line_runs line h hs (fun _ => [])
  exact ⟨t, _, ht, hcalls, callsOf_formed_iff (segments line.bytes) hprompt⟩

def missingLine : Line := ⟨ascii "cat <", by decide, by decide, by decide⟩

theorem line_formed_iff_missing : ∃ t cs, turn steady (entered missingLine) (start []) = some t ∧
    t.vars.calls = [] ++ cs ∧ ((∀ c ∈ cs, CallFormed c) ↔
      AllFormed steady 0 (reached steady 0 (segments missingLine.bytes))) :=
  line_formed_iff steady [] [] (start []) rfl rfl missingLine

/-- `cat` is called with -1 for its input, and reads the terminal. -/
theorem missing_not_formed : ∃ t c, turn steady (entered missingLine) (start []) = some t ∧
    t.vars.calls = [c] ∧ c.argv = [ascii "cat"] ∧ ¬ CallFormed c ∧
    lookup c.child 0 = some .terminal :=
  ⟨_, _, rfl, rfl, by decide, fun h => absurd h.input (by decide), by decide⟩

end Calls

end CSE344.ShellForms
