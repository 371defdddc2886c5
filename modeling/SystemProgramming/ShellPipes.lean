import SystemProgramming.ShellSegments

/-!
# The commands of an HW2 pipeline

A bar runs the command before it to its end, on the descriptors that the shell
has, and the next command starts from the standard ones again. So every command
of a line without redirections reads the terminal and writes to it, and the
line is a pipeline only where there is nothing to pass on.
-/

set_option autoImplicit false

namespace CSE344.ShellPipes
open CString Words ProcessFiles ShellProcess ShellSegments TransitionRun
open Shell (Line space)
open ShellLines (stdinFileno stdoutFileno)

/-- What the n-th command writes when its standard input delivers these bytes,
and what a file delivers to the n-th command. -/
structure World where
  behave : ℕ → Bytes → Bytes
  delivers : ℕ → File → Bytes

def stdin (w : World) (n : ℕ) (c : Call) : Bytes := (lookup c.child 0).elim [] (w.delivers n)

def stdout (w : World) (n : ℕ) (c : Call) : Bytes := w.behave n (stdin w n c)

/-- The output of the commands, of which the first is the k-th, that reaches
the terminal. -/
def shown (w : World) (k : ℕ) (cs : List Call) : Bytes :=
  ((cs.zipIdx k).filter (fun p => lookup p.1.child 1 = some .terminal)).flatMap
    (fun p => stdout w p.2 p.1)

/-- The calls `cs`, of which the first is the k-th, are a pipeline of `n` commands. -/
structure Connected (env : Env) (w : World) (k n : ℕ) (cs : List Call) : Prop where
  length : cs.length = n
  forked : ∀ i < n, env.outcome (k+i) ≠ .forkFailed
  first : ∀ c ∈ cs.head?, lookup c.child 0 = some .terminal
  passed : ∀ i c d, cs[i]? = some c → cs[i+1]? = some d →
    stdin w (k+(i+1)) d = stdout w (k+i) c
  terminal : ∀ c ∈ cs.getLast?, shown w k cs = stdout w (k+(n-1)) c

/-- The words of a line that has no redirections and at least two commands. -/
structure Piped (line : Bytes) : Prop where
  plain : ∀ w ∈ words space line, ShellLines.isRedirect w = false
  bar : ShellLines.bar ∈ words space line

/-- What the n-th command writes when it reads the terminal. -/
def output (w : World) (n : ℕ) : Bytes := w.behave n (w.delivers n .terminal)

/-- The shell survives the commands, of which the first is the k-th, none but
the last writes anything, and nothing is typed for any but the first. -/
structure Separate (env : Env) (w : World) (k n : ℕ) : Prop where
  returned : ∀ i, i+1 < n → env.outcome (k+i) = .returned
  forked : env.outcome (k+(n-1)) ≠ .forkFailed
  silent : ∀ i, i+1 < n → output w (k+i) = [] ∧ w.delivers (k+(i+1)) .terminal = []

section Terminal

variable {env : Env} {w : World} {k n : ℕ} {cs : List Call}

def OnTerminal (c : Call) : Prop :=
  lookup c.child 0 = some .terminal ∧ lookup c.child 1 = some .terminal

theorem stdin_terminal {c : Call} (h : OnTerminal c) (n : ℕ) :
    stdin w n c = w.delivers n .terminal := by
  rw [stdin, h.1]
  rfl

theorem stdout_terminal {c : Call} (h : OnTerminal c) (n : ℕ) : stdout w n c = output w n := by
  rw [stdout, stdin_terminal h, output]

theorem shown_terminal (h : ∀ c ∈ cs, OnTerminal c) :
    shown w k cs = (List.range cs.length).flatMap (fun i => output w (k+i)) := by
  induction cs generalizing k with
  | nil => rfl
  | cons c cs ih =>
    have hc := h c List.mem_cons_self
    have hrest := ih (k := k+1) (fun d hd => h d (List.mem_cons_of_mem _ hd))
    rw [shown] at hrest ⊢
    rw [List.zipIdx_cons, List.filter_cons_of_pos (by simpa using hc.2), List.flatMap_cons, hrest,
      stdout_terminal hc, List.length_cons, List.range_succ_eq_map, List.flatMap_cons,
      List.flatMap_map]
    simp only [Nat.add_zero, Nat.add_assoc, Nat.add_comm 1]

/-- Commands that all read and write the terminal are connected only if there
is nothing to pass on. -/
theorem connected_terminal_iff (h : ∀ c ∈ cs, OnTerminal c) (hn : 0 < n) :
    Connected env w k n cs ↔ cs.length = n ∧ (∀ i < n, env.outcome (k+i) ≠ .forkFailed) ∧
      ∀ i, i+1 < n → output w (k+i) = [] ∧ w.delivers (k+(i+1)) .terminal = [] := by
  have hget (i : ℕ) (hi : i < cs.length) : OnTerminal cs[i] := h _ (List.getElem_mem hi)
  obtain ⟨m, rfl⟩ : ∃ m, n = m+1 := ⟨n-1, by omega⟩
  have hsplit (hlen : cs.length = m+1) : shown w k cs =
      (List.range m).flatMap (fun i => output w (k+i)) ++ output w (k+m) := by
    rw [shown_terminal h, hlen, List.range_succ, List.flatMap_append, List.flatMap_singleton]
  constructor
  · rintro ⟨hlen, hfork, -, hpassed, hterminal⟩
    refine ⟨hlen, hfork, fun i hi => ?_⟩
    have hlast : cs.getLast? = some cs[m] := by
      rw [List.getLast?_eq_getElem?, show cs.length-1 = m by omega]
      exact List.getElem?_eq_getElem (by omega)
    have hshown := hterminal _ hlast
    rw [hsplit hlen, stdout_terminal (hget m (by omega)), Nat.add_sub_cancel,
      List.append_left_eq_self, List.flatMap_eq_nil_iff] at hshown
    have hout := hshown i (List.mem_range.mpr (by omega))
    refine ⟨hout, ?_⟩
    have hnext := hpassed i cs[i] cs[i+1] (List.getElem?_eq_getElem (by omega))
      (List.getElem?_eq_getElem (by omega))
    rwa [stdin_terminal (hget _ _), stdout_terminal (hget _ _), hout] at hnext
  · rintro ⟨hlen, hfork, hsilent⟩
    refine ⟨hlen, hfork, fun c hc => (h c (List.mem_of_mem_head? hc)).1, ?_, ?_⟩
    · intro i c d hc hd
      have hi := (List.getElem?_eq_some_iff.mp hd).1
      obtain ⟨hout, hin⟩ := hsilent i (by omega)
      rw [stdin_terminal (h d (List.mem_of_getElem? hd)),
        stdout_terminal (h c (List.mem_of_getElem? hc)), hin, hout]
    · intro c hc
      have hnil : (List.range m).flatMap (fun i => output w (k+i)) = [] := by
        rw [List.flatMap_eq_nil_iff]
        exact fun i hi => (hsilent i (by have := List.mem_range.mp hi; omega)).1
      rw [hsplit hlen, hnil, stdout_terminal (h c (List.mem_of_getLast? hc)), List.nil_append,
        Nat.add_sub_cancel]

end Terminal

section Line

variable {env : Env}

theorem items_plain (env : Env) {its : List Item} (h : redirectsOf its = []) (v : Vars Bytes) :
    (items env its v).fds = v.fds ∧ (items env its v).inputFd = v.inputFd ∧
      (items env its v).outputFd = v.outputFd := by
  induction its generalizing v with
  | nil => exact ⟨rfl, rfl, rfl⟩
  | cons i its ih =>
    cases i with
    | word w => exact ih h (v.word w)
    | redirect mode path => cases h

theorem callOf_onTerminal {seg : Segment} {v : Vars Bytes} (h : AtPrompt v)
    (hplain : redirectsOf seg.items = []) : OnTerminal (callOf env seg v) := by
  obtain ⟨hfds, hin, hout⟩ := items_plain env hplain v
  have hchild : (callOf env seg v).child = v.fds := by
    rw [Call.child, callOf, hfds, hin, hout, h.inputFd, h.outputFd]
    rfl
  rw [OnTerminal, hchild]
  exact ⟨h.stdin, h.stdout⟩

theorem callsOf_onTerminal (env : Env) (segs : List Segment) (v : Vars Bytes) (h : AtPrompt v)
    (hplain : ∀ seg ∈ segs, redirectsOf seg.items = []) :
    ∀ c ∈ callsOf env segs v, OnTerminal c := by
  induction segs generalizing v with
  | nil =>
    intro c hc
    cases hc
  | cons seg segs ih =>
    rw [List.forall_mem_cons] at hplain
    have hrest := ih (behind env seg v) (behind_atPrompt env seg h) hplain.2
    intro c hc
    rw [callsOf] at hc
    split_ifs at hc with hquit hout
    · cases hc
    · rcases List.mem_cons.mp hc with rfl | hc
      · exact callOf_onTerminal h hplain.1
      · exact hrest c hc
    · rw [List.mem_singleton.mp hc]
      exact callOf_onTerminal h hplain.1

/-- All the segments are called just if none is the exit command's and all
calls but the last return. -/
theorem callsOf_length_iff (segs : List Segment) (v : Vars Bytes) :
    (callsOf env segs v).length = segs.length ↔ (∀ seg ∈ segs, seg.ending ≠ .quit) ∧
      ∀ i, i+1 < segs.length → env.outcome (v.calls.length+i) = .returned := by
  induction segs generalizing v with
  | nil => simp [callsOf]
  | cons seg segs ih =>
    rw [callsOf, List.length_cons, List.forall_mem_cons]
    by_cases hquit : seg.ending = .quit
    · simp [hquit]
    rw [if_neg hquit, List.length_cons, Nat.succ_inj]
    by_cases hout : env.outcome v.calls.length = .returned
    · rw [if_pos hout, ih, behind_calls_length]
      constructor
      · rintro ⟨hending, hret⟩
        refine ⟨⟨hquit, hending⟩, fun i hi => ?_⟩
        cases i with
        | zero => exact hout
        | succ i =>
          have := hret i (by omega)
          rwa [Nat.add_assoc, Nat.add_comm 1] at this
      · rintro ⟨⟨-, hending⟩, hret⟩
        refine ⟨hending, fun i hi => ?_⟩
        rw [Nat.add_assoc, Nat.add_comm 1]
        exact hret (i+1) (by omega)
    · rw [if_neg hout, List.length_nil]
      constructor
      · intro hlen
        obtain rfl := List.eq_nil_of_length_eq_zero hlen.symm
        exact ⟨⟨hquit, fun seg hseg => by cases hseg⟩, fun i hi => by simp at hi⟩
      · rintro ⟨-, hret⟩
        by_contra hlen
        exact hout (hret 0 (by omega))

theorem plain_word {w : Bytes} (h : ShellLines.isRedirect w = false) :
    w ≠ ascii "<" ∧ w ≠ ascii ">" := by
  simpa [ShellLines.isRedirect] using h

theorem piecesFrom_plain (ws : List Bytes) (begun : List Item)
    (hplain : ∀ w ∈ ws, ShellLines.isRedirect w = false) (hbegun : redirectsOf begun = []) :
    ∀ its ∈ piecesFrom ws begun, redirectsOf its = [] := by
  induction ws generalizing begun with
  | nil =>
    intro its hits
    rwa [List.mem_singleton.mp hits]
  | cons w ws ih =>
    rw [List.forall_mem_cons] at hplain
    obtain ⟨hlt, hgt⟩ := plain_word hplain.1
    by_cases hbar : w = ascii "|"
    · rw [hbar, piecesFrom_bar, List.forall_mem_cons]
      exact ⟨hbegun, ih [] hplain.2 rfl⟩
    · rw [piecesFrom_word hgt hlt hbar]
      refine ih _ hplain.2 ?_
      rw [redirectsOf, List.filterMap_append]
      show redirectsOf begun ++ [] = []
      rw [hbegun, List.append_nil]

theorem endings_items (last : Ending) (pieces : List (List Item)) :
    (endings last pieces).map Segment.items = pieces := by
  induction pieces with
  | nil => rfl
  | cons its pieces ih => rw [endings, List.map_cons, ih]

theorem segments_plain {line : Bytes}
    (h : ∀ w ∈ words space line, ShellLines.isRedirect w = false) :
    ∀ seg ∈ segments line, redirectsOf seg.items = [] := by
  intro seg hseg
  have hmem := List.mem_map_of_mem (f := Segment.items) hseg
  rw [segments, endings_items] at hmem
  exact piecesFrom_plain _ [] h rfl _ hmem

theorem piecesFrom_length {ws : List Bytes} (begun : List Item)
    (hplain : ∀ w ∈ ws, ShellLines.isRedirect w = false) (hbar : ShellLines.bar ∈ ws) :
    2 ≤ (piecesFrom ws begun).length := by
  induction ws generalizing begun with
  | nil => cases hbar
  | cons w ws ih =>
    rw [List.forall_mem_cons] at hplain
    obtain ⟨hlt, hgt⟩ := plain_word hplain.1
    by_cases hw : w = ascii "|"
    · have := List.length_pos_iff.mpr (piecesFrom_ne_nil ws [])
      rw [hw, piecesFrom_bar, List.length_cons]
      omega
    · rw [piecesFrom_word hgt hlt hw]
      exact ih _ hplain.2 ((List.mem_cons.mp hbar).resolve_left (Ne.symm hw))

theorem endings_length (last : Ending) (pieces : List (List Item)) :
    (endings last pieces).length = pieces.length := by
  rw [← List.length_map (f := Segment.items), endings_items]

theorem endings_quit_iff {last : Ending} {pieces : List (List Item)} (h : pieces ≠ []) :
    (∀ seg ∈ endings last pieces, seg.ending ≠ .quit) ↔ last ≠ .quit := by
  induction pieces with
  | nil => exact absurd rfl h
  | cons its pieces ih =>
    rw [endings, List.forall_mem_cons]
    by_cases hnil : pieces = []
    · rw [hnil, if_pos rfl]
      exact and_iff_left (fun seg hseg => by cases hseg)
    · rw [if_neg hnil, ih hnil]
      exact and_iff_right (fun hbar => by cases hbar)

theorem segments_quit_iff (line : Bytes) :
    (∀ seg ∈ segments line, seg.ending ≠ .quit) ↔ ¬ Quits line := by
  rw [segments, endings_quit_iff (piecesFrom_ne_nil _ _)]
  split_ifs with hquit
  · simp [hquit]
  · simp [hquit]

/-- A line without redirections is a pipeline just if the shell gets through
it, its commands but the last write nothing, and its commands but the first
are not typed anything. -/
theorem pipeline_connected_iff (env : Env) (w : World) (inherited : Table File)
    (history : List Line) (s : State)
    (h : run (turn env) (history.map entered) (start inherited) = some s) (hs : s.exited = false)
    (line : Line) (hline : Piped line.bytes) :
    2 ≤ (segments line.bytes).length ∧
    ∃ t cs, turn env (entered line) s = some t ∧ t.vars.calls = s.vars.calls ++ cs ∧
      (Connected env w s.vars.calls.length (segments line.bytes).length cs ↔
        ¬ Quits line.bytes ∧
          Separate env w s.vars.calls.length (segments line.bytes).length) := by
  have hlen : 2 ≤ (segments line.bytes).length := by
    rw [segments, endings_length]
    exact piecesFrom_length [] hline.plain hline.bar
  obtain ⟨t, ht, hcalls, hprompt⟩ := line_runs line h hs (fun _ => [])
  refine ⟨hlen, t, _, ht, hcalls, ?_⟩
  have hterminal := callsOf_onTerminal env _ _ hprompt (segments_plain hline.plain)
  rw [connected_terminal_iff hterminal (by omega), callsOf_length_iff, segments_quit_iff]
  constructor
  · rintro ⟨⟨hquit, hret⟩, hfork, hsilent⟩
    exact ⟨hquit, hret, hfork _ (by omega), hsilent⟩
  · rintro ⟨hquit, hret, hfork, hsilent⟩
    refine ⟨⟨hquit, hret⟩, fun i hi => ?_, hsilent⟩
    by_cases hlast : i+1 < (segments line.bytes).length
    · rw [hret i hlast]
      decide
    · rwa [show i = (segments line.bytes).length-1 by omega]

def echoLine : Line := ⟨ascii "echo a | cat", by decide, by decide, by decide⟩

/-- The first command writes a line, the others copy; nothing is typed. -/
def echoing : World := ⟨fun n bytes => if n = 0 then ascii "a\n" else bytes, fun _ _ => []⟩

theorem echoLine_piped : Piped echoLine.bytes := ⟨by decide, by decide⟩

theorem pipeline_connected_iff_echo : 2 ≤ (segments echoLine.bytes).length ∧
    ∃ t cs, turn steady (entered echoLine) (start []) = some t ∧
      t.vars.calls = (start []).vars.calls ++ cs ∧
      (Connected steady echoing 0 (segments echoLine.bytes).length cs ↔
        ¬ Quits echoLine.bytes ∧ Separate steady echoing 0 (segments echoLine.bytes).length) :=
  pipeline_connected_iff steady echoing [] [] (start []) rfl rfl echoLine echoLine_piped

/-- `cat` reads the terminal instead of the line that `echo` wrote. -/
theorem echo_not_connected : Piped echoLine.bytes ∧
    ∃ t, turn steady (entered echoLine) (start []) = some t ∧
      t.vars.calls.map Call.argv = [[ascii "echo", ascii "a"], [ascii "cat"]] ∧
      ¬ Connected steady echoing 0 2 t.vars.calls := by
  refine ⟨echoLine_piped, _, rfl, by decide, fun h => ?_⟩
  have hpassed := h.passed 0 _ _ rfl rfl
  revert hpassed
  decide

end Line

end CSE344.ShellPipes
