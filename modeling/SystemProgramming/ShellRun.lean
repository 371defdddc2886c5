import SystemProgramming.Shell
import SystemProgramming.Words

/-!
# What the HW2 shell executes

`typed` is what the lines say: their commands up to the first line that is
exactly `:q`. As long as every line is read from its own place, the shell
agrees with it only when it is told to stop before its input ends, or stops at
the last command: at end of file the buffer still holds the last line up to
its first word, and that is executed again and again.
-/

set_option autoImplicit false

namespace CSE344.ShellRun
open BufferedInput CString Words Shell

def noCommand : Command := ⟨[], none, none⟩

/-- The commands that a list of words spells out, when `c` was begun before. -/
def pieces : List Bytes → Command → List Command
  | [], c => [c]
  | w::ws, c =>
    if w = ascii ">" then
      match ws with
      | [] => [{ c with output := some none }]
      | f::ws => pieces ws { c with output := some (some f) }
    else if w = ascii "<" then
      match ws with
      | [] => [{ c with input := some none }]
      | f::ws => pieces ws { c with input := some (some f) }
    else if w = ascii "|" then c :: pieces ws noCommand
    else pieces ws { c with argv := c.argv ++ [w] }

def commands (l : Line) : List Command := pieces (words space l.bytes) noCommand

/-- The lines before the first one that is the exit command. -/
def before (ls : List Line) : List Line := ls.takeWhile (fun l => l.bytes ≠ exitCommand)

def typed (ls : List Line) : List Command := (before ls).flatMap commands

/-- At every turn of the loop what was executed is what was typed so far. -/
def RunsTyped (env : Env) (ls : List Line) : Prop :=
  ∀ n, ∃ s, turns env (typedText ls) n start = some s ∧ s.executed = typed (ls.take n)

/-- Before every turn the next line is in the buffer of the stream, or the
offset is where the stream left it. -/
def Undisturbed (env : Env) (ls : List Line) : Prop :=
  ∀ n s, turns env (typedText ls) n start = some s → s.exited = false → InPlace 10 s.stdin

/-- The words of every command fit `command_tokens`, every child that is made
fits `child_pids`, and no call but the last ends the shell, when `k` calls
came before. -/
structure Fits (env : Env) (k : ℕ) (cs : List Command) : Prop where
  words : ∀ c ∈ cs, c.argv.length < maxCommands
  room : ∀ i < cs.length, env.outcome (k+i) = .forkFailed ∨ k+i < maxChildren
  returns : ∀ i, i+1 < cs.length → (env.outcome (k+i)).returns = true

/-- The last call ends the shell. -/
def Ends (env : Env) (k : ℕ) (cs : List Command) : Prop :=
  cs ≠ [] ∧ (env.outcome (k+cs.length-1)).returns = false

/-- No line merely begins with the exit command, the commands fit the arrays,
and the shell is told to stop or stops at the last of them. -/
structure Stops (env : Env) (k : ℕ) (ls : List Line) : Prop where
  no_prefix : ∀ l ∈ before ls, ¬ exitCommand ++ space <+: l.bytes
  fits : Fits env k (typed ls)
  stopped : (∃ l ∈ ls, l.bytes = exitCommand) ∨ Ends env k (typed ls)

section Fits

variable {env : Env}

theorem fits_nil (env : Env) (k : ℕ) : Fits env k [] where
  words c hc := by cases hc
  room i hi := by cases hi
  returns i hi := by cases hi

theorem fits_cons (k : ℕ) (c : Command) (cs : List Command) :
    Fits env k (c::cs) ↔ c.argv.length < maxCommands ∧
      (env.outcome k = .forkFailed ∨ k < maxChildren) ∧
      (cs ≠ [] → (env.outcome k).returns = true) ∧ Fits env (k+1) cs := by
  constructor
  · intro h
    refine ⟨h.words c List.mem_cons_self, h.room 0 (Nat.succ_pos _), fun hcs => ?_,
      fun d hd => h.words d (List.mem_cons_of_mem _ hd), fun i hi => ?_, fun i hi => ?_⟩
    · exact h.returns 0 (Nat.succ_lt_succ (List.length_pos_of_ne_nil hcs))
    · rw [Nat.add_assoc, Nat.add_comm 1]
      exact h.room (i+1) (Nat.succ_lt_succ hi)
    · rw [Nat.add_assoc, Nat.add_comm 1]
      exact h.returns (i+1) (Nat.succ_lt_succ hi)
  · rintro ⟨hwords, hroom, hreturns, h⟩
    refine ⟨fun d hd => ?_, fun i hi => ?_, fun i hi => ?_⟩
    · rcases List.mem_cons.mp hd with rfl | hd
      · exact hwords
      · exact h.words d hd
    · cases i with
      | zero => exact hroom
      | succ i =>
        rw [← Nat.add_assoc, Nat.add_right_comm]
        exact h.room i (Nat.lt_of_succ_lt_succ hi)
    · cases i with
      | zero =>
        apply hreturns
        rintro rfl
        simp at hi
      | succ i =>
        rw [← Nat.add_assoc, Nat.add_right_comm]
        exact h.returns i (Nat.lt_of_succ_lt_succ hi)

theorem not_ends_nil (k : ℕ) : ¬ Ends env k [] := fun h => h.1 rfl

theorem ends_append (k : ℕ) (cs : List Command) {ds : List Command} (hds : ds ≠ []) :
    Ends env k (cs++ds) ↔ Ends env (k+cs.length) ds := by
  simp only [Ends, List.length_append, ← Nat.add_assoc, ne_eq, List.append_eq_nil_iff, hds,
    and_false, not_false_eq_true]

theorem ends_cons (k : ℕ) (c : Command) {cs : List Command} (hcs : cs ≠ []) :
    Ends env k (c::cs) ↔ Ends env (k+1) cs := ends_append k [c] hcs

theorem ends_singleton (k : ℕ) (c : Command) :
    Ends env k [c] ↔ (env.outcome k).returns = false := by simp [Ends]

theorem fits_append (k : ℕ) (cs ds : List Command) :
    Fits env k (cs++ds) ↔
      Fits env k cs ∧ (ds ≠ [] → ¬ Ends env k cs) ∧ Fits env (k+cs.length) ds := by
  induction cs generalizing k with
  | nil => simp [fits_nil, not_ends_nil]
  | cons c cs ih =>
    rw [List.cons_append, fits_cons, fits_cons, ih, List.length_cons, ← Nat.add_assoc,
      Nat.add_right_comm]
    by_cases hcs : cs = []
    · subst hcs
      simp [ends_singleton, not_ends_nil, fits_nil, and_assoc]
    · rw [ends_cons k c hcs]
      simp [hcs, and_assoc]

end Fits

section Words

variable {env : Env}

/-- Commands one after the other, up to the one that ends the shell. -/
def runAll (env : Env) : List Command → Run → Option Run
  | [], r => some r
  | c::cs, r =>
    if c.argv.length < maxCommands then
      (executeCommand env c r).bind (fun r => if r.exited then some r else runAll env cs r)
    else none

/-- The token loop on the words themselves. -/
def runWords (env : Env) : List Bytes → Command → Run → Option (Command × Run)
  | [], c, r => some (c, r)
  | w::ws, c, r =>
    if w = ascii ">" then
      match ws with
      | [] => some ({ c with output := some none }, r)
      | f::ws => runWords env ws { c with output := some (some f) } r
    else if w = ascii "<" then
      match ws with
      | [] => some ({ c with input := some none }, r)
      | f::ws => runWords env ws { c with input := some (some f) } r
    else if w = ascii "|" then
      if c.argv.length < maxCommands then
        (executeCommand env c r).bind (fun r =>
          if r.exited then some (noCommand, r) else runWords env ws noCommand r)
      else none
    else if c.argv.length < maxCommands then
      runWords env ws { c with argv := c.argv ++ [w] } r
    else none

theorem executeCommand_some {c : Command} {r r' : Run} (h : executeCommand env c r = some r') :
    (env.outcome r.executed.length = .forkFailed ∨ r.executed.length < maxChildren) ∧
      r'.executed = r.executed ++ [c] ∧
      r'.stdin = (env.outcome r.executed.length).moves r.stdin ∧
      r'.exited = !(env.outcome r.executed.length).returns := by
  simp only [executeCommand, Option.ite_none_right_eq_some, Option.some.injEq] at h
  obtain ⟨hroom, rfl⟩ := h
  exact ⟨hroom, rfl, rfl, rfl⟩

theorem pieces_bar (ws : List Bytes) (c : Command) :
    pieces (ascii "|" :: ws) c = c :: pieces ws noCommand := by
  have hgt : ascii "|" ≠ ascii ">" := by decide
  have hlt : ascii "|" ≠ ascii "<" := by decide
  rw [pieces.eq_def]
  dsimp only
  rw [if_neg hgt, if_neg hlt, if_pos rfl]

theorem pieces_word {w : Bytes} (hgt : ¬ w = ascii ">") (hlt : ¬ w = ascii "<")
    (hbar : ¬ w = ascii "|") (ws : List Bytes) (c : Command) :
    pieces (w::ws) c = pieces ws { c with argv := c.argv ++ [w] } := by
  rw [pieces.eq_def]
  dsimp only
  rw [if_neg hgt, if_neg hlt, if_neg hbar]

theorem pieces_head (ws : List Bytes) (c : Command) :
    ∃ d cs, pieces ws c = d::cs ∧ c.argv.length ≤ d.argv.length := by
  fun_induction pieces ws c with
  | case1 c => exact ⟨c, [], rfl, le_refl _⟩
  | case2 c => exact ⟨_, [], rfl, le_refl _⟩
  | case3 c f ws ih => exact ih
  | case4 c => exact ⟨_, [], rfl, le_refl _⟩
  | case5 c hgt f ws ih => exact ih
  | case6 ws c => exact ⟨c, _, rfl, le_refl _⟩
  | case7 w ws c hgt hlt hbar ih =>
    obtain ⟨d, cs, hd, hle⟩ := ih
    refine ⟨d, cs, hd, ?_⟩
    rw [List.length_append] at hle
    omega

theorem pieces_length (ws : List Bytes) (c : Command) : 0 < (pieces ws c).length := by
  obtain ⟨d, cs, hd, -⟩ := pieces_head ws c
  rw [hd]
  exact Nat.succ_pos _

theorem runAll_nil (r : Run) : runAll env [] r = some r := rfl

theorem runAll_of_fits {cs : List Command} {r : Run} (hr : r.exited = false)
    (h : Fits env r.executed.length cs) :
    ∃ t, runAll env cs r = some t ∧ t.executed = r.executed ++ cs ∧
      (t.exited = true ↔ Ends env r.executed.length cs) := by
  induction cs generalizing r with
  | nil => exact ⟨r, rfl, (List.append_nil _).symm, by simp [hr, not_ends_nil]⟩
  | cons c cs ih =>
    obtain ⟨hwords, hroom, hreturns, hrest⟩ := (fits_cons _ c cs).mp h
    rw [runAll, if_pos hwords, executeCommand, if_pos hroom, Option.bind_some]
    by_cases hcs : cs = []
    · subst hcs
      rw [runAll_nil, ite_self]
      exact ⟨_, rfl, rfl, by simp [ends_singleton]⟩
    · have hret := hreturns hcs
      rw [hret, Bool.not_true, if_neg Bool.false_ne_true]
      obtain ⟨t, ht, hexec, hends⟩ := @ih ⟨r.executed ++ [c], _, false⟩ rfl (by simpa using hrest)
      refine ⟨t, ht, by simpa using hexec, ?_⟩
      rw [ends_cons _ c hcs, hends]
      simp

theorem fits_of_runAll {cs : List Command} {r t : Run} (h : runAll env cs r = some t)
    (hall : t.executed = r.executed ++ cs ∨ t.exited = false) :
    Fits env r.executed.length cs := by
  induction cs generalizing r with
  | nil => exact fits_nil env _
  | cons c cs ih =>
    rw [runAll, Option.ite_none_right_eq_some] at h
    obtain ⟨hwords, h⟩ := h
    obtain ⟨u, hu, h⟩ := Option.bind_eq_some_iff.mp h
    obtain ⟨hroom, hexec, -, hexited⟩ := executeCommand_some hu
    split_ifs at h with hu
    · cases h
      obtain rfl : cs = [] := by simpa [hexec, hu] using hall
      exact (fits_cons _ c []).mpr ⟨hwords, hroom, fun hne => absurd rfl hne, fits_nil env _⟩
    · have hret : (env.outcome r.executed.length).returns = true := by simpa [hexited] using hu
      have hrest := ih h (by simpa [hexec] using hall)
      rw [hexec, List.length_append, List.length_singleton] at hrest
      exact (fits_cons _ c cs).mpr ⟨hwords, hroom, fun _ => hret, hrest⟩

theorem runAll_grows {cs : List Command} {r t : Run} (h : runAll env cs r = some t) :
    r.executed.length ≤ t.executed.length ∧
      (cs ≠ [] → r.executed.length < t.executed.length) := by
  induction cs generalizing r with
  | nil =>
    cases h
    exact ⟨le_refl _, fun h => absurd rfl h⟩
  | cons c cs ih =>
    rw [runAll, Option.ite_none_right_eq_some] at h
    obtain ⟨u, hu, h⟩ := Option.bind_eq_some_iff.mp h.2
    obtain ⟨-, hexec, -⟩ := executeCommand_some hu
    have hlen : u.executed.length = r.executed.length + 1 := by simp [hexec]
    have hle : u.executed.length ≤ t.executed.length := by
      split_ifs at h
      · cases h
        exact le_refl _
      · exact (ih h).1
    exact ⟨by omega, fun _ => by omega⟩

theorem moves_holds {text rest : Bytes} {stdin : Input UInt8} (h : Holds text rest stdin)
    (o : Outcome) : Holds text rest (o.moves stdin) := by
  cases o with
  | forkFailed => exact h
  | notWaited => exact h
  | gaveBack =>
    rw [Outcome.moves]
    split_ifs
    · exact h.moved _
    · exact h
  | ran moved => exact h.moved _

theorem runAll_holds {text rest : Bytes} {cs : List Command} {r t : Run}
    (hr : Holds text rest r.stdin) (h : runAll env cs r = some t) : Holds text rest t.stdin := by
  induction cs generalizing r with
  | nil =>
    cases h
    exact hr
  | cons c cs ih =>
    rw [runAll, Option.ite_none_right_eq_some] at h
    obtain ⟨u, hu, h⟩ := Option.bind_eq_some_iff.mp h.2
    obtain ⟨-, -, hstdin, -⟩ := executeCommand_some hu
    have hu : Holds text rest u.stdin := by
      rw [hstdin]
      exact moves_holds hr _
    split_ifs at h
    · cases h
      exact hu
    · exact ih hu h

/-- The command that the token loop leaves begun is executed behind it. -/
def runLast (env : Env) (p : Command × Run) : Option Run :=
  if p.2.exited then some p.2
  else if p.1.argv.length < maxCommands then executeCommand env p.1 p.2
  else none

theorem runLast_running {r : Run} (hr : r.exited = false) (c : Command) :
    runLast env (c, r) = runAll env [c] r := by
  simp only [runLast, hr, Bool.false_eq_true, if_false, runAll, ite_self]
  split_ifs
  · cases executeCommand env c r <;> rfl
  · rfl

/-- The loop over the words executes the commands that they spell out. -/
theorem runWords_pieces (ws : List Bytes) (c : Command) (r : Run) (hr : r.exited = false) :
    (runWords env ws c r).bind (runLast env) = runAll env (pieces ws c) r := by
  fun_induction runWords env ws c r with
  | case1 c r => exact runLast_running hr c
  | case2 c r => exact runLast_running hr _
  | case3 c r f ws ih => exact ih hr
  | case4 c r hgt => exact runLast_running hr _
  | case5 c r f ws hgt ih => exact ih hr
  | case6 ws c r hroom hgt hlt ih =>
    rw [pieces_bar, runAll, if_pos hroom, Option.bind_assoc]
    congr 1
    funext u
    split_ifs with hu
    · simp [runLast, hu]
    · exact ih u (by simpa using hu)
  | case7 ws c r hroom hgt hlt =>
    rw [pieces_bar, runAll, if_neg hroom]
    rfl
  | case8 w ws c r hgt hlt hbar hroom ih =>
    rw [pieces_word hgt hlt hbar]
    exact ih hr
  | case9 w ws c r hgt hlt hbar hroom =>
    obtain ⟨d, ds, hd, hle⟩ := pieces_head ws { c with argv := c.argv ++ [w] }
    rw [List.length_append] at hle
    rw [pieces_word hgt hlt hbar, hd, runAll, if_neg (by omega)]
    rfl

theorem runWords_short (ws : List Bytes) (c : Command) (r : Run) (d : Command) (r' : Run)
    (h : runWords env ws c r = some (d, r')) :
    r'.executed.length < r.executed.length + (pieces ws c).length := by
  fun_induction runWords env ws c r with
  | case1 c r =>
    cases h
    exact Nat.lt_succ_self _
  | case2 c r =>
    cases h
    exact Nat.lt_succ_self _
  | case3 c r f ws ih => exact ih h
  | case4 c r hgt =>
    cases h
    exact Nat.lt_succ_self _
  | case5 c r f ws hgt ih => exact ih h
  | case6 ws c r hroom hgt hlt ih =>
    obtain ⟨u, hu, h⟩ := Option.bind_eq_some_iff.mp h
    obtain ⟨-, hexec, -⟩ := executeCommand_some hu
    have hlen : u.executed.length = r.executed.length + 1 := by simp [hexec]
    rw [pieces_bar, List.length_cons]
    split_ifs at h with hu
    · cases h
      have := pieces_length ws noCommand
      omega
    · have := ih u h
      omega
  | case7 => cases h
  | case8 w ws c r hgt hlt hbar hroom ih =>
    rw [pieces_word hgt hlt hbar]
    exact ih h
  | case9 => cases h

end Words

section Memory

variable {env : Env}

theorem command_behind {m : Bytes} {p : ℕ} {job : Job} (h : ∀ q ∈ job.tokens, Behind m p q) :
    job.command (strtok space m p).mem = job.command m := by
  have hmap : job.tokens.map (cstrAt (strtok space m p).mem) = job.tokens.map (cstrAt m) :=
    List.map_congr_left (fun q hq => (h q hq).strtok.1)
  rw [Job.command, hmap, Job.command]

theorem runWords_gt (ws : List Bytes) (c : Command) (r : Run) :
    runWords env (ascii ">" :: ws) c r =
      runWords env ws.tail { c with output := some ws.head? } r := by
  cases ws <;> rfl

theorem runWords_lt (ws : List Bytes) (c : Command) (r : Run) :
    runWords env (ascii "<" :: ws) c r =
      runWords env ws.tail { c with input := some ws.head? } r := by
  cases ws <;> rfl

theorem runWords_bar (ws : List Bytes) (c : Command) (r : Run) :
    runWords env (ascii "|" :: ws) c r =
      if c.argv.length < maxCommands then
        (executeCommand env c r).bind (fun r =>
          if r.exited then some (noCommand, r) else runWords env ws noCommand r)
      else none := by
  have hgt : ascii "|" ≠ ascii ">" := by decide
  have hlt : ascii "|" ≠ ascii "<" := by decide
  rw [runWords.eq_def]
  dsimp only
  rw [if_neg hgt, if_neg hlt, if_pos rfl]

theorem runWords_word {w : Bytes} (hgt : ¬ w = ascii ">") (hlt : ¬ w = ascii "<")
    (hbar : ¬ w = ascii "|") (ws : List Bytes) (c : Command) (r : Run) :
    runWords env (w::ws) c r =
      if c.argv.length < maxCommands then runWords env ws { c with argv := c.argv ++ [w] } r
      else none := by
  rw [runWords.eq_def]
  dsimp only
  rw [if_neg hgt, if_neg hlt, if_neg hbar]

/-- What a finished loop hands on: the command begun and the run. -/
def handed (p : Bytes × Job × Run) : Command × Run := (p.2.1.command p.1, p.2.2)

/-- A finished loop has done what the words say, and has left alone what ends
before the place it started from. -/
structure Follows (t : Strtok) (loop : Option (Bytes × Job × Run))
    (ran : Option (Command × Run)) : Prop where
  runs : loop.map handed = ran
  keeps : ∀ r, loop = some r → ∀ q, Behind t.mem t.save q → cstrAt r.1 q = cstrAt t.mem q

theorem Follows.of_next {t : Strtok} {loop : Option (Bytes × Job × Run)}
    {ran : Option (Command × Run)} (h : Follows (next t) loop ran) :
    Follows t loop ran := by
  refine ⟨h.runs, fun r hr q hq => ?_⟩
  rw [h.keeps r hr q hq.strtok.2]
  exact hq.strtok.1

theorem Follows.stuck (t : Strtok) : Follows t none none := ⟨rfl, fun r hr => by cases hr⟩

theorem Follows.over (t : Strtok) (job : Job) (r : Run) :
    Follows t (some (t.mem, job, r)) (some (job.command t.mem, r)) :=
  ⟨rfl, fun p hp q _ => by cases hp; rfl⟩

/-- The loop over the buffer does what the loop over the words does. -/
theorem tokenLoop_words (n : ℕ) (m : Bytes) (p : ℕ) (job : Job) (r : Run)
    (hn : (cstrAt m p).length < n) (hjob : ∀ q ∈ job.tokens, Behind m p q) :
    Follows (strtok space m p) (tokenLoop env n (strtok space m p) job r)
      (runWords env (words space (cstrAt m p)) (job.command m) r) := by
  induction n generalizing m p job r with
  | zero => omega
  | succ n ih =>
    unfold tokenLoop
    cases hst : (strtok space m p).start with
    | none =>
      obtain ⟨hw, hmem, -⟩ := strtok_none hst
      rw [hw]
      refine ⟨?_, fun r hr q _ => ?_⟩
      · rw [hmem]
        rfl
      · cases hr
        rfl
    | some q =>
      obtain ⟨hw, hq, hshort⟩ := strtok_some hst
      have hcmd := command_behind hjob
      have hjob' : ∀ q ∈ job.tokens, Behind (strtok space m p).mem (strtok space m p).save q :=
        fun q hq => (hjob q hq).strtok.2
      generalize strtok space m p = t at *
      rw [hw]
      dsimp only
      obtain ⟨hhead, htail, hle⟩ := @strtok_words space t.mem t.save
      -- the next turn starts from the token that follows
      have hnext (job' : Job) (r' : Run)
          (hb : ∀ q ∈ job'.tokens, Behind t.mem t.save q) :
          Follows t (tokenLoop env n (next t) job' r')
            (runWords env (words space (cstrAt t.mem t.save)) (job'.command t.mem) r') :=
        (ih t.mem t.save job' r' (by omega) hb).of_next
      -- the file name of a redirection is taken by a call of its own
      have hfile (job' : Job) (htok : job'.tokens = job.tokens) :
          Follows t (tokenLoop env n (next (next t)) job' r)
            (runWords env (words space (cstrAt t.mem t.save)).tail (job'.command t.mem) r) := by
        have hb : ∀ q ∈ job'.tokens, Behind t.mem t.save q := by
          rw [htok]
          exact hjob'
        have h := ih (next t).mem (next t).save job' r (lt_of_le_of_lt hle (by omega))
          (fun q hq => (hb q hq).strtok.2)
        rw [show words space (cstrAt (next t).mem (next t).save) = _ from htail,
          show job'.command (next t).mem = _ from command_behind hb] at h
        apply Follows.of_next
        exact h.of_next
      have hlen : (job.command m).argv.length = job.tokens.length := List.length_map _
      split_ifs with hgt hlt hbar hroom hroom
      · rw [hgt, runWords_gt, ← hhead, ← hcmd]
        exact hfile { job with output := _ } rfl
      · rw [hlt, runWords_lt, ← hhead, ← hcmd]
        exact hfile { job with input := _ } rfl
      · rw [hbar, runWords_bar, hlen, if_pos hroom, ← hcmd]
        cases hexec : executeCommand env (job.command t.mem) r with
        | none => exact Follows.stuck t
        | some r' =>
          rw [Option.bind_some, Option.bind_some]
          split_ifs
          · exact Follows.over t noJob r'
          · exact hnext noJob r' (fun q hq => by cases hq)
      · rw [hbar, runWords_bar, hlen, if_neg hroom]
        exact Follows.stuck t
      · rw [runWords_word hgt hlt hbar, hlen, if_pos hroom, ← hcmd]
        have hb : ∀ q' ∈ job.tokens ++ [q], Behind t.mem t.save q' := by
          intro q' hq'
          rcases List.mem_append.mp hq' with hq' | hq'
          · exact hjob' q' hq'
          · rwa [List.mem_singleton.mp hq']
        have := hnext { job with tokens := job.tokens ++ [q] } r hb
        simpa [Job.command] using this
      · rw [runWords_word hgt hlt hbar, hlen, if_neg hroom]
        exact Follows.stuck t

end Memory

section Turn

variable {env : Env} {text : Bytes}

theorem cstr_chomp (m : Bytes) : cstr (chomp m) = (cstr m).takeWhile (· ≠ 10) := by
  rw [chomp, cstr_set, takeWhile_take]

theorem chomp_line (l : Line) (rest : Bytes) :
    cstr (chomp (l.bytes ++ [10, 0] ++ rest)) = l.bytes := by
  have hline : ∀ b ∈ l.bytes, (decide (b ≠ 10)) = true := by
    intro b hb
    simp only [ne_eq, decide_not, Bool.not_eq_eq_eq_not, Bool.not_true, decide_eq_false_iff_not]
    rintro rfl
    exact l.noNewline hb
  rw [cstr_chomp, List.append_assoc, cstr_append l.noNul, List.takeWhile_append_of_pos hline]
  exact List.append_nil _

theorem fgets_line (l : Line) (input : Option Bytes) :
    ∃ rest, fgets (l.bytes ++ [10]) input = some (l.bytes ++ [10, 0] ++ rest) :=
  ⟨_, by rw [fgets, if_neg (by simp), List.append_assoc l.bytes]; rfl⟩

/-- A turn on the text that it tokenises: what the buffer then reads as, and
the run. -/
def textTurn (env : Env) (line : Bytes) (r : Run) : Option (Bytes × Run) :=
  (runWords env (words space line) noCommand r).bind (fun (c, r) =>
    if r.exited then some (front space line, r)
    else if front space line = exitCommand then some (front space line, { r with exited := true })
    else if c.argv.length < maxCommands then
      (executeCommand env c r).map (fun r => (front space line, r))
    else none)

def view (s : State) : Bytes × Run := (s.input.elim [] cstr, s.toRun)

/-- The run with which the tokens are looked at, after `fgets`. -/
def ready (s : State) (stdin : Input UInt8) : Run := { s.toRun with stdin := stdin }

theorem turn_text {s : State} {read m : Bytes} {stdin : Input UInt8} (hs : s.exited = false)
    (hread : getLine env.size text 10 (maxCommandLength-1) s.stdin = (read, stdin))
    (hm : fgets read s.input = some m) :
    (turn env text s).map view = textTurn env (cstr (chomp m)) (ready s stdin) := by
  have hlen : (cstrAt (chomp m) 0).length < (chomp m).length+1 :=
    Nat.lt_succ_of_le (List.takeWhile_sublist _).length_le
  obtain ⟨hrun, hkeep⟩ := tokenLoop_words ((chomp m).length+1) (chomp m) 0 noJob
    (ready s stdin) hlen (fun q hq => by cases hq)
  rw [turn, if_neg (by simp [hs]), hread]
  dsimp only
  rw [hm, textTurn, Option.bind_some, ready]
  rw [show words space (cstr (chomp m)) = words space (cstrAt (chomp m) 0) from rfl,
    show noCommand = noJob.command (chomp m) from rfl, ← ready, ← hrun]
  cases hloop : tokenLoop env ((chomp m).length+1) (strtok space (chomp m) 0) noJob
      (ready s stdin) with
  | none => rfl
  | some p =>
    obtain ⟨m', job, r⟩ := p
    have hfront : cstr m' = front space (cstr (chomp m)) := by
      have hk := hkeep _ hloop 0 (front_behind _ _)
      rwa [(strtok_front _ _).1] at hk
    have hargs : (job.command m').argv.length = job.tokens.length := List.length_map _
    rw [Option.bind_some, Option.map_some, Option.bind_some]
    simp only [handed, finish, hfront, hargs]
    split_ifs
    · simp [view, hfront]
    · simp [view, hfront]
    · cases executeCommand env (job.command m') r <;> simp [view, hfront]
    · rfl

theorem textTurn_pieces {line : Bytes} (hline : front space line ≠ exitCommand) {r : Run}
    (hr : r.exited = false) :
    textTurn env line r =
      (runAll env (pieces (words space line) noCommand) r).map (fun t => (front space line, t)) := by
  rw [textTurn, ← runWords_pieces _ _ _ hr]
  cases runWords env (words space line) noCommand r with
  | none => rfl
  | some p =>
    rw [Option.bind_some, Option.bind_some, runLast]
    dsimp only
    split_ifs <;> rfl

theorem textTurn_cut {line : Bytes} (hline : front space line = exitCommand) {r : Run}
    {p : Bytes × Run} (h : textTurn env line r = some p) :
    p.2.executed.length < r.executed.length + (pieces (words space line) noCommand).length := by
  obtain ⟨⟨c, u⟩, hrun, h⟩ := Option.bind_eq_some_iff.mp h
  have hshort := runWords_short _ _ _ _ _ hrun
  dsimp only at h
  rw [if_pos hline] at h
  split_ifs at h <;>
  · cases h
    exact hshort

end Turn

section Run

variable {env : Env} {text : Bytes}

/-- The loop goes on with these lines to come, and what an `fgets` at end of
file would leave in the buffer is a first word that is not the exit command. -/
structure Pending (text : Bytes) (ls : List Line) (s : State) : Prop where
  running : s.exited = false
  stdin : Holds text (typedText ls) s.stdin
  left : ∀ m, s.input = some m →
    10 ∉ cstr m ∧ front space (cstr m) = cstr m ∧ cstr m ≠ exitCommand

theorem pending_start (ls : List Line) : Pending (typedText ls) ls start where
  running := rfl
  stdin := opened_holds _
  left m h := by cases h

/-- A line is the exit command, is cut to it by the tokeniser, or neither. -/
theorem front_exit (text : Bytes) :
    front space text = exitCommand ↔ text = exitCommand ∨ exitCommand ++ space <+: text := by
  have hne : exitCommand ≠ [] := by decide
  have htok : ∀ b ∈ exitCommand, b ∉ space := forall_of_all (by decide)
  rw [front_eq_iff hne htok]
  apply or_congr_right
  constructor
  · rintro ⟨d, hd, h⟩
    rwa [show space = [d] by rw [List.mem_singleton.mp hd]; rfl]
  · exact fun h => ⟨32, by decide, h⟩

theorem turn_line (env : Env) {l : Line} {ls : List Line} {s : State}
    (hs : Pending text (l::ls) s) (hin : InPlace 10 s.stdin) :
    ∃ stdin, Holds text (typedText ls) stdin ∧
      (turn env text s).map view = textTurn env l.bytes (ready s stdin) := by
  have hholds : Holds text (l.bytes ++ 10 :: typedText ls) s.stdin := by
    have h := hs.stdin
    rwa [typedText, List.flatMap_cons, List.append_assoc] at h
  have hshort : l.bytes.length < maxCommandLength-1 := Nat.lt_of_le_of_lt l.short (by decide)
  obtain ⟨stdin, hread, hrest⟩ := getLine_line env.size l.bytes l.noNewline
    (maxCommandLength-1) hshort s.stdin hholds hin
  obtain ⟨rest, hm⟩ := fgets_line l s.input
  refine ⟨stdin, hrest, ?_⟩
  rw [turn_text hs.running hread hm, chomp_line]

/-- With the line read, the turn is the run of its commands from `r`. -/
structure Executes (env : Env) (text : Bytes) (l : Line) (ls : List Line) (s : State) (r : Run) :
    Prop where
  executed : r.executed = s.executed
  running : r.exited = false
  rest : Holds text (typedText ls) r.stdin
  turn : (turn env text s).map view =
    (runAll env (commands l) r).map (fun t => (front space l.bytes, t))

/-- A line that is not cut to the exit command is executed whole, until a call
ends the shell. -/
theorem turn_executes {l : Line} {ls : List Line} {s : State} (hs : Pending text (l::ls) s)
    (hin : InPlace 10 s.stdin) (hl : front space l.bytes ≠ exitCommand) :
    ∃ r, Executes env text l ls s r := by
  obtain ⟨stdin, hrest, hturn⟩ := turn_line env hs hin
  refine ⟨ready s stdin, rfl, hs.running, hrest, ?_⟩
  rw [hturn, textTurn_pieces (r := ready s stdin) hl hs.running]
  rfl

theorem Executes.stuck {l : Line} {ls : List Line} {s : State} {r : Run}
    (h : Executes env text l ls s r) (ht : Shell.turn env text s = none) :
    ¬ Fits env s.executed.length (commands l) := by
  intro hfits
  rw [← h.executed] at hfits
  obtain ⟨u, hu, -⟩ := runAll_of_fits h.running hfits
  have hturn := h.turn
  rw [ht, hu] at hturn
  cases hturn

theorem Executes.ran {l : Line} {ls : List Line} {s t : State} {r : Run}
    (h : Executes env text l ls s r) (ht : Shell.turn env text s = some t) :
    runAll env (commands l) r = some t.toRun ∧ view t = (front space l.bytes, t.toRun) := by
  have hturn := h.turn
  rw [ht, Option.map_some] at hturn
  obtain ⟨u, hu, hview⟩ := Option.map_eq_some_iff.mp hturn.symm
  obtain rfl : t.toRun = u := (congrArg Prod.snd hview).symm
  exact ⟨hu, hview.symm⟩

theorem Executes.all {l : Line} {ls : List Line} {s t : State} {r : Run}
    (h : Executes env text l ls s r) (ht : Shell.turn env text s = some t)
    (hfits : Fits env s.executed.length (commands l)) :
    t.executed = s.executed ++ commands l ∧
      (t.exited = true ↔ Ends env s.executed.length (commands l)) := by
  rw [← h.executed] at hfits ⊢
  obtain ⟨u, hu, hall⟩ := runAll_of_fits h.running hfits
  rw [(h.ran ht).1] at hu
  cases hu
  exact hall

theorem Executes.fits {l : Line} {ls : List Line} {s t : State} {r : Run}
    (h : Executes env text l ls s r) (ht : Shell.turn env text s = some t)
    (hall : t.executed = s.executed ++ commands l ∨ t.exited = false) :
    Fits env s.executed.length (commands l) := by
  rw [← h.executed] at hall ⊢
  exact fits_of_runAll (h.ran ht).1 hall

theorem Executes.pending {l : Line} {ls : List Line} {s t : State} {r : Run}
    (h : Executes env text l ls s r) (ht : Shell.turn env text s = some t)
    (hl : front space l.bytes ≠ exitCommand) (hgo : t.exited = false) : Pending text ls t := by
  obtain ⟨hrun, hview⟩ := h.ran ht
  refine ⟨hgo, runAll_holds h.rest hrun, fun m hm => ?_⟩
  have hfront := congrArg Prod.fst hview
  rw [view, hm] at hfront
  rw [show cstr m = front space l.bytes from hfront]
  refine ⟨fun hmem => l.noNewline ?_, front_idem _, hl⟩
  rcases List.mem_append.mp hmem with hmem | hmem
  · exact (List.takeWhile_sublist _).subset hmem
  · exact (List.dropWhile_sublist _).subset ((List.takeWhile_sublist _).subset hmem)

/-- A line cut to the exit command stops the shell before its last command. -/
theorem turn_cut {l : Line} {ls : List Line} {s t : State} (hs : Pending text (l::ls) s)
    (hin : InPlace 10 s.stdin) (hl : front space l.bytes = exitCommand)
    (h : turn env text s = some t) :
    t.executed.length < s.executed.length + (commands l).length := by
  obtain ⟨stdin, -, hturn⟩ := turn_line env hs hin
  rw [h, Option.map_some] at hturn
  exact textTurn_cut hl hturn.symm

/-- At end of file the buffer is executed once more. -/
theorem turn_eof {s t : State} (hs : Pending text [] s) (hin : InPlace 10 s.stdin)
    (h : turn env text s = some t) : s.executed.length < t.executed.length := by
  cases hread : getLine env.size text 10 (maxCommandLength-1) s.stdin with | mk read stdin =>
  have hnone : read = [] := by
    rw [show read = (read, stdin).1 from rfl, ← hread]
    exact getLine_end _ _ hs.stdin hin
  have hsame : fgets read s.input = s.input := by rw [fgets, if_pos hnone]
  cases hm : s.input with
  | none =>
    rw [hm] at hsame
    simp [turn, hs.running, hread, hm, hsame] at h
  | some m =>
    obtain ⟨hline, hfront, hgo⟩ := hs.left m hm
    have htext : cstr (chomp m) = cstr m := by
      rw [cstr_chomp, List.takeWhile_eq_self_iff]
      intro b hb
      simp only [ne_eq, decide_not, Bool.not_eq_eq_eq_not, Bool.not_true, decide_eq_false_iff_not]
      rintro rfl
      exact hline hb
    have hturn := turn_text hs.running hread (hsame.trans hm)
    rw [h, htext, textTurn_pieces (r := ready s stdin) (by rwa [hfront]) hs.running,
      Option.map_some] at hturn
    obtain ⟨u, hrun, hview⟩ := Option.map_eq_some_iff.mp hturn.symm
    have hpos := pieces_length (words space (cstr m)) noCommand
    have hgrows := (runAll_grows hrun).2 (List.ne_nil_of_length_pos hpos)
    simp only [view, Prod.mk.injEq] at hview
    rwa [hview.2] at hgrows

theorem turns_exited {s : State} (h : s.exited = true) (n : ℕ) :
    turns env text n s = some s := by
  induction n with
  | zero => rfl
  | succ n ih => rw [turns, turn, if_pos h, Option.bind_some, ih]

theorem turn_exit {l : Line} {ls : List Line} {s : State} (hs : Pending text (l::ls) s)
    (hin : InPlace 10 s.stdin) (hl : l.bytes = exitCommand) :
    ∃ t, turn env text s = some t ∧ t.exited = true ∧ t.executed = s.executed := by
  obtain ⟨stdin, -, hturn⟩ := turn_line env hs hin
  have htext : textTurn env exitCommand (ready s stdin) =
      some (exitCommand, { ready s stdin with exited := true }) := by
    rw [textTurn, show words space exitCommand = [exitCommand] from rfl]
    simp [runWords, ready, hs.running, show exitCommand ≠ ascii ">" by decide,
      show exitCommand ≠ ascii "<" by decide, show exitCommand ≠ ascii "|" by decide,
      show front space exitCommand = exitCommand from rfl, noCommand, maxCommands]
  rw [hl, htext] at hturn
  obtain ⟨t, ht, hview⟩ := Option.map_eq_some_iff.mp hturn
  simp only [view, Prod.mk.injEq] at hview
  exact ⟨t, ht, by rw [hview.2], by rw [hview.2]; rfl⟩

def RunsFrom (env : Env) (text : Bytes) (ls : List Line) (s : State) : Prop :=
  ∀ n, ∃ t, turns env text n s = some t ∧ t.executed = s.executed ++ typed (ls.take n)

def UndisturbedFrom (env : Env) (text : Bytes) (s : State) : Prop :=
  ∀ n t, turns env text n s = some t → t.exited = false → InPlace 10 t.stdin

theorem UndisturbedFrom.turn {s t : State} (h : UndisturbedFrom env text s)
    (ht : turn env text s = some t) : UndisturbedFrom env text t :=
  fun n u hu => h (n+1) u (by rw [turns, ht, Option.bind_some, hu])

theorem before_exit {l : Line} (h : l.bytes = exitCommand) (ls : List Line) :
    before (l::ls) = [] := by simp [before, h]

theorem before_cons {l : Line} (h : l.bytes ≠ exitCommand) (ls : List Line) :
    before (l::ls) = l :: before ls := by simp [before, h]

theorem typed_nil : typed [] = [] := rfl

theorem typed_exit {l : Line} (h : l.bytes = exitCommand) (ls : List Line) :
    typed (l::ls) = [] := by rw [typed, before_exit h, List.flatMap_nil]

theorem typed_cons {l : Line} (h : l.bytes ≠ exitCommand) (ls : List Line) :
    typed (l::ls) = commands l ++ typed ls := by
  rw [typed, before_cons h, List.flatMap_cons, typed]

theorem commands_ne_nil (l : Line) : commands l ≠ [] :=
  List.ne_nil_of_length_pos (pieces_length _ _)

theorem before_of_typed {ls : List Line} (h : typed ls = []) : before ls = [] := by
  cases hb : before ls with
  | nil => rfl
  | cons l rest =>
    rw [typed, hb, List.flatMap_cons, List.append_eq_nil_iff] at h
    exact absurd h.1 (commands_ne_nil l)

theorem typed_take {ls : List Line} (h : typed ls = []) (n : ℕ) : typed (ls.take n) = [] := by
  cases ls with
  | nil => rw [List.take_nil, h]
  | cons l ls =>
    cases n with
    | zero => rfl
    | succ n =>
      by_cases hl : l.bytes = exitCommand
      · rw [List.take_succ_cons, typed_exit hl]
      · rw [typed_cons hl, List.append_eq_nil_iff] at h
        exact absurd h.1 (commands_ne_nil l)

theorem runsFrom_first {ls : List Line} {s : State} (h : RunsFrom env text ls s) :
    ∃ t, turn env text s = some t ∧ t.executed = s.executed ++ typed (ls.take 1) := by
  obtain ⟨u, hu, hexec⟩ := h 1
  obtain ⟨t, ht, htu⟩ := Option.bind_eq_some_iff.mp hu
  obtain rfl : t = u := Option.some.inj htu
  exact ⟨t, ht, hexec⟩

theorem not_runsFrom_nil {s : State} (hs : Pending text [] s) (hin : InPlace 10 s.stdin) :
    ¬ RunsFrom env text [] s := by
  intro h
  obtain ⟨t, ht, hexec⟩ := runsFrom_first h
  have hmore := turn_eof hs hin ht
  rw [hexec] at hmore
  simp [typed, before] at hmore

theorem not_runsFrom_cut {s : State} {l : Line} {ls : List Line} (hs : Pending text (l::ls) s)
    (hin : InPlace 10 s.stdin) (hne : l.bytes ≠ exitCommand)
    (hcut : front space l.bytes = exitCommand) : ¬ RunsFrom env text (l::ls) s := by
  intro h
  obtain ⟨t, ht, hexec⟩ := runsFrom_first h
  have hshort := turn_cut hs hin hcut ht
  rw [List.take_succ_cons, typed_cons hne] at hexec
  simp [hexec, typed_nil] at hshort

theorem runsFrom_over {s t : State} {l : Line} {ls : List Line} (hne : l.bytes ≠ exitCommand)
    (ht : turn env text s = some t) (hexited : t.exited = true) :
    RunsFrom env text (l::ls) s ↔ t.executed = s.executed ++ commands l ∧ typed ls = [] := by
  have hover (n : ℕ) : turns env text (n+1) s = some t := by
    rw [turns, ht, Option.bind_some, turns_exited hexited]
  constructor
  · intro h
    have hall (n : ℕ) : t.executed = s.executed ++ (commands l ++ typed (ls.take n)) := by
      obtain ⟨u, hu, hexec⟩ := h (n+1)
      rw [hover] at hu
      cases hu
      rwa [List.take_succ_cons, typed_cons hne] at hexec
    have hfirst := hall 0
    rw [List.take_zero, typed_nil, List.append_nil] at hfirst
    have hlast := hall ls.length
    rw [hfirst, List.take_length, ← List.append_assoc, List.self_eq_append_right] at hlast
    exact ⟨hfirst, hlast⟩
  · rintro ⟨hexec, hnone⟩ n
    cases n with
    | zero => exact ⟨s, rfl, (List.append_nil _).symm⟩
    | succ n =>
      refine ⟨t, hover n, ?_⟩
      rw [List.take_succ_cons, typed_cons hne, typed_take hnone, List.append_nil, hexec]

theorem runsFrom_cons {s t : State} {l : Line} {ls : List Line} (hne : l.bytes ≠ exitCommand)
    (ht : turn env text s = some t) (hexec : t.executed = s.executed ++ commands l) :
    RunsFrom env text (l::ls) s ↔ RunsFrom env text ls t := by
  constructor
  · intro h n
    obtain ⟨v, hv, hall⟩ := h (n+1)
    rw [turns, ht, Option.bind_some] at hv
    refine ⟨v, hv, ?_⟩
    rw [hall, hexec, List.take_succ_cons, typed_cons hne, List.append_assoc]
  · intro h n
    cases n with
    | zero => exact ⟨s, rfl, (List.append_nil _).symm⟩
    | succ n =>
      obtain ⟨v, hv, hall⟩ := h n
      refine ⟨v, by rw [turns, ht, Option.bind_some, hv], ?_⟩
      rw [hall, hexec, List.take_succ_cons, typed_cons hne, List.append_assoc]

theorem runsFrom_exit {s : State} {l : Line} {ls : List Line} (hs : Pending text (l::ls) s)
    (hin : InPlace 10 s.stdin) (hexit : l.bytes = exitCommand) :
    RunsFrom env text (l::ls) s := by
  obtain ⟨t, ht, hstop, hexec⟩ := turn_exit hs hin hexit
  intro n
  cases n with
  | zero => exact ⟨s, rfl, (List.append_nil _).symm⟩
  | succ n =>
    refine ⟨t, by rw [turns, ht, Option.bind_some, turns_exited hstop], ?_⟩
    rw [List.take_succ_cons, typed_exit hexit, List.append_nil, hexec]

theorem not_stops_nil (k : ℕ) : ¬ Stops env k [] := by
  rintro ⟨-, -, ⟨l, hl, -⟩ | hends⟩
  · cases hl
  · exact not_ends_nil k hends

theorem stops_exit (k : ℕ) {l : Line} (hexit : l.bytes = exitCommand) (ls : List Line) :
    Stops env k (l::ls) where
  no_prefix j hj := by
    rw [before_exit hexit] at hj
    cases hj
  fits := by
    rw [typed_exit hexit]
    exact fits_nil env k
  stopped := .inl ⟨l, List.mem_cons_self, hexit⟩

theorem not_stops_cut {l : Line} (hne : l.bytes ≠ exitCommand)
    (hcut : front space l.bytes = exitCommand) (k : ℕ) (ls : List Line) :
    ¬ Stops env k (l::ls) := by
  intro h
  have hpre := ((front_exit _).mp hcut).resolve_left hne
  exact h.no_prefix l (by simp [before_cons hne]) hpre

theorem stops_over {k : ℕ} {l : Line} {ls : List Line} (hl : front space l.bytes ≠ exitCommand)
    (hends : Ends env k (commands l)) :
    Stops env k (l::ls) ↔ Fits env k (commands l) ∧ typed ls = [] := by
  have hne : l.bytes ≠ exitCommand := fun h => hl ((front_exit _).mpr (.inl h))
  constructor
  · intro h
    have hfits := h.fits
    rw [typed_cons hne, fits_append] at hfits
    exact ⟨hfits.1, not_not.mp (fun hmore => hfits.2.1 hmore hends)⟩
  · rintro ⟨hfits, hnone⟩
    refine ⟨fun j hj => ?_, ?_, .inr ?_⟩
    · rw [before_cons hne, before_of_typed hnone, List.mem_singleton] at hj
      rw [hj]
      exact fun hpre => hl ((front_exit _).mpr (.inr hpre))
    · rwa [typed_cons hne, hnone, List.append_nil]
    · rwa [typed_cons hne, hnone, List.append_nil]

theorem stops_cons {k : ℕ} {l : Line} {ls : List Line} (hl : front space l.bytes ≠ exitCommand)
    (hfits : Fits env k (commands l)) (hends : ¬ Ends env k (commands l)) :
    Stops env k (l::ls) ↔ Stops env (k + (commands l).length) ls := by
  have hne : l.bytes ≠ exitCommand := fun h => hl ((front_exit _).mpr (.inl h))
  have hstopped : Ends env k (commands l ++ typed ls) ↔
      Ends env (k + (commands l).length) (typed ls) := by
    by_cases hmore : typed ls = []
    · rw [hmore, List.append_nil]
      exact iff_of_false hends (not_ends_nil _)
    · exact ends_append k _ hmore
  constructor
  · rintro ⟨hno, hall, hstop⟩
    rw [typed_cons hne] at hall hstop
    refine ⟨fun j hj => hno j (by simp [before_cons hne, hj]), ((fits_append _ _ _).mp hall).2.2,
      hstop.imp ?_ hstopped.mp⟩
    rintro ⟨e, he, hexit⟩
    exact ⟨e, (List.mem_cons.mp he).resolve_left (fun heq => hne (heq ▸ hexit)), hexit⟩
  · rintro ⟨hno, hall, hstop⟩
    refine ⟨?_, ?_, ?_⟩
    · rw [before_cons hne]
      rintro j (_ | ⟨_, hj⟩)
      · exact fun hpre => hl ((front_exit _).mpr (.inr hpre))
      · exact hno j hj
    · rw [typed_cons hne]
      exact (fits_append _ _ _).mpr ⟨hfits, fun _ => hends, hall⟩
    · rw [typed_cons hne]
      exact hstop.imp (fun ⟨e, he, hexit⟩ => ⟨e, List.mem_cons_of_mem _ he, hexit⟩) hstopped.mpr

theorem runsFrom_iff_over {s : State} {l : Line} {ls : List Line} {r : Run}
    (h : Executes env text l ls s r) (hl : front space l.bytes ≠ exitCommand)
    (hover : ∀ t, turn env text s = some t → t.exited = true) :
    RunsFrom env text (l::ls) s ↔ Stops env s.executed.length (l::ls) := by
  have hne : l.bytes ≠ exitCommand := fun h => hl ((front_exit _).mpr (.inl h))
  have hfits (hs : Stops env s.executed.length (l::ls)) :
      Fits env s.executed.length (commands l) := by
    have hall := hs.fits
    rw [typed_cons hne, fits_append] at hall
    exact hall.1
  cases ht : turn env text s with
  | none =>
    refine iff_of_false (fun hruns => ?_) (fun hs => h.stuck ht (hfits hs))
    obtain ⟨t, ht', -⟩ := runsFrom_first hruns
    rw [ht] at ht'
    cases ht'
  | some t =>
    have hgone := hover t ht
    rw [runsFrom_over hne ht hgone]
    constructor
    · rintro ⟨hall, hnone⟩
      have hf := h.fits ht (.inl hall)
      exact (stops_over hl ((h.all ht hf).2.mp hgone)).mpr ⟨hf, hnone⟩
    · intro hs
      obtain ⟨hall, hends⟩ := h.all ht (hfits hs)
      exact ⟨hall, ((stops_over hl (hends.mp hgone)).mp hs).2⟩

theorem runsFrom_iff_stops (ls : List Line) (s : State) (hs : Pending text ls s)
    (hun : UndisturbedFrom env text s) :
    RunsFrom env text ls s ↔ Stops env s.executed.length ls := by
  have hin : InPlace 10 s.stdin := hun 0 s rfl hs.running
  induction ls generalizing s with
  | nil => exact iff_of_false (not_runsFrom_nil hs hin) (not_stops_nil _)
  | cons l ls ih =>
    by_cases hexit : l.bytes = exitCommand
    · exact iff_of_true (runsFrom_exit hs hin hexit) (stops_exit _ hexit ls)
    by_cases hcut : front space l.bytes = exitCommand
    · exact iff_of_false (not_runsFrom_cut hs hin hexit hcut) (not_stops_cut hexit hcut _ ls)
    obtain ⟨r, h⟩ := turn_executes hs hin hcut
    by_cases hgo : ∃ t, turn env text s = some t ∧ t.exited = false
    · obtain ⟨t, ht, hgo⟩ := hgo
      have hfits := h.fits ht (.inr hgo)
      obtain ⟨hall, hends⟩ := h.all ht hfits
      have hnext := hun.turn ht
      rw [runsFrom_cons hexit ht hall, stops_cons hcut hfits (fun he => by simp [hends.mpr he] at hgo),
        ← List.length_append, ← hall]
      exact ih t (h.pending ht hcut hgo) hnext (hnext 0 t rfl hgo)
    · refine runsFrom_iff_over h hcut (fun t ht => ?_)
      by_contra hrun
      exact hgo ⟨t, ht, by simpa using hrun⟩

theorem tokenLoop_still (hstill : ∀ k stdin, (env.outcome k).moves stdin = stdin) (n : ℕ)
    (t : Strtok) (job : Job) (r : Run) (p : Bytes × Job × Run)
    (h : tokenLoop env n t job r = some p) : p.2.2.stdin = r.stdin := by
  fun_induction tokenLoop env n t job r with
  | case1 => cases h
  | case2 =>
    cases h
    rfl
  | case3 n t job r q hst token hgt file ih => exact ih h
  | case4 n t job r q hst token hgt hlt file ih => exact ih h
  | case5 n t job r q hst token hgt hlt hbar hroom ih =>
    obtain ⟨u, hu, h⟩ := Option.bind_eq_some_iff.mp h
    obtain ⟨-, -, hstdin, -⟩ := executeCommand_some hu
    rw [hstill] at hstdin
    split_ifs at h with hexited
    · cases h
      exact hstdin
    · exact (ih u h).trans hstdin
  | case6 => cases h
  | case7 n t job r q hst token hgt hlt hbar hroom ih => exact ih h
  | case8 => cases h

theorem turn_still (hstill : ∀ k stdin, (env.outcome k).moves stdin = stdin) {s t : State}
    (hs : s.stdin.offset = s.stdin.taken) (h : turn env text s = some t) :
    t.stdin.offset = t.stdin.taken := by
  unfold turn at h
  split_ifs at h with hexited
  · cases h
    exact hs
  · have hplace := getLine_offset env.size text 10 (maxCommandLength-1) s.stdin hs
    cases hread : getLine env.size text 10 (maxCommandLength-1) s.stdin with | mk read stdin =>
    rw [hread] at h hplace
    obtain ⟨m, -, h⟩ := Option.bind_eq_some_iff.mp h
    obtain ⟨⟨m', job, r⟩, hloop, h⟩ := Option.bind_eq_some_iff.mp h
    have hr : r.stdin = stdin := tokenLoop_still hstill _ _ _ _ _ hloop
    rw [← hr] at hplace
    dsimp only at h
    unfold finish at h
    split_ifs at h
    · cases h
      exact hplace
    · cases h
      exact hplace
    · obtain ⟨u, hu, rfl⟩ := Option.map_eq_some_iff.mp h
      obtain ⟨-, -, hstdin, -⟩ := executeCommand_some hu
      rw [hstill] at hstdin
      rwa [hstdin]

theorem undisturbed_of_still (hstill : ∀ k stdin, (env.outcome k).moves stdin = stdin)
    (ls : List Line) : Undisturbed env ls := by
  have hall (n : ℕ) (s t : State) (hs : s.stdin.offset = s.stdin.taken)
      (h : turns env (typedText ls) n s = some t) : t.stdin.offset = t.stdin.taken := by
    induction n generalizing s with
    | zero =>
      cases h
      exact hs
    | succ n ih =>
      obtain ⟨u, hu, h⟩ := Option.bind_eq_some_iff.mp h
      exact ih u (turn_still hstill hs hu) h
  exact fun n s h _ => .inr (hall n start s rfl h)

/-- When every line is read from its own place, the shell runs just what was
typed if and only if it is stopped by a line that is exactly the exit command,
or by its last call, before anything else goes wrong. -/
theorem runsTyped_iff_stops (env : Env) (ls : List Line) (h : Undisturbed env ls) :
    RunsTyped env ls ↔ Stops env 0 ls := by
  rw [← show start.executed.length = 0 from rfl,
    ← runsFrom_iff_stops ls start (pending_start ls) h]
  exact forall_congr' (fun n => by simp [show start.executed = [] from rfl])

/-- `ls`, a command that leaves the standard input alone. -/
def listing : Line where
  bytes := ascii "ls"
  noNul := by decide
  noNewline := by decide
  short := by decide

def quit : Line where
  bytes := exitCommand
  noNul := by decide
  noNewline := by decide
  short := by decide

def reading : Env := ⟨fun _ => 4095, fun _ => .ran 0⟩

theorem undisturbed_reading (ls : List Line) : Undisturbed reading ls :=
  undisturbed_of_still (fun _ stdin => by simp [reading, Outcome.moves]) ls

theorem runsTyped_quit : RunsTyped reading [listing, quit] := by
  refine (runsTyped_iff_stops reading [listing, quit] (undisturbed_reading _)).mpr
    ⟨by decide, ⟨by decide, by decide, fun _ _ => rfl⟩, .inl ⟨quit, by simp, rfl⟩⟩

/-- One line and the end of the file: the command runs again on every turn. -/
theorem listing_repeats : ¬ RunsTyped reading [listing] ∧
    ∃ s, turns reading (typedText [listing]) 3 start = some s ∧
      s.executed = List.replicate 3 ⟨[ascii "ls"], none, none⟩ := by
  refine ⟨fun h => ?_, _, rfl, rfl⟩
  obtain ⟨s, hs, hexec⟩ := h 2
  have htwo : (turns reading (typedText [listing]) 2 start).map (fun s => s.executed.length) =
      some 2 := rfl
  rw [hs, Option.map_some, hexec] at htwo
  cases htwo

end Run

end CSE344.ShellRun
