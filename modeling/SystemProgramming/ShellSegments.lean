import SystemProgramming.ShellProcess

/-!
# The HW2 shell on the words of a session

The token loop works on one buffer, which `strtok` cuts up in place. The same
process is run here on the segments of the lines, with words for pointers, and
each turn over the buffer is a run over the segments of its line.
-/

set_option autoImplicit false

namespace CSE344.ShellSegments
open CString Words ProcessFiles ShellProcess TransitionRun
open Shell (Line space next chomp exitCommand)
open ShellLines (Mode stdinFileno stdoutFileno)

variable {τ υ : Type} {env : Env}

def Vars.map (f : τ → υ) (v : Vars τ) : Vars υ where
  tokens := v.tokens.map f
  inputFd := v.inputFd
  outputFd := v.outputFd
  localChildren := v.localChildren
  numChildren := v.numChildren
  fds := v.fds
  opened := v.opened
  accesses := v.accesses
  calls := v.calls

def Result.map (f : τ → υ) : Result τ → Result υ
  | .exit v => .exit (Vars.map f v)
  | .done v => .done (Vars.map f v)

def Result.bind (r : Result τ) (f : Vars τ → Result τ) : Result τ :=
  match r with
  | .exit v => .exit v
  | .done v => f v

def item (env : Env) (i : Item) (v : Vars Bytes) : Vars Bytes :=
  match i with
  | .word w => v.word w
  | .redirect mode path => v.redirect env mode path

def items (env : Env) (its : List Item) (v : Vars Bytes) : Vars Bytes :=
  its.foldl (fun v i => item env i v) v

/-- What happens at the end of a segment. -/
def conclude (env : Env) (e : Ending) (v : Vars Bytes) : Result Bytes :=
  match e with
  | .bar => Result.bind (runCommand env id v) (fun v => .done v.bar)
  | .line => runCommand env id v
  | .quit => .exit (v.quit env)

def runSegment (env : Env) (seg : Segment) (v : Vars Bytes) : Result Bytes :=
  conclude env seg.ending (items env seg.items v)

def runSegments (env : Env) : List Segment → Vars Bytes → Result Bytes
  | [], v => .done v
  | seg::segs, v => Result.bind (runSegment env seg v) (runSegments env segs)

section Map

theorem items_append (its is : List Item) (v : Vars Bytes) :
    items env (its ++ is) v = items env is (items env its v) := List.foldl_append

theorem Result.bind_done (r : Result τ) : Result.bind r .done = r := by
  cases r <;> rfl

theorem Result.bind_assoc (r : Result τ) (f g : Vars τ → Result τ) :
    Result.bind (Result.bind r f) g = Result.bind r (fun v => Result.bind (f v) g) := by
  cases r <;> rfl

theorem runSegments_append (segs more : List Segment) (v : Vars Bytes) :
    runSegments env (segs++more) v =
      Result.bind (runSegments env segs v) (runSegments env more) := by
  induction segs generalizing v with
  | nil => rfl
  | cons seg segs ih =>
    rw [List.cons_append, runSegments, runSegments, Result.bind_assoc]
    congr 1
    funext v
    exact ih v

theorem map_word (f : τ → υ) (p : τ) (v : Vars τ) :
    Vars.map f (v.word p) = (Vars.map f v).word (f p) := by
  simp [Vars.map, Vars.word]

theorem map_runCommand (f : τ → Bytes) (v : Vars τ) :
    Result.map f (runCommand env f v) = runCommand env id (Vars.map f v) := by
  have hcalled : Vars.map f (v.called f) = (Vars.map f v).called id := by
    simp [Vars.map, Vars.called]
  have hforked : Vars.map f (v.called f).forked = ((Vars.map f v).called id).forked := by
    simp [Vars.map, Vars.called, Vars.forked]
  unfold runCommand
  rw [show (Vars.map f v).calls = v.calls from rfl]
  cases env.outcome v.calls.length with
  | forkFailed => exact congrArg Result.exit hcalled
  | waitFailed => exact congrArg Result.exit hforked
  | returned =>
    show Result.done _ = Result.done _
    rw [← hforked]
    rfl

theorem map_quit (f : τ → υ) (v : Vars τ) :
    Vars.map f (v.quit env) = (Vars.map f v).quit env := by
  unfold Vars.quit
  have htokens : (Vars.map f v).tokens = [] ↔ v.tokens = [] := List.map_eq_nil_iff
  simp only [htokens]
  split_ifs <;> rfl

theorem runCommand_tokens {read : τ → Bytes} {v u : Vars τ}
    (h : runCommand env read v = .done u) : u.tokens = [] := by
  unfold runCommand at h
  split at h
  · cases h
  · cases h
  · cases h
    rfl

end Map

section Pieces

theorem piecesFrom_ne_nil (ws : List Bytes) (begun : List Item) : piecesFrom ws begun ≠ [] := by
  fun_induction piecesFrom ws begun with
  | case1 => exact List.cons_ne_nil _ _
  | case2 => exact List.cons_ne_nil _ _
  | case3 begun f ws ih => exact ih
  | case4 => exact List.cons_ne_nil _ _
  | case5 begun hgt f ws ih => exact ih
  | case6 => exact List.cons_ne_nil _ _
  | case7 w ws begun hgt hlt hbar ih => exact ih

theorem piecesFrom_gt (ws : List Bytes) (begun : List Item) :
    piecesFrom (ascii ">" :: ws) begun =
      piecesFrom ws.tail (begun ++ [.redirect .write ws.head?]) := by
  cases ws <;> rfl

theorem piecesFrom_lt (ws : List Bytes) (begun : List Item) :
    piecesFrom (ascii "<" :: ws) begun =
      piecesFrom ws.tail (begun ++ [.redirect .read ws.head?]) := by
  cases ws <;> rfl

theorem piecesFrom_bar (ws : List Bytes) (begun : List Item) :
    piecesFrom (ascii "|" :: ws) begun = begun :: piecesFrom ws [] := by
  have hgt : ascii "|" ≠ ascii ">" := by decide
  have hlt : ascii "|" ≠ ascii "<" := by decide
  rw [piecesFrom.eq_def]
  dsimp only
  rw [if_neg hgt, if_neg hlt, if_pos rfl]

theorem piecesFrom_word {w : Bytes} (hgt : ¬ w = ascii ">") (hlt : ¬ w = ascii "<")
    (hbar : ¬ w = ascii "|") (ws : List Bytes) (begun : List Item) :
    piecesFrom (w::ws) begun = piecesFrom ws (begun ++ [.word w]) := by
  rw [piecesFrom.eq_def]
  dsimp only
  rw [if_neg hgt, if_neg hlt, if_neg hbar]

theorem runSegments_last (last : Ending) (its : List Item) (v : Vars Bytes) :
    runSegments env (endings last [its]) v = conclude env last (items env its v) := by
  show Result.bind (conclude env last (items env its v)) .done = _
  exact Result.bind_done _

theorem runSegments_bar (last : Ending) (its : List Item) (ws : List Bytes) (v : Vars Bytes) :
    runSegments env (endings last (its :: piecesFrom ws [])) v =
      Result.bind (runCommand env id (items env its v))
        (fun u => runSegments env (endings last (piecesFrom ws [])) u.bar) := by
  rw [endings, if_neg (piecesFrom_ne_nil ws []), runSegments, runSegment, conclude,
    Result.bind_assoc]
  rfl

end Pieces

section Steps

/-- What the turns of a segment change, the descriptors aside. -/
structure Stored (v u : Vars Bytes) (its : List Item) : Prop where
  tokens : u.tokens = v.tokens ++ wordsOf its
  localChildren : u.localChildren = v.localChildren+its.length
  numChildren : u.numChildren = v.numChildren
  opened : u.opened = v.opened+(redirectsOf its).length
  accesses : u.accesses =
    v.accesses ++ (List.range' v.tokens.length (wordsOf its).length).map .commandTokens
  calls : u.calls = v.calls

theorem items_stored (env : Env) (its : List Item) (v : Vars Bytes) :
    Stored v (items env its v) its := by
  induction its generalizing v with
  | nil => exact ⟨by simp [items, wordsOf], rfl, rfl, rfl, by simp [items, wordsOf], rfl⟩
  | cons i its ih =>
    obtain ⟨htokens, hlocal, hnum, hopened, haccesses, hcalls⟩ := ih (item env i v)
    rw [show items env its (item env i v) = items env (i::its) v from rfl] at *
    have hturn : (item env i v).localChildren = v.localChildren+1 := by cases i <;> rfl
    have hlength : (items env (i::its) v).localChildren = v.localChildren+(i::its).length := by
      rw [hlocal, hturn, List.length_cons]
      omega
    cases i with
    | word w =>
      refine ⟨?_, hlength, hnum, hopened, ?_, hcalls⟩
      · rw [htokens]
        simp [item, Vars.word, wordsOf]
      · rw [haccesses]
        simp [item, Vars.word, wordsOf, List.range'_succ]
    | redirect mode path =>
      refine ⟨htokens, hlength, hnum, ?_, haccesses, hcalls⟩
      have hone : (item env (.redirect mode path) v).opened = v.opened+1 := rfl
      rw [hopened, hone, redirectsOf, redirectsOf, List.filterMap_cons, List.length_cons]
      omega

theorem runSegment_quit {seg : Segment} (h : seg.ending = .quit) (v : Vars Bytes) :
    runSegment env seg v = .exit ((items env seg.items v).quit env) := by
  rw [runSegment, h]
  rfl

/-- The variables at the start of the next segment. -/
def settled (seg : Segment) (v : Vars Bytes) : Vars Bytes :=
  { v with
    inputFd := stdinFileno
    outputFd := stdoutFileno
    tokens := []
    localChildren := v.localChildren + if seg.ending = .bar then 1 else 0 }

/-- The variables behind a segment whose command returned. -/
def behind (env : Env) (seg : Segment) (v : Vars Bytes) : Vars Bytes :=
  settled seg ((items env seg.items v).called id).forked

theorem conclude_call {e : Ending} (h : e ≠ .quit) (v : Vars Bytes) :
    conclude env e v = Result.bind (runCommand env id v) (fun u =>
      .done { u with localChildren := u.localChildren + if e = .bar then 1 else 0 }) := by
  cases e with
  | bar => rfl
  | line => exact (Result.bind_done _).symm
  | quit => exact absurd rfl h

theorem runSegment_call {seg : Segment} (h : seg.ending ≠ .quit) (v : Vars Bytes) :
    runSegment env seg v = match env.outcome v.calls.length with
      | .forkFailed => .exit ((items env seg.items v).called id)
      | .waitFailed => .exit ((items env seg.items v).called id).forked
      | .returned => .done (behind env seg v) := by
  rw [runSegment, conclude_call h, runCommand, (items_stored env seg.items v).calls]
  cases env.outcome v.calls.length with
  | forkFailed => rfl
  | waitFailed => rfl
  | returned => rfl

def callOf (env : Env) (seg : Segment) (v : Vars Bytes) : Call :=
  ⟨(items env seg.items v).tokens, (items env seg.items v).inputFd,
    (items env seg.items v).outputFd, (items env seg.items v).fds⟩

/-- The calls of `execute_command` that a run makes. -/
def callsOf (env : Env) : List Segment → Vars Bytes → List Call
  | [], _ => []
  | seg::segs, v =>
    if seg.ending = .quit then []
    else callOf env seg v ::
      if env.outcome v.calls.length = .returned then callsOf env segs (behind env seg v) else []

theorem called_calls (env : Env) (seg : Segment) (v : Vars Bytes) :
    ((items env seg.items v).called id).calls = v.calls ++ [callOf env seg v] := by
  rw [Vars.called, List.map_id, (items_stored env seg.items v).calls, callOf]

theorem behind_calls (env : Env) (seg : Segment) (v : Vars Bytes) :
    (behind env seg v).calls = v.calls ++ [callOf env seg v] := called_calls env seg v

theorem behind_calls_length (env : Env) (seg : Segment) (v : Vars Bytes) :
    (behind env seg v).calls.length = v.calls.length+1 := by
  rw [behind_calls, List.length_append, List.length_singleton]

theorem runSegments_done_iff {seg : Segment} {segs : List Segment} {v u : Vars Bytes} :
    runSegments env (seg::segs) v = .done u ↔ seg.ending ≠ .quit ∧
      env.outcome v.calls.length = .returned ∧
      runSegments env segs (behind env seg v) = .done u := by
  rw [runSegments]
  by_cases hquit : seg.ending = .quit
  · simp [runSegment_quit hquit, hquit, Result.bind]
  · rw [runSegment_call hquit]
    cases env.outcome v.calls.length with
    | forkFailed => simp [Result.bind]
    | waitFailed => simp [Result.bind]
    | returned => simp [Result.bind, hquit]

theorem runSegments_calls (env : Env) (segs : List Segment) (v : Vars Bytes) :
    (runSegments env segs v).vars.calls = v.calls ++ callsOf env segs v := by
  induction segs generalizing v with
  | nil => exact (List.append_nil _).symm
  | cons seg segs ih =>
    rw [runSegments, callsOf]
    by_cases hquit : seg.ending = .quit
    · rw [runSegment_quit hquit, if_pos hquit, List.append_nil]
      show ((items env seg.items v).quit env).calls = v.calls
      rw [← (items_stored env seg.items v).calls, Vars.quit]
      split_ifs <;> rfl
    · have hcalls := called_calls env seg v
      rw [runSegment_call hquit, if_neg hquit]
      cases hout : env.outcome v.calls.length with
      | forkFailed => exact hcalls
      | waitFailed => exact hcalls
      | returned =>
        have hrest := ih (behind env seg v)
        rw [behind_calls, List.append_assoc, List.singleton_append] at hrest
        rw [if_pos rfl]
        exact hrest

/-- Between two segments; the standard descriptors are as the shell found them. -/
structure AtPrompt (v : Vars τ) : Prop where
  tokens : v.tokens = []
  inputFd : v.inputFd = stdinFileno
  outputFd : v.outputFd = stdoutFileno
  stdin : lookup v.fds 0 = some .terminal
  stdout : lookup v.fds 1 = some .terminal

theorem atPrompt_init (inherited : Table File) : AtPrompt (initVars inherited : Vars τ) where
  tokens := rfl
  inputFd := rfl
  outputFd := rfl
  stdin := rfl
  stdout := rfl

theorem item_lookup (env : Env) (i : Item) (v : Vars Bytes) {n : ℕ} {x : File}
    (h : lookup v.fds n = some x) :
    lookup (item env i v).fds n = some x := by
  cases i with
  | word w => exact h
  | redirect mode path =>
    show lookup (v.openFile env mode path).2 n = some x
    unfold Vars.openFile
    cases path with
    | none => exact h
    | some path =>
      dsimp only
      split_ifs
      · exact lookup_install h _
      · exact h

theorem items_lookup (env : Env) (its : List Item) (v : Vars Bytes) {n : ℕ} {x : File}
    (h : lookup v.fds n = some x) : lookup (items env its v).fds n = some x := by
  induction its generalizing v with
  | nil => exact h
  | cons i its ih => exact ih (item env i v) (item_lookup env i v h)

theorem behind_atPrompt (env : Env) (seg : Segment) {v : Vars Bytes} (h : AtPrompt v) :
    AtPrompt (behind env seg v) where
  tokens := rfl
  inputFd := rfl
  outputFd := rfl
  stdin := items_lookup env seg.items v h.stdin
  stdout := items_lookup env seg.items v h.stdout

theorem runSegments_atPrompt (segs : List Segment) (v u : Vars Bytes) (h : AtPrompt v)
    (hrun : runSegments env segs v = .done u) : AtPrompt u := by
  induction segs generalizing v with
  | nil =>
    cases hrun
    exact h
  | cons seg segs ih =>
    obtain ⟨-, -, hrest⟩ := runSegments_done_iff.mp hrun
    exact ih _ (behind_atPrompt env seg h) hrest

end Steps

section Loop

theorem map_behind {m : Bytes} {p : ℕ} {v : Vars ℕ} (h : ∀ q ∈ v.tokens, Behind m p q) :
    Vars.map (cstrAt (strtok space m p).mem) v = Vars.map (cstrAt m) v := by
  have htokens : v.tokens.map (cstrAt (strtok space m p).mem) = v.tokens.map (cstrAt m) :=
    List.map_congr_left (fun q hq => (h q hq).strtok.1)
  rw [Vars.map, htokens, Vars.map]

/-- The loop ends with `m'` in the buffer, in which the strings are whole that
end before the place it started from. -/
structure Loops (env : Env) (last : Ending) (t : Strtok) (loop : Option (Bytes × Result ℕ))
    (result : Result Bytes) : Prop where
  ends : ∃ m' r, loop = some (m', r) ∧
    result = Result.bind (Result.map (cstrAt m') r) (conclude env last) ∧
    ∀ q, Behind t.mem t.save q → cstrAt m' q = cstrAt t.mem q

theorem Loops.of_next {last : Ending} {t : Strtok} {loop : Option (Bytes × Result ℕ)}
    {result : Result Bytes} (h : Loops env last (next t) loop result) :
    Loops env last t loop result := by
  obtain ⟨m', r, hloop, hresult, hkeep⟩ := h.ends
  refine ⟨m', r, hloop, hresult, fun q hq => ?_⟩
  rw [hkeep q hq.strtok.2]
  exact hq.strtok.1

/-- The loop over the buffer runs the segments of the words that are left, the
segment included of which `its` were read before. -/
theorem tokenLoop_segments (env : Env) (last : Ending) (n : ℕ) (m : Bytes) (p : ℕ) (v : Vars ℕ)
    (its : List Item) (v0 : Vars Bytes) (hn : (cstrAt m p).length < n)
    (htokens : ∀ q ∈ v.tokens, Behind m p q)
    (hv : Vars.map (cstrAt m) v = items env its v0) :
    Loops env last (strtok space m p) (tokenLoop env n (strtok space m p) v)
      (runSegments env (endings last (piecesFrom (words space (cstrAt m p)) its)) v0) := by
  induction n generalizing m p v its v0 with
  | zero => omega
  | succ n ih =>
    unfold tokenLoop
    cases hst : (strtok space m p).start with
    | none =>
      obtain ⟨hw, hmem, -⟩ := strtok_none hst
      rw [hw]
      refine ⟨_, _, rfl, ?_, fun q _ => rfl⟩
      rw [hmem, piecesFrom, runSegments_last, ← hv]
      rfl
    | some q =>
      obtain ⟨hw, hq, hshort⟩ := strtok_some hst
      have hsame := map_behind htokens
      have htokens' : ∀ q ∈ v.tokens, Behind (strtok space m p).mem (strtok space m p).save q :=
        fun q hq => (htokens q hq).strtok.2
      generalize strtok space m p = t at *
      rw [hw]
      dsimp only
      obtain ⟨hhead, htail, hle⟩ := @strtok_words space t.mem t.save
      rw [← hsame] at hv
      -- the word behind an operator is its file
      have hfile (mode : Mode) : Loops env last t
          (tokenLoop env n (next (next t))
            (v.redirect env mode ((next t).start.map (cstrAt (next t).mem))))
          (runSegments env (endings last (piecesFrom (words space (cstrAt t.mem t.save)).tail
            (its ++ [.redirect mode (words space (cstrAt t.mem t.save)).head?]))) v0) := by
        rw [← htail, ← hhead]
        apply Loops.of_next
        apply Loops.of_next
        apply ih _ _ _ _ _ (lt_of_le_of_lt hle (by omega))
        · exact fun q hq => (htokens' q hq).strtok.2
        · rw [items_append, ← hv, ← map_behind (p := t.save) htokens']
          rfl
      split_ifs with hgt hlt hbar
      · rw [hgt, piecesFrom_gt]
        exact hfile .write
      · rw [hlt, piecesFrom_lt]
        exact hfile .read
      · rw [hbar, piecesFrom_bar, runSegments_bar, ← hv, ← map_runCommand]
        cases hrun : runCommand env (cstrAt t.mem) v with
        | exit u => exact ⟨t.mem, .exit u, rfl, rfl, fun q _ => rfl⟩
        | done u =>
          apply Loops.of_next
          apply ih _ _ _ _ _ (by omega)
          · intro q hq
            rw [Vars.bar, runCommand_tokens hrun] at hq
            cases hq
          · rfl
      · rw [piecesFrom_word hgt hlt hbar]
        apply Loops.of_next
        apply ih _ _ _ _ _ (by omega)
        · intro q' hq'
          rcases List.mem_append.mp hq' with hq' | hq'
          · exact htokens' q' hq'
          · rwa [List.mem_singleton.mp hq']
        · rw [items_append, ← hv, map_word]
          rfl

end Loop

section Session

theorem quits_iff (text : Bytes) : front space text = exitCommand ↔ Quits text := by
  refine ⟨fun h => by_contra (fun hnot => ShellLines.front_ne_exit hnot h), fun h => ?_⟩
  have hsplit := List.takeWhile_append_dropWhile (p := (· ≠ 32)) (l := text)
  rw [h] at hsplit
  rw [front_eq_iff (by decide) (forall_of_all (by decide))]
  cases hdrop : text.dropWhile (· ≠ 32) with
  | nil =>
    rw [hdrop, List.append_nil] at hsplit
    exact .inl hsplit.symm
  | cons d rest =>
    have hcons : text.dropWhile (· ≠ 32) ≠ [] := by
      rw [hdrop]
      exact List.cons_ne_nil d rest
    have hd := List.head_dropWhile_not (· ≠ (32 : UInt8)) hcons
    simp only [hdrop, List.head_cons, decide_eq_false_iff_not, not_not] at hd
    refine .inr ⟨d, by rw [hd]; decide, rest, ?_⟩
    rw [List.append_assoc, List.singleton_append, ← hdrop, hsplit]

theorem fgets_entered (l : Line) (input : Option Bytes) :
    ∃ m, ShellLines.fgets (entered l) input = some m ∧ cstr (chomp m) = l.bytes :=
  ShellLines.typed_text l.noNul l.noNewline l.short (.inl rfl) input

/-- A turn on a line runs the segments of the line; an exit command ends it. -/
theorem turn_segments (env : Env) (l : Line) (s : State) (hs : s.exited = false)
    (htokens : s.vars.tokens = []) (f : ℕ → Bytes) : ∃ m r,
      turn env (entered l) s = some (Result.state m r) ∧
      runSegments env (segments l.bytes) (Vars.map f s.vars) = Result.map (cstrAt m) r ∧
      (Quits l.bytes → ∃ v, r = .exit v) ∧ (∀ v, r = .done v → v.tokens = []) := by
  obtain ⟨m, hm, htext⟩ := fgets_entered l s.input
  have hnone : ∀ q ∈ s.vars.tokens, Behind (chomp m) 0 q := by
    rw [htokens]
    exact fun q hq => by cases hq
  have hblank : Vars.map (cstrAt (chomp m)) s.vars = items env [] (Vars.map f s.vars) := by
    rw [Vars.map, htokens, items, List.foldl_nil, Vars.map, htokens]
    rfl
  obtain ⟨m', r, hloop, hrun, hkeep⟩ := (tokenLoop_segments env
    (if Quits l.bytes then .quit else .line) ((chomp m).length+1) (chomp m) 0 s.vars [] _
    (Nat.lt_succ_of_le (List.takeWhile_sublist _).length_le) hnone hblank).ends
  rw [show cstrAt (chomp m) 0 = l.bytes from htext] at hrun
  have hfront : cstr m' = front space l.bytes := by
    rw [← htext]
    exact (hkeep 0 (front_behind _ _)).trans (strtok_front _ _).1
  rw [turn, if_neg (by simp [hs]), hm, Option.bind_some]
  dsimp only
  rw [hloop, Option.map_some, segments, hrun]
  cases r with
  | exit v => exact ⟨m', .exit v, rfl, rfl, fun _ => ⟨v, rfl⟩, fun _ h => by cases h⟩
  | done v =>
    refine ⟨m', finish env m' v, rfl, ?_⟩
    by_cases hq : Quits l.bytes
    · have hfinish : finish env m' v = .exit (v.quit env) := by
        rw [finish, if_pos (hfront.trans ((quits_iff _).mpr hq))]
      rw [hfinish, if_pos hq]
      exact ⟨congrArg Result.exit (map_quit _ v).symm, fun _ => ⟨_, rfl⟩, fun _ h => by cases h⟩
    · have hfinish : finish env m' v = runCommand env (cstrAt m') v := by
        rw [finish, if_neg (fun h => hq ((quits_iff _).mp (hfront.symm.trans h)))]
      rw [hfinish, if_neg hq]
      exact ⟨(map_runCommand _ v).symm, fun h => absurd h hq, fun u hu => runCommand_tokens hu⟩

theorem run_exited (reads : List (Option Bytes)) {s : State} (hs : s.exited = true) :
    run (turn env) reads s = some s := by
  induction reads with
  | nil => rfl
  | cons read reads ih =>
    rw [run, turn, if_pos hs]
    exact ih

/-- The shell has come as far as a run over segments; its pointers are read as words. -/
structure Ran (t : State) (result : Result Bytes) : Prop where
  vars : ∃ f, result = if t.exited then .exit (Vars.map f t.vars) else .done (Vars.map f t.vars)
  tokens : t.exited = false → t.vars.tokens = []

/-- A session runs its segments. -/
theorem session_runs (env : Env) (ls : List Line) (s : State) (hs : s.exited = false)
    (htokens : s.vars.tokens = []) (f : ℕ → Bytes) :
    ∃ t, run (turn env) (ls.map entered) s = some t ∧
      Ran t (runSegments env (session ls) (Vars.map f s.vars)) := by
  induction ls generalizing s f with
  | nil => exact ⟨s, rfl, ⟨f, by rw [if_neg (by simp [hs])]; rfl⟩, fun _ => htokens⟩
  | cons l ls ih =>
    obtain ⟨m, r, hturn, hrun, hquit, hdone⟩ := turn_segments env l s hs htokens f
    rw [List.map_cons, run, hturn, Option.bind_some, session, runSegments_append, hrun]
    cases r with
    | exit v => exact ⟨_, run_exited _ rfl, ⟨cstrAt m, rfl⟩, fun h => by cases h⟩
    | done v =>
      have hq : ¬ Quits l.bytes := fun hq => by
        obtain ⟨u, hu⟩ := hquit hq
        cases hu
      rw [if_neg hq]
      exact ih _ rfl (hdone v rfl) (cstrAt m)

theorem atPrompt_map {f : τ → υ} {v : Vars τ} (h : AtPrompt (Vars.map f v)) : AtPrompt v :=
  ⟨List.map_eq_nil_iff.mp h.tokens, h.inputFd, h.outputFd, h.stdin, h.stdout⟩

theorem start_runs (env : Env) (inherited : Table File) (ls : List Line) :
    ∃ t, run (turn env) (ls.map entered) (start inherited) = some t ∧
      Ran t (runSegments env (session ls) (initVars inherited)) :=
  session_runs env ls (start inherited) rfl rfl (fun _ => [])

theorem session_ran {inherited : Table File} {ls : List Line} {s : State}
    (h : run (turn env) (ls.map entered) (start inherited) = some s) :
    Ran s (runSegments env (session ls) (initVars inherited)) := by
  obtain ⟨t, ht, hran⟩ := start_runs env inherited ls
  rw [h] at ht
  cases ht
  exact hran

theorem session_atPrompt {inherited : Table File} {ls : List Line} {s : State}
    (h : run (turn env) (ls.map entered) (start inherited) = some s) (hs : s.exited = false) :
    AtPrompt s.vars := by
  obtain ⟨f, hf⟩ := (session_ran h).vars
  rw [if_neg (by simp [hs])] at hf
  exact atPrompt_map (runSegments_atPrompt _ _ _ (atPrompt_init inherited) hf)

theorem line_runs {inherited : Table File} {ls : List Line} {s : State} (l : Line)
    (h : run (turn env) (ls.map entered) (start inherited) = some s) (hs : s.exited = false)
    (f : ℕ → Bytes) : ∃ t, turn env (entered l) s = some t ∧
      t.vars.calls = s.vars.calls ++ callsOf env (segments l.bytes) (Vars.map f s.vars) ∧
      AtPrompt (Vars.map f s.vars) := by
  have hprompt := session_atPrompt h hs
  obtain ⟨m, r, hturn, hrun, -⟩ := turn_segments env l s hs hprompt.tokens f
  refine ⟨_, hturn, ?_, by rw [Vars.map, hprompt.tokens]; rfl, hprompt.inputFd, hprompt.outputFd,
    hprompt.stdin, hprompt.stdout⟩
  have hcalls := runSegments_calls env (segments l.bytes) (Vars.map f s.vars)
  rw [hrun] at hcalls
  cases r <;> exact hcalls

/-- Everything succeeds. -/
def steady : Env := ⟨fun _ => true, fun _ => .returned, true⟩

end Session

end CSE344.ShellSegments
