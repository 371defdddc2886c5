import SystemProgramming.ShellForms

/-!
# What the commands of the HW2 shell read and write

The child gives its command two standard descriptors. Each is the file that
the last operator of its kind opened, and the terminal where there is no such
operator, where it has no target or where the `open` failed; nothing else that
the session has opened by then, and no bar, makes a difference.
-/

set_option autoImplicit false

namespace CSE344.ShellRedirects
open CString ProcessFiles ShellProcess ShellSegments ShellForms TransitionRun
open Shell (Line)
open ShellLines (Mode stdinFileno stdoutFileno)

/-- The file that a command is to find, when `k` redirections came before its segment. -/
def target (env : Env) (mode : Mode) (k : ℕ) (rs : List (Mode × Option Bytes)) : File :=
  match lastOf mode k rs with
  | some ((_, some path), n) => if env.opens n then .named mode path else .terminal
  | _ => .terminal

def standard : Mode → ℕ
  | .read => 0
  | .write => 1

/-- The command of a segment, called with its words on its files. -/
structure Served (env : Env) (k : ℕ) (seg : Segment) (c : Call) : Prop where
  argv : c.argv = wordsOf seg.items
  stdin : lookup c.child 0 = some (target env .read k (redirectsOf seg.items))
  stdout : lookup c.child 1 = some (target env .write k (redirectsOf seg.items))

/-- One call for each segment, up to the exit command's or the first call that
does not return; `k` redirections and `n` calls came before. -/
def AllServed (env : Env) : ℕ → ℕ → List Segment → List Call → Prop
  | _, _, [], cs => cs = []
  | k, n, seg::segs, cs =>
    if seg.ending = .quit then cs = []
    else ∃ c rest, cs = c::rest ∧ Served env k seg c ∧
      if env.outcome n = .returned then
        AllServed env (k+(redirectsOf seg.items).length) (n+1) segs rest
      else rest = []

section Child

theorem lookup_set_self {t : Table File} {n : ℕ} (x : File) (h : lookup t n ≠ none) :
    lookup (t.set n (some x)) n = some x := by
  have hlt : n < t.length := by
    by_contra hge
    rw [lookup, List.getElem?_eq_none (Nat.not_lt.mp hge)] at h
    exact h rfl
  rw [lookup, List.getElem?_set_self hlt]
  rfl

theorem lookup_set_ne {t : Table File} {n m : ℕ} (x : Option File) (h : n ≠ m) :
    lookup (t.set m x) n = lookup t n := by
  rw [lookup, List.getElem?_set_ne (Ne.symm h), lookup]

theorem redirected_kept {fd : ℤ} {std : ℕ} (t : Table File) (h : fd < 0 ∨ fd = std) :
    redirected fd std t = t := by
  unfold redirected
  rcases h with h | rfl
  · rw [if_pos (by omega)]
    simp [dup2, h]
  · rw [if_neg (by simp)]

theorem redirected_moved {fd : ℤ} {std : ℕ} {t : Table File} {x : File} (h0 : 0 ≤ fd)
    (hne : fd ≠ std) (hx : lookup t fd.toNat = some x) :
    redirected fd std t = close (t.set std (some x)) fd.toNat := by
  have hpos : ¬ fd < 0 := by omega
  rw [redirected, if_pos hne]
  simp [dup2, hpos, hx]

/-- What stands at a descriptor, or at the standard one in its place. -/
structure Source (fd : ℤ) (std : ℕ) (t : Table File) (x : File) : Prop where
  kept : fd < 0 ∨ fd = std → lookup t std = some x
  moved : 0 ≤ fd → fd ≠ std → 2 ≤ fd ∧ lookup t fd.toNat = some x

theorem redirected_std {fd : ℤ} {std : ℕ} {t : Table File} {x y : File}
    (h : Source fd std t x) (hstd : lookup t std = some y) (hlow : std < 2) :
    lookup (redirected fd std t) std = some x := by
  by_cases hk : fd < 0 ∨ fd = std
  · rw [redirected_kept t hk]
    exact h.kept hk
  · push Not at hk
    obtain ⟨hfd, hx⟩ := h.moved hk.1 hk.2
    rw [redirected_moved hk.1 hk.2 hx, lookup_close_ne _ (by omega),
      lookup_set_self x (by simp [hstd])]

theorem redirected_other {fd : ℤ} {std n : ℕ} {t : Table File} {x : File}
    (h : Source fd std t x) (hn : n ≠ std) (hfd : 0 ≤ fd → fd ≠ std → n ≠ fd.toNat) :
    lookup (redirected fd std t) n = lookup t n := by
  by_cases hk : fd < 0 ∨ fd = std
  · rw [redirected_kept t hk]
  · push Not at hk
    rw [redirected_moved hk.1 hk.2 (h.moved hk.1 hk.2).2, lookup_close_ne _ (hfd hk.1 hk.2),
      lookup_set_ne _ hn]

end Child

section Segment

variable {env : Env}

/-- `input_fd` and `output_fd` while a segment is read, when `k` redirections came before it. -/
structure Loaded (env : Env) (k : ℕ) (its : List Item) (v : Vars Bytes) : Prop where
  stdin : lookup v.fds 0 = some .terminal
  stdout : lookup v.fds 1 = some .terminal
  source : ∀ mode, Source (fdOf mode v) (standard mode) v.fds
    (target env mode k (redirectsOf its))
  apart : 0 ≤ v.inputFd → v.inputFd ≠ v.outputFd

theorem loaded_start (env : Env) (k : ℕ) {v : Vars Bytes} (h : AtPrompt v) :
    Loaded env k [] v where
  stdin := h.stdin
  stdout := h.stdout
  source mode := by
    cases mode with
    | read => exact ⟨fun _ => h.stdin, fun _ hne => absurd h.inputFd hne⟩
    | write => exact ⟨fun _ => h.stdout, fun _ hne => absurd h.outputFd hne⟩
  apart _ := by
    rw [h.inputFd, h.outputFd]
    decide

theorem target_redirect (mode mode' : Mode) (k : ℕ) (rs : List (Mode × Option Bytes))
    (path : Option Bytes) : target env mode k (rs ++ [(mode', path)]) =
      if mode' = mode then
        match path with
        | some path => if env.opens (k+rs.length) then .named mode path else .terminal
        | none => .terminal
      else target env mode k rs := by
  rw [target, lastOf_concat]
  by_cases hmode : mode' = mode
  · rw [if_pos hmode, if_pos hmode]
    cases path <;> rfl
  · rw [if_neg hmode, if_neg hmode]
    rfl

theorem Source.install {fd : ℤ} {std : ℕ} {t : Table File} {x : File} (h : Source fd std t x)
    (y : File) : Source fd std (install t y) x where
  kept hk := lookup_install (h.kept hk) y
  moved h0 hne := ⟨(h.moved h0 hne).1, lookup_install (h.moved h0 hne).2 y⟩

theorem Source.failed {std : ℕ} {t : Table File} {x : File} (h : lookup t std = some x) :
    Source (-1) std t x where
  kept _ := h
  moved h0 := absurd h0 (by decide)

theorem Loaded.terminal {k : ℕ} {its : List Item} {v : Vars Bytes} (h : Loaded env k its v) :
    ∀ mode, lookup v.fds (standard mode) = some .terminal
  | .read => h.stdin
  | .write => h.stdout

theorem Loaded.fresh {k : ℕ} {its : List Item} {v : Vars Bytes} (h : Loaded env k its v) :
    2 ≤ free v.fds ∧ ∀ mode, fdOf mode v ≠ free v.fds := by
  have h0 := ne_free h.stdin
  have h1 := ne_free h.stdout
  refine ⟨by omega, fun mode heq => ?_⟩
  have hlow : standard mode < 2 := by cases mode <;> decide
  obtain ⟨-, hx⟩ := (h.source mode).moved (by omega) (by omega)
  exact ne_free hx (by omega)

theorem loaded_failed {k : ℕ} {its : List Item} {v : Vars Bytes} (h : Loaded env k its v)
    (mode' : Mode) (path : Option Bytes) (hfail : v.openFile env mode' path = (-1, v.fds))
    (htarget : target env mode' k (redirectsOf its ++ [(mode', path)]) = .terminal) :
    Loaded env k (its ++ [.redirect mode' path]) (v.redirect env mode' path) := by
  have hfds : (v.redirect env mode' path).fds = v.fds := congrArg Prod.snd hfail
  have hredirects : redirectsOf (its ++ [.redirect mode' path]) =
      redirectsOf its ++ [(mode', path)] := by simp [redirectsOf]
  refine ⟨hfds ▸ h.stdin, hfds ▸ h.stdout, fun mode => ?_, ?_⟩
  · rw [hfds, fdOf_redirect, hredirects]
    by_cases hmode : mode' = mode
    · subst hmode
      rw [if_pos rfl, hfail, htarget]
      exact Source.failed (h.terminal mode')
    · rw [if_neg hmode, target_redirect, if_neg hmode]
      exact h.source mode
  · have hapart := h.apart
    cases mode' with
    | read =>
      show 0 ≤ (v.openFile env .read path).1 → _
      rw [hfail]
      intro h0
      exact absurd h0 (by simp)
    | write =>
      show 0 ≤ v.inputFd → v.inputFd ≠ (v.openFile env .write path).1
      rw [hfail]
      intro h0 heq
      rw [heq] at h0
      exact absurd h0 (by simp)

theorem loaded_opened {k : ℕ} {its : List Item} {v : Vars Bytes} (h : Loaded env k its v)
    (mode' : Mode) (path : Bytes)
    (hopen : v.openFile env mode' (some path) =
      ((free v.fds : ℤ), install v.fds (.named mode' path)))
    (htarget : target env mode' k (redirectsOf its ++ [(mode', some path)]) = .named mode' path) :
    Loaded env k (its ++ [.redirect mode' (some path)]) (v.redirect env mode' (some path)) := by
  have hfds : (v.redirect env mode' (some path)).fds = install v.fds (.named mode' path) :=
    congrArg Prod.snd hopen
  have hredirects : redirectsOf (its ++ [.redirect mode' (some path)]) =
      redirectsOf its ++ [(mode', some path)] := by simp [redirectsOf]
  obtain ⟨hlow, hnew⟩ := h.fresh
  refine ⟨hfds ▸ lookup_install h.stdin _, hfds ▸ lookup_install h.stdout _, fun mode => ?_, ?_⟩
  · rw [hfds, fdOf_redirect, hredirects]
    by_cases hmode : mode' = mode
    · subst hmode
      rw [if_pos rfl, hopen, htarget]
      have hstd : standard mode' < 2 := by cases mode' <;> decide
      refine ⟨fun hk => ?_, fun _ _ => ⟨by omega, ?_⟩⟩
      · simp only at hk
        omega
      · rw [Int.toNat_natCast]
        exact lookup_install_free _ _
    · rw [if_neg hmode, target_redirect, if_neg hmode]
      exact (h.source mode).install _
  · cases mode' with
    | read =>
      show 0 ≤ (v.openFile env .read (some path)).1 →
        (v.openFile env .read (some path)).1 ≠ v.outputFd
      rw [hopen]
      exact fun _ => (hnew .write).symm
    | write =>
      show 0 ≤ v.inputFd → v.inputFd ≠ (v.openFile env .write (some path)).1
      rw [hopen]
      exact fun _ => hnew .read

theorem loaded_item {k : ℕ} {its : List Item} {v : Vars Bytes} (h : Loaded env k its v)
    (hopened : v.opened = k+(redirectsOf its).length) (i : Item) :
    Loaded env k (its ++ [i]) (item env i v) := by
  cases i with
  | word w =>
    have hredirects : redirectsOf (its ++ [.word w]) = redirectsOf its := by simp [redirectsOf]
    refine ⟨h.stdin, h.stdout, fun mode => ?_, h.apart⟩
    rw [hredirects]
    exact h.source mode
  | redirect mode' path =>
    have htarget : target env mode' k (redirectsOf its ++ [(mode', path)]) = _ :=
      target_redirect mode' mode' k (redirectsOf its) path
    rw [if_pos rfl, ← hopened] at htarget
    cases path with
    | none => exact loaded_failed h mode' none rfl htarget
    | some path =>
      by_cases hok : env.opens v.opened = true
      · exact loaded_opened h mode' path (by simp [Vars.openFile, hok]) (by simp [htarget, hok])
      · exact loaded_failed h mode' (some path) (by simp [Vars.openFile, hok])
          (by simp [htarget, hok])

theorem items_loaded (env : Env) (its : List Item) {v : Vars Bytes} (h : AtPrompt v) :
    Loaded env v.opened its (items env its v) := by
  induction its using List.reverseRecOn with
  | nil => exact loaded_start env v.opened h
  | append_singleton its i ih =>
    rw [items_append]
    exact loaded_item ih (items_stored env its v).opened i

theorem callOf_served (env : Env) (seg : Segment) {v : Vars Bytes} (h : AtPrompt v) :
    Served env v.opened seg (callOf env seg v) := by
  have hl := items_loaded env seg.items h
  generalize hu : items env seg.items v = u at hl
  have hin := hl.source .read
  have hout := hl.source .write
  have hchild : (callOf env seg v).child =
      redirected u.outputFd 1 (redirected u.inputFd 0 u.fds) := by rw [callOf, hu]; rfl
  have hstdin : lookup (redirected u.inputFd 0 u.fds) 0 =
      some (target env .read v.opened (redirectsOf seg.items)) :=
    redirected_std hin hl.stdin (by decide)
  -- the first `dup2` and `close` leave alone what the second pair is about
  have hother {n : ℕ} (hn : n ≠ 0)
      (hfd : 0 ≤ u.inputFd → u.inputFd ≠ (0 : ℕ) → n ≠ u.inputFd.toNat) :
      lookup (redirected u.inputFd 0 u.fds) n = lookup u.fds n := redirected_other hin hn hfd
  have hstd : lookup (redirected u.inputFd 0 u.fds) 1 = lookup u.fds 1 :=
    hother (by decide) (fun h0 hne => by
      have : 2 ≤ u.inputFd := (hin.moved h0 hne).1
      omega)
  have hsource : Source u.outputFd 1 (redirected u.inputFd 0 u.fds)
      (target env .write v.opened (redirectsOf seg.items)) := by
    refine ⟨fun hk => hstd.trans (hout.kept hk), fun h0 hne => ?_⟩
    obtain ⟨hlow, hx⟩ := hout.moved h0 hne
    refine ⟨hlow, (hother ?_ (fun h0' _ => ?_)).trans hx⟩
    · show u.outputFd.toNat ≠ 0
      have : 2 ≤ u.outputFd := hlow
      omega
    · have := hl.apart h0'
      show u.outputFd.toNat ≠ u.inputFd.toNat
      have : 0 ≤ u.outputFd := h0
      omega
  refine ⟨?_, ?_, ?_⟩
  · rw [callOf, (items_stored env seg.items v).tokens, h.tokens, List.nil_append]
  · rw [hchild]
    refine (redirected_other hsource (by decide) (fun h0 hne => ?_)).trans hstdin
    have : 2 ≤ u.outputFd := (hsource.moved h0 hne).1
    omega
  · rw [hchild]
    exact redirected_std hsource (hstd.trans hl.stdout) (by decide)

end Segment

section Session

variable {env : Env}

theorem callsOf_served (env : Env) (segs : List Segment) {v : Vars Bytes} (h : AtPrompt v) :
    AllServed env v.opened v.calls.length segs (callsOf env segs v) := by
  induction segs generalizing v with
  | nil => rfl
  | cons seg segs ih =>
    rw [callsOf, AllServed]
    split_ifs with hquit hout
    · rfl
    · refine ⟨_, _, rfl, callOf_served env seg h, ?_⟩
      have hrest := ih (behind_atPrompt env seg h)
      have hopened : (behind env seg v).opened = v.opened+(redirectsOf seg.items).length :=
        (items_stored env seg.items v).opened
      rwa [behind_calls_length, hopened] at hrest
    · exact ⟨_, _, rfl, callOf_served env seg h, rfl⟩

/-- Over a whole session of any lines, every command is called with the words
of its segment, reads the file of the segment's last `<` and writes the file of
its last `>`, and has the terminal where that did not open. -/
theorem redirections_reach (env : Env) (inherited : Table File) (lines : List Line) :
    ∃ s, run (turn env) (lines.map entered) (start inherited) = some s ∧
      AllServed env 0 0 (session lines) s.vars.calls := by
  obtain ⟨s, hs, hran⟩ := start_runs env inherited lines
  refine ⟨s, hs, ?_⟩
  obtain ⟨f, hresult⟩ := hran.vars
  have hcalls := runSegments_calls env (session lines) (initVars inherited)
  have hsame : (runSegments env (session lines) (initVars inherited)).vars.calls =
      s.vars.calls := by
    rw [hresult]
    split_ifs <;> rfl
  rw [← hsame, hcalls]
  exact callsOf_served env (session lines) (atPrompt_init inherited)

end Session

end CSE344.ShellRedirects
