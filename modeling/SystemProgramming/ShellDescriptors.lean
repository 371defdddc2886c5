import Mathlib.Data.Set.Insert
import SystemProgramming.ShellSegments

/-!
# The descriptors that the HW2 shell keeps

Only the child closes what was opened for it. A descriptor of the shell is
forgotten at the next redirection or at the end of the segment, but it stays
open, so each prompt finds all the files that were ever opened.
-/

set_option autoImplicit false

namespace CSE344.ShellDescriptors
open CString Words ProcessFiles ShellProcess ShellSegments TransitionRun
open Shell (Line)
open ShellLines (Mode)

/-- The numbers in use. -/
def openFds (t : Table File) : Set ℕ := {n | lookup t n ≠ none}

/-- At every prompt of the session the open descriptors are those of the first. -/
def KeptAtPrompts (env : Env) (inherited : Table File) (ls : List Line) : Prop :=
  ∀ n s, run (turn env) ((ls.take n).map entered) (start inherited) = some s →
    s.exited = false → openFds s.vars.fds = openFds (start inherited).vars.fds

/-- The redirections of a list of segments, in order. -/
def redirections (segs : List Segment) : List (Mode × Option Bytes) :=
  segs.flatMap (fun seg => redirectsOf seg.items)

/-- No `open` succeeds, when `k` came before. -/
def NoneOpens (env : Env) (k : ℕ) (rs : List (Mode × Option Bytes)) : Prop :=
  ∀ p ∈ rs.zipIdx k, p.1.2 = none ∨ env.opens p.2 = false

/-- The shell comes to the end of the segments: none is the exit command's, and
all calls return. -/
structure Survives (env : Env) (segs : List Segment) : Prop where
  runs : ∀ seg ∈ segs, seg.ending ≠ .quit
  returned : ∀ i < segs.length, env.outcome i = .returned

section Tables

variable {env : Env}

theorem openFds_install (t : Table File) (x : File) :
    openFds (install t x) = insert (free t) (openFds t) := by
  ext n
  show lookup (install t x) n ≠ none ↔ n = free t ∨ lookup t n ≠ none
  by_cases h : n = free t
  · rw [h, lookup_install_free]
    simp
  · rw [lookup_install_ne t x h]
    simp [h]

theorem free_not_open (t : Table File) : free t ∉ openFds t := fun h => h (lookup_free t)

theorem item_openFds (i : Item) (v : Vars Bytes) : openFds v.fds ⊆ openFds (item env i v).fds := by
  intro n hn
  obtain ⟨x, hx⟩ := Option.ne_none_iff_exists'.mp hn
  show lookup _ n ≠ none
  rw [item_lookup env i v hx]
  exact Option.some_ne_none x

theorem items_openFds (env : Env) (its : List Item) (v : Vars Bytes) :
    openFds v.fds ⊆ openFds (items env its v).fds := by
  induction its generalizing v with
  | nil => exact fun n hn => hn
  | cons i its ih => exact fun n hn => ih (item env i v) (item_openFds i v hn)

theorem noneOpens_cons (k : ℕ) (r : Mode × Option Bytes) (rs : List (Mode × Option Bytes)) :
    NoneOpens env k (r::rs) ↔ (r.2 = none ∨ env.opens k = false) ∧ NoneOpens env (k+1) rs := by
  rw [NoneOpens, List.zipIdx_cons, List.forall_mem_cons, NoneOpens]

theorem noneOpens_append (k : ℕ) (rs ss : List (Mode × Option Bytes)) :
    NoneOpens env k (rs++ss) ↔ NoneOpens env k rs ∧ NoneOpens env (k+rs.length) ss := by
  rw [NoneOpens, List.zipIdx_append, List.forall_mem_append]
  rfl

theorem items_kept_iff (env : Env) (its : List Item) (v : Vars Bytes) :
    openFds (items env its v).fds = openFds v.fds ↔ NoneOpens env v.opened (redirectsOf its) := by
  induction its generalizing v with
  | nil => simp [items, NoneOpens, redirectsOf]
  | cons i its ih =>
    cases i with
    | word w => exact ih (v.word w)
    | redirect mode path =>
      have hrest := ih (v.redirect env mode path)
      have hcons : redirectsOf (Item.redirect mode path :: its) = (mode, path) :: redirectsOf its :=
        rfl
      rw [hcons, noneOpens_cons]
      show openFds (items env its (v.redirect env mode path)).fds = _ ↔ _
      by_cases hopen : path = none ∨ env.opens v.opened = false
      · have hsame : (v.redirect env mode path).fds = v.fds := by
          show (v.openFile env mode path).2 = v.fds
          unfold Vars.openFile
          cases path with
          | none => rfl
          | some path =>
            have hno : env.opens v.opened = false := hopen.resolve_left (Option.some_ne_none _)
            simp [hno]
        rw [hsame] at hrest
        exact hrest.trans (and_iff_right hopen).symm
      · -- the file takes a number that was free, and keeps it
        rw [iff_false_right (fun h => hopen h.1)]
        intro hkept
        rw [not_or, Bool.not_eq_false] at hopen
        obtain ⟨hpath, hyes⟩ := hopen
        obtain ⟨path, rfl⟩ := Option.ne_none_iff_exists'.mp hpath
        have hfds : (v.redirect env mode (some path)).fds = install v.fds (.named mode path) := by
          show (v.openFile env mode (some path)).2 = _
          simp [Vars.openFile, hyes]
        have hgrown := items_openFds env its (v.redirect env mode (some path))
        rw [hfds, openFds_install, hkept] at hgrown
        exact free_not_open v.fds (hgrown (Set.mem_insert _ _))

end Tables

section Runs

variable {env : Env}

theorem runSegments_kept_iff (segs : List Segment) (v u : Vars Bytes)
    (h : runSegments env segs v = .done u) :
    openFds v.fds ⊆ openFds u.fds ∧
      (openFds u.fds = openFds v.fds ↔ NoneOpens env v.opened (redirections segs)) := by
  induction segs generalizing v with
  | nil =>
    cases h
    exact ⟨fun n hn => hn, by simp [redirections, NoneOpens]⟩
  | cons seg segs ih =>
    obtain ⟨-, -, hrun⟩ := runSegments_done_iff.mp h
    obtain ⟨hgrown, hiff⟩ := ih (behind env seg v) hrun
    have hfirst := items_openFds env seg.items v
    have hitems := items_kept_iff env seg.items v
    have hopened := (items_stored env seg.items v).opened
    rw [show (behind env seg v).fds = (items env seg.items v).fds from rfl] at hgrown hiff
    rw [show (behind env seg v).opened = (items env seg.items v).opened from rfl, hopened] at hiff
    refine ⟨Set.Subset.trans hfirst hgrown, ?_⟩
    rw [redirections, List.flatMap_cons, noneOpens_append, ← hitems, ← redirections, ← hiff]
    constructor
    · intro heq
      have hsame : openFds (items env seg.items v).fds = openFds v.fds :=
        Set.Subset.antisymm (heq ▸ hgrown) hfirst
      exact ⟨hsame, heq.trans hsame.symm⟩
    · rintro ⟨hsame, hrest⟩
      exact hrest.trans hsame

theorem survives_iff (env : Env) (segs : List Segment) (v : Vars Bytes) :
    (∃ u, runSegments env segs v = .done u) ↔ (∀ seg ∈ segs, seg.ending ≠ .quit) ∧
      ∀ i < segs.length, env.outcome (v.calls.length+i) = .returned := by
  induction segs generalizing v with
  | nil => simp [runSegments]
  | cons seg segs ih =>
    have hrest := ih (behind env seg v)
    rw [behind_calls_length] at hrest
    simp only [runSegments_done_iff, exists_and_left, hrest]
    rw [List.forall_mem_cons, List.length_cons, Nat.forall_lt_succ_left]
    simp only [Nat.add_zero, Nat.add_assoc, Nat.add_comm 1]
    constructor
    · rintro ⟨hending, hout, hendings, hret⟩
      exact ⟨⟨hending, hendings⟩, hout, hret⟩
    · rintro ⟨⟨hending, hendings⟩, hout, hret⟩
      exact ⟨hending, hout, hendings, hret⟩

/-- The descriptors stay the same at all prompts just if no `open` of a line
before a prompt succeeds. -/
theorem descriptors_kept_iff (env : Env) (inherited : Table File) (ls : List Line) :
    KeptAtPrompts env inherited ls ↔ ∀ n, Survives env (session (ls.take n)) →
      NoneOpens env 0 (redirections (session (ls.take n))) := by
  apply forall_congr'
  intro n
  obtain ⟨s, hs, hran⟩ := start_runs env inherited (ls.take n)
  obtain ⟨f, hf⟩ := hran.vars
  have hlive := survives_iff env (session (ls.take n)) (initVars inherited)
  rw [show (initVars inherited : Vars Bytes).calls.length = 0 from rfl] at hlive
  simp only [Nat.zero_add] at hlive
  constructor
  · rintro hkept ⟨hruns, hret⟩
    obtain ⟨u, hu⟩ := hlive.mpr ⟨hruns, hret⟩
    have hiff := (runSegments_kept_iff _ _ _ hu).2
    rw [hu] at hf
    split_ifs at hf with hexited
    cases hf
    exact hiff.mp (hkept s hs (by simpa using hexited))
  · intro hnone t ht hexited
    rw [hs] at ht
    cases ht
    rw [if_neg (by simp [hexited])] at hf
    obtain ⟨hruns, hret⟩ := hlive.mp ⟨_, hf⟩
    exact (runSegments_kept_iff _ _ _ hf).2.mpr (hnone ⟨hruns, hret⟩)

def redirectLine : Line := ⟨ascii "ls > out", by decide, by decide, by decide⟩

/-- After one redirection the shell itself has the file open. -/
theorem redirect_leaks : ¬ KeptAtPrompts steady [] [redirectLine] := by
  intro h
  have heq := h 1 _ rfl rfl
  have hmem : (3 : ℕ) ∈ openFds (start []).vars.fds := by
    rw [← heq]
    show _ ≠ none
    decide
  exact hmem rfl

end Runs

end CSE344.ShellDescriptors
