import SystemProgramming.Admission
import SystemProgramming.TransitionRun

/-!
# Which children of the midterm server are reaped

The server, its children and its signals, with `fork` and the call of `signal`
after it as two steps. A signal has one pending bit, its handler is not
interrupted by the same signal, and a `SIGCHLD` that comes before a handler is
installed is discarded. A handler is two steps, its `waitpid` and what follows.
The main loop starts with whatever the segment holds.
-/

set_option autoImplicit false

namespace CSE344.ChildReaping
open TransitionRun ClientQueue

inductive Signal where
  | usr1
  | chld
  deriving DecidableEq, Repr

/-- A running `handle_signal`, with the PID that its `waitpid` has returned. -/
structure Handler where
  sig : Signal
  pid : Option ℤ
  deriving DecidableEq, Repr

/-- The first of the handlers has interrupted the second. -/
structure State extends Admission.State where
  installing : Bool
  pending : Signal → Bool
  handlers : List Handler

def init (shm : Segment) : State where
  core := ⟨shm, .test, [], []⟩
  running := []
  zombies := []
  installed := false
  terminated := []
  handled := []
  installing := false
  pending _ := false
  handlers := []

def raise (sig : Signal) (s : State) : State :=
  if sig = .chld ∧ s.installed = false then s
  else { s with pending := Function.update s.pending sig true }

/-- `fork` returning `child` to the main loop. -/
def fork (child : ℤ) (s : State) : Option State :=
  if child = -1 then some { s with core := mainStep s.core }
  else if 0 < child ∧ child ∉ s.running ∧ child ∉ s.zombies then
    some { s with core := mainStep s.core, running := child::s.running, installing := true }
  else none

inductive Act where
  | main (child : ℤ)
  | install
  | exit (child : ℤ)
  | usr1
  | deliver (sig : Signal)
  | waitpid (r : ℤ)
  | ret
  deriving DecidableEq, Repr

def step : Act → State → Option State
  | .main child, s =>
    if s.handlers = [] ∧ s.installing = false then
      match s.core.pc with
      | .fork _ => fork child s
      | _ => some { s with core := mainStep s.core }
    else none
  | .install, s =>
    if s.handlers = [] ∧ s.installing = true then
      some { s with installing := false, installed := true }
    else none
  | .exit child, s =>
    (Admission.step (.exit child) s.toState).map (fun p => raise .chld { s with toState := p })
  | .usr1, s => some (raise .usr1 s)
  | .deliver sig, s =>
    if s.pending sig = true ∧ sig ∉ s.handlers.map Handler.sig then
      some { s with
        pending := Function.update s.pending sig false
        handlers := ⟨sig, none⟩::s.handlers }
    else none
  | .waitpid r, s => match s.handlers with
    | ⟨sig, none⟩::rest => (Admission.waitpid r s.toState).map (fun p =>
        { s with toState := p, handlers := ⟨sig, some r⟩::rest })
    | _ => none
  | .ret, s => match s.handlers with
    | ⟨.usr1, some r⟩::rest => some { s with core := enqueue r s.core, handlers := rest }
    | ⟨.chld, some _⟩::rest => some { s with handlers := rest }
    | _ => none

/-- No signal is pending and no handler is running. -/
def Quiet (s : State) : Prop := (∀ sig, s.pending sig = false) ∧ s.handlers = []

def Reaped (s : State) : Prop := Quiet s → s.zombies = []

/-- The steps by which what is pending is handled. -/
def Act.drains : Act → Bool
  | .deliver _ => true
  | .waitpid _ => true
  | .ret => true
  | _ => false

/-- However the signals at hand are handled, nobody is left unreaped. -/
def Settles (s : State) : Prop :=
  ∀ as t, (∀ a ∈ as, a.drains = true) → run step as s = some t → Reaped t

/-- A handler that has not called `waitpid`. -/
def Handler.owes (h : Handler) : ℕ := if h.pid = none then 1 else 0

def pendings (pending : Signal → Bool) : ℕ := (pending .usr1).toNat + (pending .chld).toNat

/-- The calls of `waitpid` that the signals at hand will make. -/
def due (s : State) : ℕ := pendings s.pending + (s.handlers.map Handler.owes).sum

/-- A child terminates when its `SIGCHLD` becomes pending, or when more calls
of `waitpid` are due than children wait for one. -/
def Covered : Act → State → Prop
  | .exit _, s => (s.installed = true ∧ s.pending .chld = false) ∨ s.zombies.length < due s
  | _, _ => True

instance Covered.decidable (a : Act) (s : State) : Decidable (Covered a s) := by
  unfold Covered
  split <;> infer_instance

theorem pendings_set (sig : Signal) (p : Signal → Bool) :
    pendings (Function.update p sig true) = pendings p + (!p sig).toNat := by
  cases sig <;> simp only [pendings, Function.update] <;> cases p .usr1 <;> cases p .chld <;> rfl

theorem pendings_clear {sig : Signal} {p : Signal → Bool} (h : p sig = true) :
    pendings (Function.update p sig false) + 1 = pendings p := by
  cases sig <;> simp only [pendings, Function.update] <;> simp [h, Nat.add_comm]

theorem due_raise (sig : Signal) (s : State) (h : sig = .chld → s.installed = true) :
    due (raise sig s) = due s + (!s.pending sig).toNat := by
  unfold raise
  rw [if_neg (fun hn => by simp [h hn.1] at hn), due, pendings_set, due]
  exact Nat.add_right_comm _ _ _

theorem raise_zombies (sig : Signal) (s : State) : (raise sig s).zombies = s.zombies := by
  unfold raise
  split_ifs <;> rfl

/-- What a step does to the calls due and to the children that wait for one. -/
def Effect (s t : State) : Act → Prop
  | .exit child => t.zombies = s.zombies ++ [child] ∧
      due t = due s + if s.installed = true ∧ s.pending .chld = false then 1 else 0
  | .usr1 => t.zombies = s.zombies ∧ due s ≤ due t
  | .waitpid r => t.zombies = s.zombies.erase r ∧ (s.zombies ≠ [] → r ∈ s.zombies) ∧
      due s = due t + 1
  | _ => t.zombies = s.zombies ∧ due t = due s

theorem waitpid_effect {r : ℤ} {s t : Admission.State} (h : Admission.waitpid r s = some t) :
    t.zombies = s.zombies.erase r ∧ (s.zombies ≠ [] → r ∈ s.zombies) := by
  unfold Admission.waitpid at h
  by_cases hz : r ∈ s.zombies
  · rw [if_pos hz] at h
    cases h
    exact ⟨rfl, fun _ => hz⟩
  · rw [if_neg hz, Option.ite_none_right_eq_some] at h
    obtain ⟨⟨hnil, -⟩, ht⟩ := h
    cases ht
    exact ⟨(List.erase_of_not_mem hz).symm, fun hne => absurd hnil hne⟩

theorem exit_effect {child : ℤ} {s t : State} (h : step (.exit child) s = some t) :
    Effect s t (.exit child) := by
  simp only [step, Admission.step, Option.map_eq_some_iff, Option.ite_none_right_eq_some,
    Option.some.injEq] at h
  obtain ⟨p, ⟨-, rfl⟩, rfl⟩ := h
  refine ⟨raise_zombies _ _, ?_⟩
  cases hi : s.installed with
  | false => simp [raise, due]
  | true =>
    rw [due_raise]
    · cases s.pending .chld <;> simp [due]
    · exact fun _ => rfl

theorem deliver_cases {sig : Signal} {s t : State} (h : step (.deliver sig) s = some t) :
    s.pending sig = true ∧ t = { s with
      pending := Function.update s.pending sig false
      handlers := ⟨sig, none⟩::s.handlers } := by
  simp only [step, Option.ite_none_right_eq_some, Option.some.injEq] at h
  exact ⟨h.1.1, h.2.symm⟩

theorem waitpid_cases {r : ℤ} {s t : State} (h : step (.waitpid r) s = some t) :
    ∃ sig rest p, s.handlers = ⟨sig, none⟩::rest ∧ Admission.waitpid r s.toState = some p ∧
      t = { s with toState := p, handlers := ⟨sig, some r⟩::rest } := by
  simp only [step] at h
  split at h
  · rename_i sig rest hh
    obtain ⟨p, hp, ht⟩ := Option.map_eq_some_iff.mp h
    exact ⟨sig, rest, p, hh, hp, ht.symm⟩
  · cases h

theorem ret_cases {s t : State} (h : step .ret s = some t) :
    ∃ sig r rest core, s.handlers = ⟨sig, some r⟩::rest ∧
      t = { s with core := core, handlers := rest } := by
  simp only [step] at h
  split at h
  · rename_i r rest hh
    exact ⟨.usr1, r, rest, enqueue r s.core, hh, (Option.some.inj h).symm⟩
  · rename_i r rest hh
    exact ⟨.chld, r, rest, s.core, hh, (Option.some.inj h).symm⟩
  · cases h

theorem step_effect {a : Act} {s t : State} (h : step a s = some t) : Effect s t a := by
  cases a with
  | exit child => exact exit_effect h
  | main child =>
    simp only [step, Option.ite_none_right_eq_some] at h
    obtain ⟨-, h⟩ := h
    split at h
    · unfold fork at h
      split_ifs at h <;> cases h <;> exact ⟨rfl, rfl⟩
    · cases h
      exact ⟨rfl, rfl⟩
  | install =>
    obtain ⟨-, rfl⟩ := guarded_iff.mp h
    exact ⟨rfl, rfl⟩
  | usr1 =>
    cases h
    refine ⟨raise_zombies _ _, ?_⟩
    rw [due_raise _ _ (fun hn => by cases hn)]
    exact Nat.le_add_right _ _
  | deliver sig =>
    obtain ⟨hp, rfl⟩ := deliver_cases h
    refine ⟨rfl, ?_⟩
    simp only [due, ← pendings_clear hp, List.map_cons, List.sum_cons, Handler.owes, if_true]
    exact (Nat.add_assoc _ _ _).symm
  | waitpid r =>
    obtain ⟨sig, rest, p, hh, hp, rfl⟩ := waitpid_cases h
    obtain ⟨hz, hmem⟩ := waitpid_effect hp
    refine ⟨hz, hmem, ?_⟩
    simp only [due, hh, List.map_cons, List.sum_cons, Handler.owes, if_true, reduceCtorEq, if_false]
    omega
  | ret =>
    obtain ⟨sig, r, rest, core, hh, rfl⟩ := ret_cases h
    exact ⟨rfl, by simp [due, hh, Handler.owes]⟩

theorem due_quiet {s : State} (h : Quiet s) : due s = 0 := by
  simp [due, pendings, h.1, h.2]

theorem drains_balance {a : Act} {s t : State} (ha : a.drains = true) (h : step a s = some t) :
    (s.zombies = [] ∧ t.zombies = []) ∨
      t.zombies.length + due s = s.zombies.length + due t := by
  have heffect := step_effect h
  cases a with
  | deliver sig =>
    right
    rw [heffect.1, heffect.2]
  | ret =>
    right
    rw [heffect.1, heffect.2]
  | waitpid r =>
    obtain ⟨hz, hmem, hdue⟩ := heffect
    by_cases hne : s.zombies = []
    · exact .inl ⟨hne, by rw [hz, hne]; rfl⟩
    · right
      have hpos := List.length_pos_iff.mpr hne
      rw [hz, List.length_erase_of_mem (hmem hne)]
      omega
  | _ => cases ha

theorem drains_keep {a : Act} {s t : State} (ha : a.drains = true) (h : step a s = some t)
    (hs : s.zombies.length ≤ due s) : t.zombies.length ≤ due t := by
  rcases drains_balance ha h with ⟨-, hnil⟩ | hbalance
  · rw [hnil]
    exact Nat.zero_le _
  · omega

theorem drains_lack {a : Act} {s t : State} (ha : a.drains = true) (h : step a s = some t)
    (hs : due s < s.zombies.length) : due t < t.zombies.length := by
  rcases drains_balance ha h with ⟨hnil, -⟩ | hbalance
  · rw [hnil] at hs
    exact absurd hs (Nat.not_lt_zero _)
  · omega

theorem settles_of_le {s : State} (hs : s.zombies.length ≤ due s) : Settles s := by
  intro as t has h hquiet
  have hle := guarded_invariant step (fun a _ => a.drains = true)
    (fun s => s.zombies.length ≤ due s) (fun a u v hu ha hv => drains_keep ha hv hu) as s t hs
    (meets_of_labels _ _ as (fun a ha _ => has a ha) s) h
  rw [due_quiet hquiet] at hle
  exact List.length_eq_zero_iff.mp (by omega)

/-- How many steps it takes to handle what is pending. -/
def work (s : State) : ℕ := 2*pendings s.pending + due s + s.handlers.length

theorem drains_work {a : Act} {s t : State} (ha : a.drains = true) (h : step a s = some t) :
    work t < work s := by
  have heffect := step_effect h
  unfold work
  cases a with
  | deliver sig =>
    rw [heffect.2]
    obtain ⟨hp, rfl⟩ := deliver_cases h
    have := pendings_clear hp
    simp only [List.length_cons]
    omega
  | waitpid r =>
    rw [heffect.2.2]
    obtain ⟨sig, rest, p, hh, hp, rfl⟩ := waitpid_cases h
    simp only [hh, List.length_cons]
    omega
  | ret =>
    rw [heffect.2]
    obtain ⟨sig, r, rest, core, hh, rfl⟩ := ret_cases h
    simp only [hh, List.length_cons]
    omega
  | _ => cases ha

theorem drains_enabled {s : State} (hz : s.zombies ≠ []) (hq : ¬ Quiet s) :
    ∃ a t, a.drains = true ∧ step a s = some t := by
  cases hh : s.handlers with
  | nil =>
    obtain ⟨sig, hsig⟩ : ∃ sig, s.pending sig = true := by
      by_contra hno
      exact hq ⟨fun sig => by simpa using fun hp => hno ⟨sig, hp⟩, hh⟩
    exact ⟨.deliver sig, _, rfl, if_pos ⟨hsig, by simp [hh]⟩⟩
  | cons handler rest =>
    obtain ⟨sig, pid⟩ := handler
    cases pid with
    | none =>
      obtain ⟨z, hmem⟩ := List.exists_mem_of_ne_nil _ hz
      exact ⟨.waitpid z, _, rfl, by simp only [step, hh, Admission.waitpid, if_pos hmem]; rfl⟩
    | some r =>
      cases sig with
      | usr1 => exact ⟨.ret, _, rfl, by simp only [step, hh]; rfl⟩
      | chld => exact ⟨.ret, _, rfl, by simp only [step, hh]; rfl⟩

theorem lack_not_settles {s : State} (hs : due s < s.zombies.length) : ¬ Settles s := by
  induction hn : work s using Nat.strong_induction_on generalizing s with
  | _ n ih =>
    have hz : s.zombies ≠ [] := List.ne_nil_of_length_pos (Nat.zero_lt_of_lt hs)
    intro hsettles
    by_cases hq : Quiet s
    · exact hz (hsettles [] s (by simp) rfl hq)
    · obtain ⟨a, t, ha, ht⟩ := drains_enabled hz hq
      refine ih (work t) (hn ▸ drains_work ha ht) (drains_lack ha ht hs) rfl (fun as u has hu => ?_)
      refine hsettles (a::as) u ?_ ((run_cons_iff step a as s u).mpr ⟨t, ht, hu⟩)
      exact List.forall_mem_cons.mpr ⟨ha, has⟩

theorem settles_iff (s : State) : Settles s ↔ s.zombies.length ≤ due s :=
  ⟨fun h => Nat.le_of_not_lt (fun hlack => lack_not_settles hlack h), settles_of_le⟩

theorem settles_reaped {s : State} (h : Settles s) : Reaped s := h [] s (by simp) rfl

/-- A step keeps enough calls due if and only if it is covered. -/
theorem settles_step {a : Act} {s t : State} (hs : Settles s) (h : step a s = some t) :
    Settles t ↔ Covered a s := by
  have heffect := step_effect h
  rw [settles_iff] at hs ⊢
  cases a with
  | exit child =>
    rw [heffect.1, heffect.2, List.length_append, List.length_singleton, Covered]
    split_ifs with hcover
    · exact ⟨fun _ => .inl hcover, fun _ => by omega⟩
    · exact ⟨fun hle => .inr hle, fun hc => hc.resolve_left hcover⟩
  | main child => simpa [heffect.1, heffect.2, Covered] using hs
  | install => simpa [heffect.1, heffect.2, Covered] using hs
  | usr1 =>
    rw [heffect.1]
    exact ⟨fun _ => trivial, fun _ => hs.trans heffect.2⟩
  | deliver sig => exact ⟨fun _ => trivial, fun _ => drains_keep rfl h hs⟩
  | waitpid r => exact ⟨fun _ => trivial, fun _ => drains_keep rfl h hs⟩
  | ret => exact ⟨fun _ => trivial, fun _ => drains_keep rfl h hs⟩

/-- If every child that terminates is covered, all are reaped whenever the
server is quiet; and these are just the runs in which no child is left
unreaped if nothing more happens. -/
theorem children_reaped (shm : Segment) (as : List Act) (t : State)
    (h : run step as (init shm) = some t) :
    (Meets step Covered as (init shm) → Throughout step Reaped as (init shm)) ∧
      (Throughout step Settles as (init shm) ↔ Meets step Covered as (init shm)) := by
  have hinit : Settles (init shm) := settles_of_le (Nat.zero_le _)
  constructor
  · exact throughout_of_guarded step Covered Reaped Settles
      (fun a u v hu hc hv => (settles_step hu hv).mpr hc) (fun u hu => settles_reaped hu) as _ hinit
  · exact throughout_iff_meets step Covered Settles (fun _ => True)
      (fun a u v hu _ hv => settles_step hu hv) (fun _ _ _ _ _ _ _ => trivial) as _ t hinit
      trivial h

def zeroed : Segment := ⟨fun _ => 0, 0, 0, 0⟩

/-- A client is enqueued as `pid`, taken out and given the child. -/
def served (pid child : ℤ) : List Act :=
  [Act.usr1, .deliver .usr1, .waitpid pid, .ret] ++ List.replicate 8 (Act.main 0) ++
    [Act.main child]

def oneClient : List Act :=
  served (-1) 60 ++ [Act.install, .exit 60, .deliver .chld, .waitpid 60, .ret]

theorem children_reaped_one : Throughout step Reaped oneClient (init zeroed) :=
  (children_reaped zeroed oneClient _ rfl).1 (by decide)

/-- Two children terminate before the signal of the first is delivered. -/
def twoExits : List Act :=
  served (-1) 60 ++ [Act.install] ++ served 0 61 ++
    [Act.install, .exit 60, .exit 61, .deliver .chld, .waitpid 60, .ret]

/-- The child terminates before the first call of `signal`. -/
def earlyExit : List Act := served (-1) 60 ++ [Act.exit 60, .install]

theorem child_left_unreaped :
    (∃ t, run step twoExits (init zeroed) = some t ∧ Quiet t ∧ t.zombies = [61]) ∧
      ∃ t, run step earlyExit (init zeroed) = some t ∧ Quiet t ∧ t.zombies = [60] :=
  ⟨⟨_, rfl, ⟨fun sig => by cases sig <;> rfl, rfl⟩, rfl⟩,
    ⟨_, rfl, ⟨fun sig => by cases sig <;> rfl, rfl⟩, rfl⟩⟩

end CSE344.ChildReaping
