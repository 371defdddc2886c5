import Mathlib.Data.Fintype.Defs
import Mathlib.Logic.Function.Basic
import SystemProgramming.TransitionRun
import SystemProgramming.Words

/-!
# `strtok` in a process with several threads

Every thread tokenises a buffer of its own by a fixed script of calls, but the
place where `strtok(NULL, ..)` goes on is one variable of the process. A call
with a null pointer so works on the buffer that was tokenised last, whoever
made that call. `alone` is the same script with nobody else running.
-/

set_option autoImplicit false

namespace CSE344.SharedStrtok
open CString Words TransitionRun

/-- `strtok(buffer+offset, delims)`, or `strtok(NULL, delims)` for `none`. -/
structure Call where
  offset : Option ℕ
  delims : Bytes
  deriving DecidableEq, Repr

/-- How a thread takes a block into its buffer and which calls it then makes;
`fill` takes a block that is not tokenised. -/
structure Server where
  load : Bytes → Bytes → Bytes
  fill : Option (Bytes → Bytes → Bytes)
  script : Bytes → List Call

/-- A script starts with a pointer of its own. -/
def WellFormed (cs : List Call) : Prop := ∀ c ∈ cs.head?, c.offset.isSome = true

variable {ι : Type*}

/-- A thread between two calls; a pointer names the buffer it points into. -/
structure Thread (ι : Type*) where
  mem : Bytes
  message : Bytes
  todo : List Call
  found : List (Option (ι × ℕ))
  parsed : List (Bytes × List (Option Bytes))

structure State (ι : Type*) where
  threads : ι → Thread ι
  save : ι × ℕ

def init (mem : ι → Bytes) (save : ι × ℕ) : State ι :=
  ⟨fun i => ⟨mem i, [], [], [], []⟩, save⟩

/-- The strings that a thread finds at its pointers. -/
def strings (threads : ι → Thread ι) (found : List (Option (ι × ℕ))) : List (Option Bytes) :=
  found.map (Option.map (fun q => cstrAt (threads q.1).mem q.2))

/-- The script with a saved position of its own: the strings at the pointers
found, once the last call was made. -/
def alone : List Call → Bytes → ℕ → List (Option ℕ) → List (Option Bytes)
  | [], m, _, found => found.map (Option.map (cstrAt m))
  | c::cs, m, save, found =>
    let r := strtok c.delims m (c.offset.getD save)
    alone cs r.mem r.save (found ++ [r.start])

inductive Act (ι : Type*) where
  | recv (i : ι) (block : Bytes)
  | data (i : ι) (block : Bytes)
  | call (i : ι)
  deriving DecidableEq, Repr

section Step

variable [DecidableEq ι]

def State.set (s : State ι) (i : ι) (t : Thread ι) : State ι :=
  { s with threads := Function.update s.threads i t }

/-- `recv` of a message. -/
def receive (srv : Server) (i : ι) (block : Bytes) (s : State ι) : State ι :=
  let m := srv.load block (s.threads i).mem
  s.set i { s.threads i with mem := m, message := m, todo := srv.script m, found := [] }

/-- The call itself: it changes the buffer it works on and the saved position. -/
def strtokStep (i : ι) (c : Call) (s : State ι) : State ι × Option (ι × ℕ) :=
  let at_ := (c.offset.map (fun k => (i, k))).getD s.save
  let r := strtok c.delims (s.threads at_.1).mem at_.2
  (⟨(s.set at_.1 { s.threads at_.1 with mem := r.mem }).threads, (at_.1, r.save)⟩,
    r.start.map (fun q => (at_.1, q)))

/-- One call of the script; after the last one the thread reads its tokens. -/
def callStep (i : ι) (c : Call) (cs : List Call) (s : State ι) : State ι :=
  let r := strtokStep i c s
  let me := r.1.threads i
  let found := me.found ++ [r.2]
  r.1.set i { me with
    todo := cs
    found := found
    parsed := if cs = [] then me.parsed ++ [(me.message, strings r.1.threads found)]
      else me.parsed }

def step (srv : Server) : Act ι → State ι → Option (State ι)
  | .recv i block, s =>
    if (s.threads i).todo = [] then some (receive srv i block s) else none
  | .data i block, s =>
    if (s.threads i).todo = [] then
      srv.fill.map (fun f =>
        s.set i { s.threads i with mem := f block (s.threads i).mem })
    else none
  | .call i, s => match (s.threads i).todo with
    | [] => none
    | c::cs => some (callStep i c cs s)

end Step

/-- The first call of the script is made and the last one is not. -/
def Midway (t : Thread ι) : Prop := t.todo ≠ [] ∧ t.found ≠ []

/-- A call is made only while no other thread is midway. -/
def Undisturbed : Act ι → State ι → Prop
  | .call i, s => ∀ j, j ≠ i → ¬ Midway (s.threads j)
  | _, _ => True

instance Midway.decidable [DecidableEq ι] (t : Thread ι) : Decidable (Midway t) :=
  inferInstanceAs (Decidable (t.todo ≠ [] ∧ t.found ≠ []))

instance Undisturbed.decidable [DecidableEq ι] [Fintype ι] :
    ∀ (a : Act ι) (s : State ι), Decidable (Undisturbed a s)
  | .call i, s => inferInstanceAs (Decidable (∀ j, j ≠ i → ¬ Midway (s.threads j)))
  | .recv _ _, _ => isTrue trivial
  | .data _ _, _ => isTrue trivial

/-- Every thread got what it would have got alone. -/
def Own (srv : Server) (s : State ι) : Prop :=
  ∀ i, ∀ e ∈ (s.threads i).parsed, e.2 = alone (srv.script e.1) e.1 0 []

/-- What consecutive calls find in a text, the delimiters changing between them. -/
def chain : List Bytes → Bytes → List (Option Bytes)
  | [], _ => []
  | d::ds, s => match nextToken d s with
    | none => none :: chain ds []
    | some (tok, rest) => some tok :: chain ds rest

theorem chain_take (ds : List Bytes) (s : Bytes) (k : ℕ) :
    (chain ds s).take k = chain (ds.take k) s := by
  induction ds generalizing s k with
  | nil => simp [chain]
  | cons d ds ih =>
    cases k with
    | zero => rfl
    | succ k =>
      rw [List.take_succ_cons, chain, chain]
      cases nextToken d s with
      | none => exact congrArg (none :: ·) (ih [] k)
      | some tr => exact congrArg (some tr.1 :: ·) (ih tr.2 k)

theorem alone_chain_from (ds : List Bytes) (m : Bytes) (p : ℕ) (own : List (Option ℕ))
    (h : ∀ q, some q ∈ own → Behind m p q) :
    alone (ds.map (Call.mk none)) m p own =
      own.map (Option.map (cstrAt m)) ++ chain ds (cstrAt m p) := by
  induction ds generalizing m p own with
  | nil => exact (List.append_nil _).symm
  | cons d ds ih =>
    have hkeep : own.map (Option.map (cstrAt (strtok d m p).mem)) =
        own.map (Option.map (cstrAt m)) := by
      apply List.map_congr_left
      intro q hq
      cases q with
      | none => rfl
      | some q => exact congrArg some (h q hq).strtok.1
    have ht := strtok_token d m p
    rw [List.map_cons, alone, chain]
    dsimp only [Option.getD_none]
    rw [ih, List.map_append, hkeep, List.append_assoc]
    · congr 1
      cases hn : nextToken d (cstrAt m p) with
      | none =>
        rw [hn] at ht
        rw [ht.1, ht.2.1, ht.2.2]
        rfl
      | some tr =>
        rw [hn] at ht
        obtain ⟨q, hq, -, htok, hrest⟩ := ht
        rw [hq, hrest]
        simp [htok]
    · intro q hq
      rcases List.mem_append.mp hq with hq | hq
      · exact (h q hq).strtok.2
      · exact (strtok_some (List.mem_singleton.mp hq).symm).2.1

theorem alone_chain (k : ℕ) (d : Bytes) (ds : List Bytes) (m : Bytes) (p : ℕ) :
    alone (⟨some k, d⟩ :: ds.map (Call.mk none)) m p [] = chain (d::ds) (cstrAt m k) := by
  have h := alone_chain_from (d::ds) m k [] nofun
  rw [List.map_cons, alone] at h
  exact h

/-- The thread is as far with its script as it would be alone: its pointers
are its own, the saved position is where it would go on, and the rest of the
script gives what the whole script gives. -/
def OnTrack (srv : Server) (s : State ι) (i : ι) : Prop :=
  ∃ own p, (s.threads i).found = own.map (Option.map (fun q => (i, q))) ∧
    ((s.threads i).found ≠ [] → s.save = (i, p)) ∧
    ((s.threads i).found = [] → WellFormed (s.threads i).todo) ∧
    alone (s.threads i).todo (s.threads i).mem p own =
      alone (srv.script (s.threads i).message) (s.threads i).message 0 []

def Tracked (srv : Server) (s : State ι) : Prop :=
  Own srv s ∧ ∀ i, (s.threads i).todo ≠ [] → OnTrack srv s i

theorem tracked_init (srv : Server) (mem : ι → Bytes) (save : ι × ℕ) :
    Tracked srv (init mem save) := by
  constructor
  · intro i e he
    cases he
  · intro i h
    exact absurd rfl h

theorem strings_own (threads : ι → Thread ι) (i : ι) (own : List (Option ℕ)) :
    strings threads (own.map (Option.map (fun q => (i, q)))) =
      own.map (Option.map (cstrAt (threads i).mem)) := by
  simp only [strings, List.map_map]
  apply List.map_congr_left
  intro q _
  cases q <;> rfl

theorem onTrack_frame {srv : Server} {s t : State ι} {j : ι}
    (hthread : t.threads j = s.threads j) (hsave : (s.threads j).found ≠ [] → t.save = s.save)
    (h : OnTrack srv s j) : OnTrack srv t j := by
  obtain ⟨own, p, hfound, hs, hfresh, halone⟩ := h
  unfold OnTrack
  rw [hthread]
  exact ⟨own, p, hfound, fun hne => (hsave hne).trans (hs hne), hfresh, halone⟩

section Invariant

variable [DecidableEq ι]

@[simp] theorem set_self (s : State ι) (i : ι) (t : Thread ι) : (s.set i t).threads i = t :=
  Function.update_self _ _ _

theorem set_of_ne (s : State ι) {i j : ι} (h : j ≠ i) (t : Thread ι) :
    (s.set i t).threads j = s.threads j := Function.update_of_ne h _ _

/-- A thread on track makes its next call on its own buffer. -/
theorem callStep_own {s : State ι} {i : ι} {c : Call} {cs : List Call} {p : ℕ}
    (hsave : (s.threads i).found ≠ [] → s.save = (i, p))
    (hfresh : (s.threads i).found = [] → WellFormed (s.threads i).todo)
    (htodo : (s.threads i).todo = c::cs) :
    callStep i c cs s =
      let r := strtok c.delims (s.threads i).mem (c.offset.getD p)
      let found := (s.threads i).found ++ [r.start.map (fun q => (i, q))]
      let t : Thread ι := { s.threads i with mem := r.mem }
      ⟨(s.set i { t with
        todo := cs
        found := found
        parsed := if cs = [] then t.parsed ++
          [(t.message, strings (s.set i t).threads found)] else t.parsed }).threads,
        (i, r.save)⟩ := by
  have hat : (c.offset.map (fun k => (i, k))).getD s.save = (i, c.offset.getD p) := by
    cases hoff : c.offset with
    | some k => rfl
    | none =>
      apply hsave
      intro hnil
      have := hfresh hnil c (by simp [htodo])
      simp [hoff] at this
  simp only [callStep, strtokStep, hat, State.set, Function.update_self, Function.update_idem]

/-- A step of one thread; the saved position is not taken from a thread that needs it. -/
theorem tracked_update {srv : Server} {s t : State ι} {i : ι} (h : Tracked srv s)
    (hother : ∀ j, j ≠ i →
      t.threads j = s.threads j ∧ (Midway (s.threads j) → t.save = s.save))
    (hparsed : ∀ e ∈ (t.threads i).parsed, e.2 = alone (srv.script e.1) e.1 0 [])
    (htrack : (t.threads i).todo ≠ [] → OnTrack srv t i) : Tracked srv t := by
  constructor
  · intro j
    by_cases hj : j = i
    · subst hj
      exact hparsed
    · rw [(hother j hj).1]
      exact h.1 j
  · intro j hrest
    by_cases hj : j = i
    · subst hj
      exact htrack hrest
    · obtain ⟨hthread, hsave⟩ := hother j hj
      rw [hthread] at hrest
      exact onTrack_frame hthread (fun hne => hsave ⟨hrest, hne⟩) (h.2 j hrest)

theorem tracked_call {srv : Server} {s : State ι} {i : ι} {c : Call} {cs : List Call}
    (h : Tracked srv s) (hu : Undisturbed (.call i) s) (htodo : (s.threads i).todo = c::cs) :
    Tracked srv (callStep i c cs s) := by
  obtain ⟨own, p, hfound, hsave, hfresh, halone⟩ := h.2 i (by simp [htodo])
  rw [callStep_own hsave hfresh htodo]
  rw [htodo, alone] at halone
  dsimp only at halone ⊢
  generalize strtok c.delims (s.threads i).mem (c.offset.getD p) = r at *
  have hfound' : (s.threads i).found ++ [r.start.map (fun q => (i, q))] =
      (own ++ [r.start]).map (Option.map (fun q => (i, q))) := by
    rw [List.map_append, hfound]
    rfl
  apply tracked_update h
  · intro j hj
    exact ⟨set_of_ne s hj _, fun hmid => absurd hmid (hu j hj)⟩
  · dsimp only
    rw [set_self]
    dsimp only
    split_ifs with hcs
    · intro e he
      rcases List.mem_append.mp he with he | he
      · exact h.1 i e he
      · rw [List.mem_singleton.mp he, hfound', strings_own, set_self]
        subst hcs
        exact halone
    · exact h.1 i
  · intro _
    unfold OnTrack
    dsimp only
    rw [set_self]
    refine ⟨own ++ [r.start], r.save, hfound', fun _ => rfl, fun hnil => ?_, halone⟩
    simp at hnil

theorem tracked_step {srv : Server} (hsrv : ∀ m, WellFormed (srv.script m)) (a : Act ι)
    (s t : State ι) (h : Tracked srv s) (hu : Undisturbed a s) (hs : step srv a s = some t) :
    Tracked srv t := by
  have hset (i : ι) (u : Thread ι) (hparsed : u.parsed = (s.threads i).parsed)
      (htrack : u.todo ≠ [] → OnTrack srv (s.set i u) i) : Tracked srv (s.set i u) := by
    apply tracked_update h (fun j hj => ⟨set_of_ne s hj u, fun _ => rfl⟩)
    · rw [set_self, hparsed]
      exact h.1 i
    · rwa [set_self]
  cases a with
  | recv i block =>
    obtain ⟨-, rfl⟩ := guarded_iff.mp hs
    apply hset
    · rfl
    intro _
    unfold OnTrack
    rw [set_self]
    exact ⟨[], 0, rfl, fun hne => absurd rfl hne, fun _ => hsrv _, rfl⟩
  | data i block =>
    simp only [step, Option.ite_none_right_eq_some, Option.map_eq_some_iff] at hs
    obtain ⟨hidle, f, -, rfl⟩ := hs
    apply hset
    · rfl
    intro hrest
    exact absurd hidle hrest
  | call i =>
    simp only [step] at hs
    split at hs
    · cases hs
    · rename_i c cs htodo
      obtain rfl := Option.some.inj hs
      exact tracked_call h hu htodo

theorem own_of_undisturbed {srv : Server} (hsrv : ∀ m, WellFormed (srv.script m))
    (mem : ι → Bytes) (save : ι × ℕ) (as : List (Act ι)) (t : State ι)
    (hc : Meets (step srv) Undisturbed as (init mem save))
    (h : run (step srv) as (init mem save) = some t) : Own srv t :=
  (guarded_invariant (step srv) Undisturbed (Tracked srv) (tracked_step hsrv) as (init mem save) t
    (tracked_init srv mem save) hc h).1

end Invariant

end CSE344.SharedStrtok
