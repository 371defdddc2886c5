import Mathlib.Data.List.Perm.Subperm
import Mathlib.Data.List.Nodup
import SystemProgramming.Stdio
import SystemProgramming.TransitionRun

/-!
# The thread pool of the BibakBOX server

The accept loop of `main`, with the argument that the size is taken from. A
connection is known by its number; its handler runs from the creation of its
thread to a `finish` of its own. The loop neither asks whether the thread in a
slot has finished nor looks at the size: the slots go round with the
connections, also with those whose thread could not be created.
-/

set_option autoImplicit false

namespace CSE344.BoxPool
open CString Stdio TransitionRun

/-- `threadPool` holds the connection whose thread was created last in a slot.
`reused` and `undefined` are histories: a slot was overwritten while its
thread was running, and the behaviour is not defined by the language. -/
structure State where
  threadIndex : ℤ
  threadPool : ℤ → Option ℕ
  live : List ℕ
  accepted : ℕ
  reused : Bool
  undefined : Bool

inductive Act where
  | acceptFails
  | accept (created : Bool)
  | finish (connection : ℕ)
  deriving DecidableEq, Repr

def intMax : ℤ := 2^31-1

/-- `threadPoolSize = atoi(argv[2])` -/
def threadPoolSize (arg : Bytes) : ℤ := atoi arg

/-- `pthread_t threadPool[threadPoolSize]` must have a positive size. -/
def init (size : ℤ) : State := ⟨0, fun _ => none, [], 0, false, decide (size ≤ 0)⟩

/-- The thread recorded in the slot of the next connection still runs. -/
def slotBusy (s : State) : Bool := (s.threadPool s.threadIndex).any (fun k => k ∈ s.live)

/-- `pthread_create(&threadPool[threadIndex], ..)` -/
def create (size : ℤ) (created : Bool) (s : State) : State :=
  if s.threadIndex < 0 ∨ size ≤ s.threadIndex then { s with undefined := true }
  else if created then
    { s with
      threadPool := Function.update s.threadPool s.threadIndex (some s.accepted)
      live := s.live ++ [s.accepted]
      reused := s.reused || slotBusy s }
  else s

/-- `threadIndex = (threadIndex + 1) % threadPoolSize` -/
def advance (size : ℤ) (s : State) : State :=
  if size = 0 ∨ intMax ≤ s.threadIndex then { s with undefined := true }
  else { s with threadIndex := (s.threadIndex+1).tmod size }

def step (size : ℤ) : Act → State → Option State
  | .acceptFails, s => if s.undefined then none else some s
  | .accept created, s =>
    if s.undefined then none
    else
      let s := create size created s
      some { advance size s with accepted := s.accepted+1 }
  | .finish k, s => if k ∈ s.live then some { s with live := s.live.erase k } else none

structure Disciplined (size : ℤ) (s : State) : Prop where
  defined : s.undefined = false
  index : 0 ≤ s.threadIndex ∧ s.threadIndex < size
  reused : s.reused = false
  live : (s.live.length : ℤ) ≤ size

/-- No handler runs whose connection is a multiple of the pool's size before
the one that gets a thread now. -/
def Apart (size : ℤ) : Act → State → Prop
  | .accept true, s => ∀ k ∈ s.live, (k : ℤ) % size ≠ (s.accepted : ℤ) % size
  | _, _ => True

instance Apart.decidable (size : ℤ) (a : Act) (s : State) : Decidable (Apart size a s) := by
  unfold Apart
  split <;> infer_instance

/-- While the discipline is kept, each running thread stands in the slot of its
connection. -/
structure Recorded (size : ℤ) (s : State) : Prop where
  index : s.threadIndex = (s.accepted : ℤ) % size
  slot : ∀ i k, s.threadPool i = some k → (k : ℤ) % size = i ∧ k < s.accepted
  live : ∀ k ∈ s.live, s.threadPool ((k : ℤ) % size) = some k
  nodup : s.live.Nodup

section Steps

variable {size : ℤ} {s : State}

theorem create_defined {created : Bool} (h : 0 ≤ s.threadIndex ∧ s.threadIndex < size) :
    create size created s = if created then
      { s with
        threadPool := Function.update s.threadPool s.threadIndex (some s.accepted)
        live := s.live ++ [s.accepted]
        reused := s.reused || slotBusy s } else s := by
  rw [create, if_neg (by omega)]

theorem advance_defined (hmax : size ≤ intMax) (h : 0 ≤ s.threadIndex ∧ s.threadIndex < size) :
    advance size s = { s with threadIndex := (s.threadIndex+1) % size } := by
  rw [advance, if_neg (by omega), Int.tmod_eq_emod_of_nonneg (by omega)]

theorem Recorded.slotBusy_iff (h : Recorded size s) :
    slotBusy s = true ↔ ∃ k ∈ s.live, (k : ℤ) % size = (s.accepted : ℤ) % size := by
  rw [slotBusy, Option.any_eq_true]
  constructor
  · rintro ⟨k, hk, hlive⟩
    exact ⟨k, by simpa using hlive, by rw [(h.slot _ k hk).1, h.index]⟩
  · rintro ⟨k, hk, hres⟩
    exact ⟨k, by rw [h.index, ← hres, h.live k hk], by simpa using hk⟩

/-- The connections of running handlers differ modulo the size, so there are no
more of them than slots. -/
theorem Recorded.live_le (h : Recorded size s) (hsize : 1 ≤ size) :
    (s.live.length : ℤ) ≤ size := by
  have hnodup : (s.live.map (fun k : ℕ => ((k : ℤ) % size).toNat)).Nodup := by
    apply List.Nodup.map_on _ h.nodup
    intro k hk j hj heq
    have hk0 := Int.emod_nonneg k (show size ≠ 0 by omega)
    have hj0 := Int.emod_nonneg j (show size ≠ 0 by omega)
    have hsame := h.live k hk
    rw [show (k : ℤ) % size = (j : ℤ) % size by omega, h.live j hj] at hsame
    exact (Option.some.inj hsame).symm
  have hsub : s.live.map (fun k : ℕ => ((k : ℤ) % size).toNat) ⊆ List.range size.toNat := by
    intro i hi
    obtain ⟨k, -, rfl⟩ := List.mem_map.mp hi
    have hlt := Int.emod_lt_of_pos k (show 0 < size by omega)
    rw [List.mem_range]
    omega
  have := (List.subperm_of_subset hnodup hsub).length_le
  rw [List.length_map, List.length_range] at this
  omega

theorem next_index (size : ℤ) (n : ℕ) :
    ((n : ℤ) % size+1) % size = ((n+1 : ℕ) : ℤ) % size := by
  rw [Int.emod_add_emod]
  push_cast
  rfl

theorem accept_some {created : Bool} {t : State} (hmax : size ≤ intMax) (hp : Disciplined size s)
    (h : step size (.accept created) s = some t) :
    t = if created then
      { s with
        threadPool := Function.update s.threadPool s.threadIndex (some s.accepted)
        live := s.live ++ [s.accepted]
        reused := slotBusy s
        threadIndex := (s.threadIndex+1) % size
        accepted := s.accepted+1 }
    else { s with threadIndex := (s.threadIndex+1) % size, accepted := s.accepted+1 } := by
  simp only [step, hp.defined, Bool.false_eq_true, if_false, Option.some.injEq] at h
  rw [← h, create_defined hp.index]
  cases created with
  | true => simp [advance_defined hmax, hp.index, hp.reused]
  | false => simp [advance_defined hmax hp.index]

theorem notCreated_recorded (hq : Recorded size s) : Recorded size
    { s with threadIndex := (s.threadIndex+1) % size, accepted := s.accepted+1 } where
  index := by
    rw [← next_index, ← hq.index]
  slot i k hk := ⟨(hq.slot i k hk).1, Nat.lt_succ_of_lt (hq.slot i k hk).2⟩
  live := hq.live
  nodup := hq.nodup

theorem created_recorded (hq : Recorded size s) (hc : Apart size (.accept true) s) :
    Recorded size { s with
      threadPool := Function.update s.threadPool s.threadIndex (some s.accepted)
      live := s.live ++ [s.accepted]
      reused := slotBusy s
      threadIndex := (s.threadIndex+1) % size
      accepted := s.accepted+1 } where
  index := by
    rw [← next_index, ← hq.index]
  slot i k hk := by
    dsimp only at hk ⊢
    by_cases hi : i = s.threadIndex
    · rw [hi, Function.update_self] at hk
      cases hk
      exact ⟨by rw [hi, hq.index], Nat.lt_succ_self _⟩
    · rw [Function.update_of_ne hi] at hk
      exact ⟨(hq.slot i k hk).1, Nat.lt_succ_of_lt (hq.slot i k hk).2⟩
  live k hk := by
    dsimp only
    rcases List.mem_append.mp hk with hk | hk
    · rw [Function.update_of_ne (by rw [hq.index]; exact hc k hk)]
      exact hq.live k hk
    · rw [List.mem_singleton.mp hk, ← hq.index, Function.update_self]
  nodup := by
    rw [List.nodup_append]
    refine ⟨hq.nodup, by simp, fun k hk j hj => ?_⟩
    rw [List.mem_singleton.mp hj]
    exact fun heq => hc k hk (by rw [heq])

theorem finish_recorded (hq : Recorded size s) (k : ℕ) :
    Recorded size { s with live := s.live.erase k } where
  index := hq.index
  slot := hq.slot
  live j hj := hq.live j (List.mem_of_mem_erase hj)
  nodup := hq.nodup.erase k

theorem step_recorded (hmax : size ≤ intMax) (a : Act) (t : State) (hp : Disciplined size s)
    (hq : Recorded size s) (hc : Apart size a s) (h : step size a s = some t) :
    Recorded size t := by
  cases a with
  | acceptFails =>
    simp only [step, hp.defined, Bool.false_eq_true, if_false, Option.some.injEq] at h
    exact h ▸ hq
  | accept created =>
    rw [accept_some hmax hp h]
    cases created with
    | false => exact notCreated_recorded hq
    | true => exact created_recorded hq hc
  | finish k =>
    simp only [step, Option.ite_none_right_eq_some, Option.some.injEq] at h
    exact h.2 ▸ finish_recorded hq k

/-- Only the creation of a thread can break the discipline, and it does unless
its connection is apart from those that are served. -/
theorem step_keeps (hsize : 1 ≤ size) (hmax : size ≤ intMax) (a : Act) (t : State)
    (hp : Disciplined size s) (hq : Recorded size s) (h : step size a s = some t) :
    Disciplined size t ↔ Apart size a s := by
  have hindex : 0 ≤ (s.threadIndex+1) % size ∧ (s.threadIndex+1) % size < size :=
    ⟨Int.emod_nonneg _ (by omega), Int.emod_lt_of_pos _ (by omega)⟩
  cases a with
  | acceptFails =>
    simp only [step, hp.defined, Bool.false_eq_true, if_false, Option.some.injEq] at h
    exact iff_of_true (h ▸ hp) trivial
  | finish k =>
    simp only [step, Option.ite_none_right_eq_some, Option.some.injEq] at h
    rw [← h.2]
    refine iff_of_true ⟨hp.defined, hp.index, hp.reused, ?_⟩ trivial
    exact (finish_recorded hq k).live_le hsize
  | accept created =>
    have ht := accept_some hmax hp h
    cases created with
    | false =>
      rw [ht]
      exact iff_of_true ⟨hp.defined, hindex, hp.reused, hp.live⟩ trivial
    | true =>
      have hbusy := hq.slotBusy_iff
      constructor
      · intro ht' k hk hres
        have hreused := ht'.reused
        rw [ht, if_pos rfl] at hreused
        dsimp only at hreused
        rw [hbusy.mpr ⟨k, hk, hres⟩] at hreused
        cases hreused
      · intro hc
        have hlive := (step_recorded hmax (.accept true) t hp hq hc h).live_le hsize
        rw [ht, if_pos rfl] at hlive ⊢
        refine ⟨hp.defined, hindex, ?_, hlive⟩
        dsimp only
        rw [← Bool.not_eq_true, hbusy]
        rintro ⟨k, hk, hres⟩
        exact hc k hk hres

end Steps

theorem threadPoolSize_le (arg : Bytes) : threadPoolSize arg ≤ intMax := by
  have := Int.bmod_lt (x := strtol arg) (m := 2^32) (by decide)
  rw [threadPoolSize, atoi, intMax]
  omega

theorem disciplined_init {size : ℤ} (h : 1 ≤ size) : Disciplined size (init size) where
  defined := by simp [init]; omega
  index := ⟨le_refl 0, by show (0 : ℤ) < size; omega⟩
  reused := rfl
  live := by show ((0 : ℕ) : ℤ) ≤ size; omega

theorem recorded_init (size : ℤ) : Recorded size (init size) where
  index := (Int.zero_emod size).symm
  slot i k hk := by cases hk
  live k hk := by cases hk
  nodup := List.nodup_nil

/-- The pool is used as it is meant to be, in every state of a run, if and only
if its size is positive and each thread is created when no handler runs whose
connection came a multiple of the size before. -/
theorem pool_disciplined_iff (arg : Bytes) (as : List Act) (t : State)
    (h : run (step (threadPoolSize arg)) as (init (threadPoolSize arg)) = some t) :
    Throughout (step (threadPoolSize arg)) (Disciplined (threadPoolSize arg)) as
        (init (threadPoolSize arg)) ↔
      1 ≤ threadPoolSize arg ∧
        Meets (step (threadPoolSize arg)) (Apart (threadPoolSize arg)) as
          (init (threadPoolSize arg)) := by
  have hmax := threadPoolSize_le arg
  generalize threadPoolSize arg = size at *
  by_cases hsize : 1 ≤ size
  · rw [throughout_iff_meets (step size) (Apart size) (Disciplined size) (Recorded size)
      (fun a s u hp hq hu => step_keeps hsize hmax a u hp hq hu)
      (fun a s u hp hq hc hu => step_recorded hmax a u hp hq hc hu)
      as (init size) t (disciplined_init hsize) (recorded_init size) h]
    exact (and_iff_right hsize).symm
  · refine iff_of_false (fun hth => ?_) (fun hc => hsize hc.1)
    have hfirst : Disciplined size (init size) := by
      cases as with
      | nil => exact hth
      | cons a as => exact hth.1
    have := hfirst.index
    simp only [init] at this
    omega

def oneSlot : Bytes := ascii "1"

/-- The second connection comes when the first handler has finished. -/
theorem pool_disciplined_in_turn :
    Throughout (step (threadPoolSize oneSlot)) (Disciplined (threadPoolSize oneSlot))
      [.accept true, .finish 0, .accept true] (init (threadPoolSize oneSlot)) :=
  (pool_disciplined_iff oneSlot [.accept true, .finish 0, .accept true] _ rfl).mpr
    ⟨by decide, by decide⟩

/-- Two connections that stay, with a pool of one; and a pool of none. -/
theorem pool_overrun :
    (∃ t, run (step (threadPoolSize oneSlot)) [.accept true, .accept true]
        (init (threadPoolSize oneSlot)) = some t ∧ t.reused = true ∧ t.live = [0, 1]) ∧
      ¬ Disciplined (threadPoolSize (ascii "0")) (init (threadPoolSize (ascii "0"))) :=
  ⟨⟨_, rfl, rfl, rfl⟩, fun h => absurd h.index.2 (by decide)⟩

end CSE344.BoxPool
