import Mathlib.Algebra.Ring.Nat
import SystemProgramming.PcpShutdown
import SystemProgramming.RankedRun

/-!
# Every run of pCp comes to an end

Each section uses something up. An entry pays for the pair that it may put
into the ring, for the consumer that its signal wakes and for the producer
itself; a pair in the ring pays for the turn of the consumer that takes it.
Only wake-ups that nobody asked for cost the machine nothing. Since some
thread can move as long as one has not returned, all of them return.
-/

set_option autoImplicit false

namespace CSE344.PcpRank
open TransitionRun PcpMachine PcpFifo PcpWakeup PcpShutdown RankedRun

/-- A wake-up without a signal. -/
def spurious : Act → Bool
  | .spuriousNotFull => true
  | .spuriousNotEmpty _ => true
  | _ => false

/-- The ring is empty for good. -/
def drained (b : Buffer) : Bool := b.count = 0 ∧ b.done = true

/-- Before `opendir` the whole directory is still to be read; the broadcast
may wake all `n` consumers. -/
def producerRank (cfg : Config) (n : ℕ) : Producer → ℕ
  | .start => n+3+7*cfg.entries.length
  | .scan rest => n+2+7*rest.length
  | .produce _ _ rest => n+8+7*rest.length
  | .asleep _ _ rest => n+7+7*rest.length
  | .finish => n+1
  | .returned => 0

/-- The last turn of a consumer goes from its section to the test behind it;
before that it goes around. -/
def consumerRank : Bool → Consumer → ℕ
  | _, .returned => 0
  | _, .asleep => 2
  | true, .consume => 2
  | true, .check => 1
  | false, .consume => 3
  | false, .check => 4

def consumersRank (o : Bool) (cs : List Consumer) : ℕ := (cs.map (consumerRank o)).sum

def rank (cfg : Config) (s : State) : ℕ :=
  producerRank cfg s.consumers.length s.producer + 3*s.buf.count.toNat +
    consumersRank (drained s.buf) s.consumers

theorem consumersRank_set (o : Bool) (cs : List Consumer) (i : ℕ) (c d : Consumer)
    (hi : cs[i]? = some c) :
    consumersRank o (cs.set i d)+consumerRank o c = consumersRank o cs+consumerRank o d := by
  induction cs generalizing i with
  | nil => cases hi
  | cons e cs ih =>
    cases i with
    | zero =>
      obtain rfl : e = c := by simpa using hi
      simp only [consumersRank, List.set_cons_zero, List.map_cons, List.sum_cons]
      omega
    | succ i =>
      have := ih i (by simpa using hi)
      simp only [consumersRank, List.set_cons_succ, List.map_cons, List.sum_cons] at *
      omega

theorem consumerRank_over (c : Consumer) : consumerRank true c ≤ consumerRank false c := by
  cases c <;> decide

theorem consumersRank_le (o : Bool) (cs : List Consumer) :
    consumersRank o cs ≤ consumersRank false cs := by
  cases o with
  | false => exact le_refl _
  | true =>
    induction cs with
    | nil => exact le_refl _
    | cons c cs ih =>
      have := consumerRank_over c
      simp only [consumersRank, List.map_cons, List.sum_cons] at *
      omega

theorem signal_rank (cs ds : List Consumer) (wake : Option ℕ)
    (hw : signalNotEmpty cs wake = some ds) :
    consumersRank false ds ≤ consumersRank false cs+1 := by
  cases wake with
  | none =>
    simp only [signalNotEmpty] at hw
    split_ifs at hw
    cases hw
    omega
  | some i =>
    simp only [signalNotEmpty] at hw
    split_ifs at hw with hi
    cases hw
    have := consumersRank_set false cs i .asleep .consume hi
    simp only [consumerRank] at this
    omega

theorem broadcast_rank (cs : List Consumer) :
    consumersRank false (broadcastNotEmpty cs) ≤ consumersRank false cs+cs.length := by
  induction cs with
  | nil => exact le_refl _
  | cons c cs ih =>
    have hc : consumerRank false (if c = .asleep then .consume else c) ≤
        consumerRank false c+1 := by
      cases c <;> decide
    simp only [consumersRank, broadcastNotEmpty, List.map_cons, List.sum_cons,
      List.length_cons] at *
    omega

theorem rank_le (cfg : Config) (s : State) :
    rank cfg s ≤ producerRank cfg s.consumers.length s.producer + 3*s.buf.count.toNat +
      consumersRank false s.consumers :=
  Nat.add_le_add_left (consumersRank_le _ _) _

/-- As long as the ring is not empty for good, the bound is the rank. -/
theorem rank_eq (cfg : Config) (s : State) (h : s.buf.count ≠ 0 ∨ s.buf.done = false) :
    rank cfg s = producerRank cfg s.consumers.length s.producer + 3*s.buf.count.toNat +
      consumersRank false s.consumers := by
  have hover : drained s.buf = false := by
    rcases h with h | h <;> simp [drained, h]
  rw [rank, hover]

theorem signalNotFull_rank (cfg : Config) (n : ℕ) (p : Producer) :
    producerRank cfg n (signalNotFull p) ≤ producerRank cfg n p+1 := by
  cases p <;> simp only [signalNotFull, producerRank] <;> omega

theorem rank_consumer (cfg : Config) (s : State) (i : ℕ) (c d : Consumer)
    (hi : s.consumers[i]? = some c) :
    rank cfg { s with consumers := s.consumers.set i d }+consumerRank (drained s.buf) c =
      rank cfg s+consumerRank (drained s.buf) d := by
  have := consumersRank_set (drained s.buf) s.consumers i c d hi
  simp only [rank, List.length_set]
  omega

theorem rank_falls (cfg : Config) (s : State) (a : Act) (t : State) (hv : Fifo s) (he : Exit s)
    (h : Move cfg s a t) (ha : spurious a = false) : rank cfg t < rank cfg s := by
  have hcount := hv.ring.count_nonneg
  cases h with
  | opendir ok hp => cases ok <;> simp [rank, producerRank, hp]
  | closedir hp => simp [rank, producerRank, hp]
  | readdir name rest hp =>
    simp only [rank, afterReaddir, hp]
    split_ifs <;> simp only [producerRank, List.length_cons] <;> omega
  | sleepFull src dst rest a b wake hp => simp [rank, producerRank, hp]
  | openFails src dst rest a b wake hp => simp [rank, producerRank, hp]
  | store src dst rest a b wake cs hp hfree ha hb hw =>
    have hbefore := rank_eq cfg s (.inr (he.not_done (by simp [hp])))
    have hsignal := signal_rank s.consumers cs wake hw
    refine lt_of_le_of_lt (rank_le cfg _) ?_
    simp only [hbefore, hp, producerRank, signal_length _ _ _ hw]
    omega
  | finish hp =>
    have hbefore := rank_eq cfg s (.inr (he.not_done (by simp [hp])))
    have hbroadcast := broadcast_rank s.consumers
    refine lt_of_le_of_lt (rank_le cfg _) ?_
    simp only [hbefore, hp, producerRank]
    omega
  | sleepEmpty i hi h0 hd =>
    have hover : drained s.buf = false := by simp [drained, hd]
    have hrank := rank_consumer cfg s i .consume .asleep hi
    rw [hover] at hrank
    simp only [consumerRank] at hrank
    omega
  | leave i hi h0 hd =>
    have hover : drained s.buf = true := by simp [drained, h0, hd]
    have hrank := rank_consumer cfg s i .consume .check hi
    rw [hover] at hrank
    simp only [consumerRank] at hrank
    omega
  | take i hi hpos =>
    have hbefore := rank_eq cfg s (.inl hpos)
    have hset := consumersRank_set false s.consumers i .consume .check hi
    have hsignal := signalNotFull_rank cfg s.consumers.length s.producer
    refine lt_of_le_of_lt (rank_le cfg _) ?_
    simp only [consumerRank] at hset
    simp only [hbefore, List.length_set]
    omega
  | check i hi =>
    have hrank := rank_consumer cfg s i .check (afterCheck s.buf) hi
    have hless : consumerRank (drained s.buf) (afterCheck s.buf) <
        consumerRank (drained s.buf) .check := by
      by_cases hover : s.buf.count = 0 ∧ s.buf.done = true <;>
        simp [drained, afterCheck, hover, consumerRank]
    omega
  | spuriousNotFull src dst rest hp => cases ha
  | spuriousNotEmpty i hi => cases ha

theorem rank_rises (cfg : Config) (s : State) (a : Act) (t : State) (h : Move cfg s a t)
    (ha : spurious a = true) : rank cfg t ≤ rank cfg s+1 := by
  cases h with
  | spuriousNotFull src dst rest hp =>
    simp only [rank, hp, producerRank]
    omega
  | spuriousNotEmpty i hi =>
    have hrank := rank_consumer cfg s i .asleep .consume hi
    cases hover : drained s.buf <;> simp only [hover, consumerRank] at hrank <;> omega
  | _ => cases ha

theorem ranked (cfg : Config) :
    Ranked (step cfg) (fun s => Fifo s ∧ Exit s) spurious (rank cfg) where
  falls a s t hs h := rank_falls cfg s a t hs.1 hs.2 (step_move cfg a s t h)
  rises a s t _ h := rank_rises cfg s a t (step_move cfg a s t h)

theorem rank_init (cfg : Config) :
    rank cfg (init cfg) = 7*cfg.entries.length+4*cfg.consumers+3 := by
  have hawake : consumersRank false (List.replicate cfg.consumers .consume) =
      3*cfg.consumers := by
    induction cfg.consumers with
    | zero => rfl
    | succ n ih =>
      rw [consumersRank, List.replicate_succ, List.map_cons, List.sum_cons,
        ← consumersRank, ih, consumerRank]
      omega
  rw [rank_eq cfg (init cfg) (.inr rfl)]
  simp only [init, initBuffer, producerRank, List.length_replicate, hawake, Int.toNat_zero]
  omega

/-- A run has room for seven steps an entry and four a consumer, and each
wake-up without a signal adds itself and one step more. -/
theorem run_length_le (cfg : Config) (as : List Act) (s : State)
    (h : run (step cfg) as (init cfg) = some s) :
    as.length ≤ 7*cfg.entries.length+4*cfg.consumers+3+2*as.countP spurious := by
  have hle := (ranked cfg).length_le (fun a u v hu hv =>
      ⟨fifo_move cfg u a v hu.1 (step_move cfg a u v hv),
        exit_move cfg u a v hu.2 (step_move cfg a u v hv)⟩)
    as (init cfg) s ⟨fifo_init cfg, exit_init cfg⟩ h
  rw [rank_init] at hle
  omega

def Finished (s : State) : Prop := s.producer = .returned ∧ ∀ c ∈ s.consumers, c = .returned

instance Finished.decidable (s : State) : Decidable (Finished s) :=
  inferInstanceAs (Decidable (_ ∧ _))

/-- Nobody can move, unless by a wake-up that nobody asked for. -/
def Stuck (cfg : Config) (s : State) : Prop := ∀ a, spurious a = false → step cfg a s = none

theorem not_stuck_of_enabled (cfg : Config) (s : State) (h : Enabled cfg s) : ¬ Stuck cfg s := by
  intro hstuck
  have hno (a : Act) (ha : spurious a = false) : ¬ (step cfg a s).isSome = true := by
    simp [hstuck a ha]
  cases h with
  | opendir h => exact hno _ rfl h
  | readdir h => exact hno _ rfl h
  | produce h =>
    obtain ⟨wake, h⟩ := h 0 0
    exact hno _ rfl h
  | finish h => exact hno _ rfl h
  | consume i h => exact hno _ rfl h
  | check i h => exact hno _ rfl h

theorem Finished.stuck {cfg : Config} {s : State} (h : Finished s) : Stuck cfg s := by
  intro a ha
  have hno (i : ℕ) (c : Consumer) (hi : s.consumers[i]? = some c) : c = .returned :=
    h.2 c (List.mem_of_getElem? hi)
  cases hs : step cfg a s with
  | none => rfl
  | some t =>
    have hp := h.1
    cases step_move cfg a s t hs with
    | sleepEmpty i hi => cases hno i _ hi
    | leave i hi => cases hno i _ hi
    | take i hi => cases hno i _ hi
    | check i hi => cases hno i _ hi
    | spuriousNotEmpty i hi => cases ha
    | _ => simp_all

/-- Whatever the schedule, a run of pCp is short, and the only states in which
it can stop are those where all threads have returned. -/
theorem every_run_ends (cfg : Config) (hn : 1 ≤ cfg.consumers) (as : List Act)
    (hopen : .opendir false ∉ as) (s : State) (h : run (step cfg) as (init cfg) = some s) :
    as.length ≤ 7*cfg.entries.length+4*cfg.consumers+3+2*as.countP spurious ∧
      (Stuck cfg s ↔ Finished s) := by
  refine ⟨run_length_le cfg as s h, fun hstuck => ?_, Finished.stuck⟩
  by_contra hnot
  exact not_stuck_of_enabled cfg s (no_deadlock cfg s (wakeful_reachable cfg hn as s h)
    (published_reachable cfg as hopen s h) hnot) hstuck

theorem every_run_ends_one_entry : ∃ s,
    run (step oneEntry) oneEntryRun (init oneEntry) = some s ∧ Finished s ∧
      (Stuck oneEntry s ↔ Finished s) :=
  ⟨_, rfl, by decide, (every_run_ends oneEntry (by decide) oneEntryRun (by decide) _ rfl).2⟩

end CSE344.PcpRank
