import SystemProgramming.PcpWakeup

/-!
# The end of pCp when the source directory cannot be opened

The branch of `producer_thread` that a failed `opendir` takes returns without
`buf.done` and without the broadcast. Nobody else signals `not_empty`, so who
sleeps there by then, or goes to sleep there later, is left to a wake-up that
nobody sends.
-/

set_option autoImplicit false

namespace CSE344.PcpShutdown
open TransitionRun PcpMachine PcpFifo PcpWakeup

/-- Only `producer_thread` signals `not_empty`. -/
def Stranded (s : State) : Prop := s.producer = .returned ∧ .asleep ∈ s.consumers

instance Stranded.decidable (s : State) : Decidable (Stranded s) :=
  inferInstanceAs (Decidable (_ ∧ _))

/-- What the normal exit leaves behind. -/
def Published (s : State) : Prop :=
  s.producer = .returned → s.buf.done = true ∧ .asleep ∉ s.consumers

/-- `opendir` does not fail while a consumer sleeps, and no consumer runs its
section after a return that has not published `buf.done`. -/
def Awaited : Act → State → Prop
  | .opendir false, s => .asleep ∉ s.consumers
  | .consume _, s => s.producer = .returned → s.buf.done = true
  | _, _ => True

instance Awaited.decidable (a : Act) (s : State) : Decidable (Awaited a s) := by
  unfold Awaited
  split <;> infer_instance

/-- Nothing is stored before `opendir`, nor at all when it fails. -/
structure Unfilled (s : State) : Prop where
  start : s.producer = .start → s.buf.count = 0
  failed : s.producer = .returned → s.buf.done = false → s.buf.count = 0

theorem unfilled_init (cfg : Config) : Unfilled (init cfg) where
  start _ := rfl
  failed _ _ := rfl

theorem signalNotFull_eq_start (p : Producer) : signalNotFull p = .start ↔ p = .start := by
  cases p <;> simp [signalNotFull]

theorem signalNotFull_eq_returned (p : Producer) :
    signalNotFull p = .returned ↔ p = .returned := by
  cases p <;> simp [signalNotFull]

theorem afterReaddir_running (cfg : Config) (name : CString.Bytes) (rest : List CString.Bytes) :
    afterReaddir cfg name rest ≠ .start ∧ afterReaddir cfg name rest ≠ .returned := by
  unfold afterReaddir
  split_ifs <;> simp

theorem Unfilled.of_running {s : State} (hs : s.producer ≠ .start)
    (hr : s.producer ≠ .returned) : Unfilled s where
  start h := absurd h hs
  failed h := absurd h hr

theorem unfilled_move (cfg : Config) (s : State) (a : Act) (t : State) (hs : Unfilled s)
    (h : Move cfg s a t) : Unfilled t := by
  cases h with
  | opendir ok hp =>
    cases ok with
    | true => exact .of_running (by simp) (by simp)
    | false => exact ⟨fun _ => hs.start hp, fun _ _ => hs.start hp⟩
  | readdir name rest hp =>
    exact .of_running (afterReaddir_running cfg name rest).1 (afterReaddir_running cfg name rest).2
  | finish hp => exact ⟨fun h => (by cases h), fun _ hd => (by cases hd)⟩
  | take i hi hpos =>
    refine ⟨fun h => ?_, fun h hd => ?_⟩
    · exact absurd (hs.start ((signalNotFull_eq_start _).mp h)) hpos
    · exact absurd (hs.failed ((signalNotFull_eq_returned _).mp h) hd) hpos
  | sleepEmpty => exact ⟨hs.start, hs.failed⟩
  | leave => exact ⟨hs.start, hs.failed⟩
  | check => exact ⟨hs.start, hs.failed⟩
  | spuriousNotEmpty => exact ⟨hs.start, hs.failed⟩
  | _ => exact .of_running (by simp) (by simp)

theorem not_stranded_set {s t : State} {i : ℕ} {c : Consumer} (hs : ¬ Stranded s)
    (hc : c ≠ .asleep) (hp : t.producer = .returned → s.producer = .returned)
    (ht : t.consumers = s.consumers.set i c) : ¬ Stranded t := by
  rintro ⟨hret, hasleep⟩
  rw [ht] at hasleep
  by_cases hnobody : .asleep ∈ s.consumers
  · exact hs ⟨hp hret, hnobody⟩
  · exact set_nobody hc hnobody hasleep

theorem not_stranded_running {s : State} (hr : s.producer ≠ .returned) : ¬ Stranded s :=
  fun h => hr h.1

theorem stranded_move (cfg : Config) (s : State) (a : Act) (t : State) (hp : ¬ Stranded s)
    (hu : Unfilled s) (h : Move cfg s a t) : ¬ Stranded t ↔ Awaited a s := by
  cases h with
  | opendir ok hstart => cases ok <;> simp [Stranded, Awaited]
  | readdir name rest hscan =>
    exact iff_of_true (not_stranded_running (afterReaddir_running cfg name rest).2) trivial
  | finish hfinish => exact iff_of_true (fun h => broadcast_nobody _ h.2) trivial
  | sleepEmpty i hi h0 hd =>
    have hlt := (List.getElem?_eq_some_iff.mp hi).1
    have hmem : Consumer.asleep ∈ s.consumers.set i .asleep := List.mem_set hlt _
    simp [Stranded, Awaited, hmem, hd]
  | leave i hi h0 hd =>
    exact iff_of_true (not_stranded_set hp (by simp) id rfl) (fun _ => hd)
  | take i hi hpos =>
    refine iff_of_true (not_stranded_set hp (c := .check) (by simp)
      (signalNotFull_eq_returned _).mp rfl) (fun hret => ?_)
    by_contra hd
    exact hpos (hu.failed hret (by simpa using hd))
  | check i hi =>
    exact iff_of_true (not_stranded_set hp (afterCheck_ne_asleep s.buf) id rfl) trivial
  | spuriousNotEmpty i hi =>
    exact iff_of_true (not_stranded_set hp (by simp) id rfl) trivial
  | _ => exact iff_of_true (not_stranded_running (by simp)) trivial

theorem published_step (cfg : Config) (s : State) (a : Act) (t : State) (hp : Published s)
    (he : Exit s) (h : Move cfg s a t) : Published t ↔ a ≠ .opendir false := by
  cases h with
  | opendir ok hstart =>
    have hd := he.not_done (by simp [hstart])
    cases ok <;> simp [Published, hd]
  | readdir name rest hscan =>
    exact iff_of_true (fun h => absurd h (afterReaddir_running cfg name rest).2) (by simp)
  | finish hfinish => exact iff_of_true (fun _ => ⟨rfl, broadcast_nobody _⟩) (by simp)
  | sleepEmpty i hi h0 hd =>
    refine iff_of_true (fun hret => ?_) (by simp)
    have hdone := (hp hret).1
    rw [hd] at hdone
    cases hdone
  | leave i hi h0 hd =>
    exact iff_of_true (fun hret => ⟨hd, set_nobody (by simp) (hp hret).2⟩) (by simp)
  | take i hi hpos =>
    refine iff_of_true (fun hret => ?_) (by simp)
    have hpub := hp ((signalNotFull_eq_returned _).mp hret)
    exact ⟨hpub.1, set_nobody (by simp) hpub.2⟩
  | check i hi =>
    exact iff_of_true (fun hret => ⟨(hp hret).1,
      set_nobody (afterCheck_ne_asleep s.buf) (hp hret).2⟩) (by simp)
  | spuriousNotEmpty i hi =>
    exact iff_of_true (fun hret => ⟨(hp hret).1, set_nobody (by simp) (hp hret).2⟩) (by simp)
  | _ => exact iff_of_true (fun hret => absurd hret (by simp)) (by simp)

/-- Along a run nobody is stranded if and only if no consumer sleeps when
`opendir` fails and none runs its section after the return that follows, and
the exits keep their promise if and only if `opendir` does not fail. -/
theorem nobody_stranded_iff (cfg : Config) (as : List Act) (t : State)
    (h : run (step cfg) as (init cfg) = some t) :
    (Throughout (step cfg) (fun s => ¬ Stranded s) as (init cfg) ↔
      Meets (step cfg) Awaited as (init cfg)) ∧
    (Throughout (step cfg) Published as (init cfg) ↔ .opendir false ∉ as) := by
  constructor
  · refine throughout_iff_meets (step cfg) Awaited (fun s => ¬ Stranded s) Unfilled
      (fun a u v hp hu hv => stranded_move cfg u a v hp hu (step_move cfg a u v hv))
      (fun a u v _ hu _ hv => unfilled_move cfg u a v hu (step_move cfg a u v hv))
      as (init cfg) t (by simp [Stranded, init]) (unfilled_init cfg) h
  · rw [throughout_iff_meets (step cfg) (fun a _ => a ≠ .opendir false) Published Exit
      (fun a u v hp he hv => published_step cfg u a v hp he (step_move cfg a u v hv))
      (fun a u v _ he _ hv => exit_move cfg u a v he (step_move cfg a u v hv))
      as (init cfg) t (by simp [Published, init]) (exit_init cfg) h,
      meets_labels_iff (step cfg) (fun a => a ≠ .opendir false) as (init cfg) t h]
    constructor
    · intro hall hmem
      exact hall _ hmem rfl
    · rintro hno a ha rfl
      exact hno ha

/-- The consumer that comes first sleeps when `opendir` fails. -/
theorem nobody_stranded_early_consumer :
    ∃ t, run (step oneEntry) [.consume 0, .opendir false] (init oneEntry) = some t ∧
      Stranded t ∧ ¬ Meets (step oneEntry) Awaited [.consume 0, .opendir false] (init oneEntry) :=
  ⟨_, rfl, by decide, by decide⟩

theorem nobody_stranded_iff_late_consumer :
    ∃ t, run (step oneEntry) [.opendir false] (init oneEntry) = some t ∧
      (Throughout (step oneEntry) (fun s => ¬ Stranded s) [.opendir false] (init oneEntry) ↔
        Meets (step oneEntry) Awaited [.opendir false] (init oneEntry)) ∧
      (Throughout (step oneEntry) Published [.opendir false] (init oneEntry) ↔
        .opendir false ∉ [Act.opendir false]) :=
  ⟨_, rfl, nobody_stranded_iff oneEntry [.opendir false] _ rfl⟩

/-- The failed branch is final: the producer is gone and the flag stays down. -/
theorem failed_move (cfg : Config) (s : State) (a : Act) (t : State)
    (hs : s.producer = .returned ∧ s.buf.done = false) (h : Move cfg s a t) :
    t.producer = .returned ∧ t.buf.done = false := by
  cases h with
  | take i hi hpos => exact ⟨(signalNotFull_eq_returned _).mpr hs.1, hs.2⟩
  | sleepEmpty => exact hs
  | leave => exact hs
  | check => exact hs
  | spuriousNotEmpty => exact hs
  | _ => simp_all

theorem failed_reachable (cfg : Config) (as : List Act) (hfail : .opendir false ∈ as) (t : State)
    (h : run (step cfg) as (init cfg) = some t) :
    t.producer = .returned ∧ t.buf.done = false := by
  refine run_after_label (step cfg) (.opendir false) Exit
    (fun v => v.producer = .returned ∧ v.buf.done = false)
    (fun a u v hu hv => exit_move cfg u a v hu (step_move cfg a u v hv)) (fun u v hu hv => ?_)
    (fun a u v _ hu hv => failed_move cfg u a v hu (step_move cfg a u v hv))
    as hfail (init cfg) t (exit_init cfg) h
  cases step_move cfg (.opendir false) u v hv with
  | opendir ok hstart => exact ⟨rfl, hu.not_done (by simp [hstart])⟩

/-- After a failed `opendir` no consumer ever returns, and from wherever the
program stands one of them can go to sleep for good. -/
theorem failed_opendir_hangs (cfg : Config) (hn : 1 ≤ cfg.consumers) (as : List Act)
    (hfail : .opendir false ∈ as) (t : State) (h : run (step cfg) as (init cfg) = some t) :
    .returned ∉ t.consumers ∧ ∃ u, Reaches (step cfg) t u ∧ Stranded u := by
  obtain ⟨hret, hdone⟩ := failed_reachable cfg as hfail t h
  have hcount := (reachable_invariant cfg Unfilled (unfilled_init cfg)
    (fun u a v hu hv => unfilled_move cfg u a v hu hv) as t h).failed hret hdone
  have hnone : .returned ∉ t.consumers := by
    intro hmem
    have := ((exit_reachable cfg as t h).left hmem).2
    simp [hdone] at this
  refine ⟨hnone, ?_⟩
  have hlen := consumers_length cfg as t h
  obtain ⟨c, hc⟩ : ∃ c, t.consumers[0]? = some c :=
    ⟨_, List.getElem?_eq_getElem (show 0 < t.consumers.length by omega)⟩
  -- the section of a consumer that sees the ring empty and the flag down
  have hsleep (v : State) (hv : v.consumers[0]? = some .consume) (hp : v.producer = .returned)
      (hb : v.buf = t.buf) : ∃ u, step cfg (.consume 0) v = some u ∧ Stranded u := by
    refine ⟨{ v with consumers := v.consumers.set 0 .asleep },
      by simp [step, hv, consumeFileDescriptorPair, hb, hcount, hdone], hp, ?_⟩
    exact List.mem_set (List.getElem?_eq_some_iff.mp hv).1 _
  cases c with
  | asleep => exact ⟨t, .refl _ _, hret, List.mem_of_getElem? hc⟩
  | consume =>
    obtain ⟨u, hu, hstr⟩ := hsleep t hc hret rfl
    exact ⟨u, .step hu (.refl _ _), hstr⟩
  | check =>
    obtain ⟨u, hu, hstr⟩ := hsleep { t with consumers := t.consumers.set 0 .consume }
      (by simp [show 0 < t.consumers.length by omega]) hret rfl
    have hcheck : step cfg (.check 0) t =
        some { t with consumers := t.consumers.set 0 .consume } := by
      simp [step, hc, afterCheck, hdone]
    exact ⟨u, .step hcheck (.step hu (.refl _ _)), hstr⟩
  | returned => exact absurd (List.mem_of_getElem? hc) hnone

end CSE344.PcpShutdown
