import SystemProgramming.PcpFifo

/-!
# No lost wake-up and no deadlock in pCp

A signal goes to one waiter and is lost when there is none. What saves the
program is that a thread sleeps only after it has seen the ring full or empty
under the mutex, that every store and every take signals, and that the final
broadcast comes with `buf.done`. The invariant counts on awake threads only:
an awake consumer need not be the one that was signalled.
-/

set_option autoImplicit false

namespace CSE344.PcpWakeup
open TransitionRun PcpMachine PcpFifo

/-- A consumer that has not returned and is not asleep. -/
def SomeAwake (cs : List Consumer) : Prop := ∃ c ∈ cs, c = .consume ∨ c = .check

structure Wakeful (s : State) : Prop where
  asleep_full : ∀ src dst rest, s.producer = .asleep src dst rest → s.buf.count = bufferSize
  done_nobody : s.buf.done = true → .asleep ∉ s.consumers
  work_awake : 0 < s.buf.count → SomeAwake s.consumers

theorem wakeful_init (cfg : Config) : Wakeful (init cfg) where
  asleep_full src dst rest h := by cases h
  done_nobody h := by cases h
  work_awake h := by simp [init, initBuffer] at h

theorem someAwake_set {cs : List Consumer} {i : ℕ} {c d : Consumer} (hi : cs[i]? = some d)
    (hc : c = .consume ∨ c = .check) : SomeAwake (cs.set i c) := by
  obtain ⟨hlt, -⟩ := List.getElem?_eq_some_iff.mp hi
  exact ⟨c, List.mem_set hlt c, hc⟩

/-- Whether or not somebody waits, a signal leaves a consumer awake as long as
none has returned. -/
theorem signal_someAwake (cs ds : List Consumer) (wake : Option ℕ) (hne : cs ≠ [])
    (hr : .returned ∉ cs) (hw : signalNotEmpty cs wake = some ds) : SomeAwake ds := by
  cases wake with
  | some i =>
    simp only [signalNotEmpty] at hw
    split_ifs at hw with hi
    cases hw
    exact someAwake_set hi (.inl rfl)
  | none =>
    simp only [signalNotEmpty] at hw
    split_ifs at hw with ha
    cases hw
    obtain ⟨c, hc⟩ := List.exists_mem_of_ne_nil cs hne
    refine ⟨c, hc, ?_⟩
    cases c with
    | consume => exact .inl rfl
    | check => exact .inr rfl
    | asleep => exact absurd hc ha
    | returned => exact absurd hc hr

theorem broadcast_nobody (cs : List Consumer) : .asleep ∉ broadcastNotEmpty cs := by
  intro h
  obtain ⟨c, -, hc⟩ := List.mem_map.mp h
  split_ifs at hc with ha
  exact ha hc

theorem broadcast_someAwake (cs : List Consumer) (h : SomeAwake cs) :
    SomeAwake (broadcastNotEmpty cs) := by
  obtain ⟨c, hc, ha⟩ := h
  refine ⟨c, List.mem_map.mpr ⟨c, hc, ?_⟩, ha⟩
  rcases ha with rfl | rfl <;> rfl

theorem set_nobody {cs : List Consumer} {i : ℕ} {c : Consumer} (hc : c ≠ .asleep)
    (h : .asleep ∉ cs) : .asleep ∉ cs.set i c := by
  intro hm
  rcases List.mem_or_eq_of_mem_set hm with hm | he
  · exact h hm
  · exact hc he.symm

theorem afterCheck_ne_asleep (b : Buffer) : afterCheck b ≠ .asleep := by
  unfold afterCheck
  split_ifs <;> simp

theorem Wakeful.of_producer {s t : State} (hs : Wakeful s)
    (hp : ∀ src dst rest, t.producer ≠ .asleep src dst rest)
    (hb : t.buf = s.buf) (hc : t.consumers = s.consumers) : Wakeful t where
  asleep_full src dst rest h := absurd h (hp src dst rest)
  done_nobody hd := hc ▸ hs.done_nobody (hb ▸ hd)
  work_awake hw := hc ▸ hs.work_awake (hb ▸ hw)

/-- A consumer that changes place without touching the ring, and does not fall asleep. -/
theorem Wakeful.of_consumer {s t : State} (hs : Wakeful s) {i : ℕ} {c : Consumer}
    (hc : c ≠ .asleep) (hw : 0 < s.buf.count → SomeAwake (s.consumers.set i c))
    (hb : t.buf = s.buf) (hp : t.producer = s.producer)
    (ht : t.consumers = s.consumers.set i c) : Wakeful t where
  asleep_full src dst rest h := hb ▸ hs.asleep_full src dst rest (hp ▸ h)
  done_nobody hd := ht ▸ set_nobody hc (hs.done_nobody (hb ▸ hd))
  work_awake h := ht ▸ hw (hb ▸ h)

theorem afterReaddir_awake (cfg : Config) (name : CString.Bytes) (rest : List CString.Bytes)
    (src dst : CString.Bytes) (rest' : List CString.Bytes) :
    afterReaddir cfg name rest ≠ .asleep src dst rest' := by
  unfold afterReaddir
  split_ifs <;> simp

theorem wakeful_move (cfg : Config) (s : State) (a : Act) (t : State) (hne : s.consumers ≠ [])
    (he : Exit s) (hs : Wakeful s) (h : Move cfg s a t) : Wakeful t := by
  cases h with
  | opendir ok hp => exact hs.of_producer (by cases ok <;> simp) rfl rfl
  | closedir hp => exact hs.of_producer (by simp) rfl rfl
  | readdir name rest hp => exact hs.of_producer (afterReaddir_awake cfg name rest) rfl rfl
  | openFails src dst rest a b wake hp => exact hs.of_producer (by simp) rfl rfl
  | spuriousNotFull src dst rest hp => exact hs.of_producer (by simp) rfl rfl
  | sleepFull src dst rest a b wake hp hfull =>
    exact ⟨fun _ _ _ _ => hfull, hs.done_nobody, hs.work_awake⟩
  | store src dst rest a b wake cs hp hfree ha hb hw =>
    have hp' : s.producer ≠ .returned := by simp [hp]
    refine ⟨fun _ _ _ h => (by simp at h), fun hd => ?_, fun _ => ?_⟩
    · simp [he.not_done hp'] at hd
    · exact signal_someAwake _ _ wake hne (he.nobody_left hp') hw
  | finish hp =>
    refine ⟨fun _ _ _ h => (by simp at h), fun _ => broadcast_nobody _, fun hw => ?_⟩
    exact broadcast_someAwake _ (hs.work_awake hw)
  | sleepEmpty i hi h0 hd =>
    refine ⟨hs.asleep_full, fun h => ?_, fun hw => ?_⟩
    · simp [hd] at h
    · simp [h0] at hw
  | leave i hi =>
    exact hs.of_consumer (by simp) (fun _ => someAwake_set hi (.inr rfl)) rfl rfl rfl
  | spuriousNotEmpty i hi =>
    exact hs.of_consumer (by simp) (fun _ => someAwake_set hi (.inl rfl)) rfl rfl rfl
  | check i hi =>
    refine hs.of_consumer (afterCheck_ne_asleep s.buf) (fun hw => ?_) rfl rfl rfl
    exact someAwake_set hi (.inl (by simp [afterCheck, ne_of_gt hw]))
  | take i hi hpos =>
    refine ⟨fun src dst rest h => ?_, fun hd => set_nobody (by simp) (hs.done_nobody hd),
      fun _ => someAwake_set hi (.inr rfl)⟩
    -- the take has just signalled not_full
    cases hp : s.producer <;> simp [hp, signalNotFull] at h

theorem wakeful_reachable (cfg : Config) (hn : 1 ≤ cfg.consumers) (as : List Act) (s : State)
    (h : run (step cfg) as (init cfg) = some s) : Wakeful s := by
  have hinv := reachable_invariant cfg
    (fun u => u.consumers.length = cfg.consumers ∧ Exit u ∧ Wakeful u)
    ⟨by simp [init], exit_init cfg, wakeful_init cfg⟩ (fun u a v hu hv => ?_) as s h
  · exact hinv.2.2
  · obtain ⟨hlen, hexit, hwake⟩ := hu
    have hne : u.consumers ≠ [] := by
      intro h0
      simp only [h0, List.length_nil] at hlen
      omega
    exact ⟨(length_move cfg u a v hv).trans hlen, exit_move cfg u a v hexit hv,
      wakeful_move cfg u a v hne hexit hwake hv⟩

/-- When `opendir` succeeds, `producer_thread` returns only after it has
published `buf.done`. -/
theorem published_move (cfg : Config) (s : State) (a : Act) (t : State)
    (ha : a ≠ .opendir false) (hs : s.producer = .returned → s.buf.done = true)
    (h : Move cfg s a t) : t.producer = .returned → t.buf.done = true := by
  cases h with
  | opendir ok hp => cases ok <;> simp_all
  | readdir name rest hp =>
    intro hr
    simp only [afterReaddir] at hr
    split_ifs at hr
  | take i hi hpos =>
    intro hr
    apply hs
    cases hp : s.producer <;> simp_all [signalNotFull]
  | sleepEmpty => exact hs
  | leave => exact hs
  | check => exact hs
  | spuriousNotEmpty => exact hs
  | finish => exact fun _ => rfl
  | _ => simp

theorem published_reachable (cfg : Config) (as : List Act) (hopen : .opendir false ∉ as)
    (s : State) (h : run (step cfg) as (init cfg) = some s) :
    s.producer = .returned → s.buf.done = true := by
  refine guarded_invariant (step cfg) (fun a _ => a ≠ .opendir false)
    (fun u => u.producer = .returned → u.buf.done = true)
    (fun a u v hu ha hv => published_move cfg u a v ha hu (step_move cfg a u v hv))
    as (init cfg) s (by simp [init]) ?_ h
  exact meets_of_notMem (step cfg) (.opendir false) as hopen (init cfg)

/-- Some thread can take its next step without a spurious wake-up. The
producer's section must be able to run whatever its calls of `open` return. -/
inductive Enabled (cfg : Config) (s : State) : Prop
  | opendir (h : (step cfg (.opendir true) s).isSome = true)
  | readdir (h : (step cfg .readdir s).isSome = true)
  | produce (h : ∀ a b, ∃ wake, (step cfg (.produce a b wake) s).isSome = true)
  | finish (h : (step cfg .finish s).isSome = true)
  | consume (i : ℕ) (h : (step cfg (.consume i) s).isSome = true)
  | check (i : ℕ) (h : (step cfg (.check i) s).isSome = true)

theorem awake_enabled (cfg : Config) (s : State) (h : SomeAwake s.consumers) : Enabled cfg s := by
  obtain ⟨c, hc, ha⟩ := h
  obtain ⟨i, hi⟩ := List.mem_iff_getElem?.mp hc
  rcases ha with rfl | rfl
  · exact Enabled.consume i (by simp [step, hi])
  · exact Enabled.check i (by simp [step, hi])

theorem signal_enabled (cs : List Consumer) : ∃ wake, (signalNotEmpty cs wake).isSome = true := by
  by_cases ha : Consumer.asleep ∈ cs
  · obtain ⟨i, hi⟩ := List.mem_iff_getElem?.mp ha
    exact ⟨some i, by simp [signalNotEmpty, hi]⟩
  · exact ⟨none, by simp [signalNotEmpty, ha]⟩

/-- A producer that waits for nothing can run: whoever is asleep on
`not_empty`, its signal has a legal outcome. -/
theorem producer_enabled (cfg : Config) (s : State)
    (ha : ∀ src dst rest, s.producer ≠ .asleep src dst rest) (hr : s.producer ≠ .returned) :
    Enabled cfg s := by
  cases hp : s.producer with
  | start => exact Enabled.opendir (by simp [step, hp])
  | scan rest => exact Enabled.readdir (by cases rest <;> simp [step, hp])
  | produce src dst rest =>
    refine Enabled.produce (fun a b => ?_)
    obtain ⟨wake, hw⟩ := signal_enabled s.consumers
    refine ⟨wake, ?_⟩
    simp only [step, hp, produceFileDescriptorPair]
    split_ifs <;> simp [hw]
  | asleep src dst rest => exact absurd hp (ha src dst rest)
  | finish => exact Enabled.finish (by simp [step, hp])
  | returned => exact absurd hp hr

theorem someAwake_of_mem {cs : List Consumer} {c : Consumer} (hc : c ∈ cs) (hr : c ≠ .returned)
    (ha : c ≠ .asleep) : SomeAwake cs := by
  cases c with
  | consume => exact ⟨_, hc, .inl rfl⟩
  | check => exact ⟨_, hc, .inr rfl⟩
  | asleep => exact absurd rfl ha
  | returned => exact absurd rfl hr

theorem no_deadlock (cfg : Config) (s : State) (hs : Wakeful s)
    (hpub : s.producer = .returned → s.buf.done = true)
    (hsome : ¬ (s.producer = .returned ∧ ∀ c ∈ s.consumers, c = .returned)) : Enabled cfg s := by
  by_cases hr : s.producer = .returned
  · have hc : ∃ c ∈ s.consumers, c ≠ .returned := by
      by_contra hno
      push Not at hno
      exact hsome ⟨hr, hno⟩
    obtain ⟨c, hc, hcr⟩ := hc
    have hca : c ≠ .asleep := fun he => hs.done_nobody (hpub hr) (he ▸ hc)
    exact awake_enabled cfg s (someAwake_of_mem hc hcr hca)
  · by_cases ha : ∃ src dst rest, s.producer = .asleep src dst rest
    · obtain ⟨src, dst, rest, ha⟩ := ha
      have hfull := hs.asleep_full src dst rest ha
      exact awake_enabled cfg s (hs.work_awake (by rw [hfull]; decide))
    · push Not at ha
      exact producer_enabled cfg s ha hr

theorem no_lost_wakeup (cfg : Config) (hn : 1 ≤ cfg.consumers) (as : List Act)
    (hopen : .opendir false ∉ as) (s : State) (h : run (step cfg) as (init cfg) = some s) :
    (¬ (s.producer = .returned ∧ ∀ c ∈ s.consumers, c = .returned) → Enabled cfg s) ∧
      (∀ src dst rest, s.producer = .asleep src dst rest → ¬ s.buf.count < bufferSize) ∧
      (0 < s.buf.count → ¬ ∀ c ∈ s.consumers, c ≠ .returned → c = .asleep) ∧
      (s.buf.done = true → .asleep ∉ s.consumers) := by
  have hw := wakeful_reachable cfg hn as s h
  refine ⟨no_deadlock cfg s hw (published_reachable cfg as hopen s h), ?_, ?_, hw.done_nobody⟩
  · intro src dst rest ha hlt
    exact absurd (hw.asleep_full src dst rest ha) (ne_of_lt hlt)
  · intro hpos hall
    obtain ⟨c, hc, ha⟩ := hw.work_awake hpos
    have := hall c hc (by rcases ha with rfl | rfl <;> simp)
    rcases ha with rfl | rfl <;> cases this

def earlyConsumerRun : List Act :=
  [.consume 0, .opendir true, .readdir, .produce 3 4 (some 0)]

theorem no_lost_wakeup_early_consumer :
    ∃ s, run (step oneEntry) earlyConsumerRun (init oneEntry) = some s ∧ Enabled oneEntry s :=
  ⟨_, rfl, (no_lost_wakeup oneEntry (by decide) earlyConsumerRun (by decide) _ rfl).1
    (by decide)⟩

end CSE344.PcpWakeup
