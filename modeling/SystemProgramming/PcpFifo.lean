import SystemProgramming.PcpMachine

/-!
# The pCp ring is a FIFO and no consumer leaves early

What a step can do is said once, by `Move`. The ring invariant ties the ten
slots to the list of pairs that were opened and not yet copied; the exit
invariant says that a consumer that has returned saw an empty ring after the
producer had published `buf.done`, and that nothing is stored after that.
-/

set_option autoImplicit false

namespace CSE344.PcpFifo
open CString RingQueue TransitionRun PcpMachine

def live (b : Buffer) : List Slot := contents bufferSize b.buffer b.out b.count.toNat

inductive Move (cfg : Config) (s : State) : Act → State → Prop
  | opendir (ok : Bool) (h : s.producer = .start) : Move cfg s (.opendir ok)
      { s with producer := if ok then .scan cfg.entries else .returned }
  | closedir (h : s.producer = .scan []) : Move cfg s .readdir { s with producer := .finish }
  | readdir (name : Bytes) (rest : List Bytes) (h : s.producer = .scan (name::rest)) :
      Move cfg s .readdir { s with producer := afterReaddir cfg name rest }
  | sleepFull (src dst : Bytes) (rest : List Bytes) (a b : ℤ) (wake : Option ℕ)
      (h : s.producer = .produce src dst rest) (hfull : s.buf.count = bufferSize) :
      Move cfg s (.produce a b wake) { s with producer := .asleep src dst rest }
  | openFails (src dst : Bytes) (rest : List Bytes) (a b : ℤ) (wake : Option ℕ)
      (h : s.producer = .produce src dst rest) (hfail : a = -1 ∨ b = -1) :
      Move cfg s (.produce a b wake) { s with producer := .scan rest }
  | store (src dst : Bytes) (rest : List Bytes) (a b : ℤ) (wake : Option ℕ)
      (cs : List Consumer) (h : s.producer = .produce src dst rest)
      (hfree : s.buf.count ≠ bufferSize) (ha : a ≠ -1) (hb : b ≠ -1)
      (hw : signalNotEmpty s.consumers wake = some cs) :
      Move cfg s (.produce a b wake) { s with
        buf := { s.buf with
          buffer := Function.update s.buf.buffer s.buf.in_ ⟨a, b, src, dst⟩
          in_ := advance bufferSize s.buf.in_
          count := s.buf.count+1 }
        consumers := cs
        producer := .scan rest
        fds := s.fds ++ [a, b]
        opened := s.opened ++ [⟨a, b, src, dst⟩] }
  | finish (h : s.producer = .finish) : Move cfg s .finish { s with
      buf := { s.buf with done := true }
      consumers := broadcastNotEmpty s.consumers
      producer := .returned }
  | sleepEmpty (i : ℕ) (h : s.consumers[i]? = some .consume) (h0 : s.buf.count = 0)
      (hd : s.buf.done = false) :
      Move cfg s (.consume i) { s with consumers := s.consumers.set i .asleep }
  | leave (i : ℕ) (h : s.consumers[i]? = some .consume) (h0 : s.buf.count = 0)
      (hd : s.buf.done = true) :
      Move cfg s (.consume i) { s with consumers := s.consumers.set i .check }
  | take (i : ℕ) (h : s.consumers[i]? = some .consume) (hpos : s.buf.count ≠ 0) :
      Move cfg s (.consume i) { s with
        buf := { s.buf with
          out := advance bufferSize s.buf.out
          count := s.buf.count-1 }
        consumers := s.consumers.set i .check
        producer := signalNotFull s.producer
        fds := (s.fds.erase (s.buf.buffer s.buf.out).sourceFd).erase
          (s.buf.buffer s.buf.out).destinationFd
        consumed := s.consumed ++ [s.buf.buffer s.buf.out] }
  | check (i : ℕ) (h : s.consumers[i]? = some .check) :
      Move cfg s (.check i) { s with consumers := s.consumers.set i (afterCheck s.buf) }
  | spuriousNotFull (src dst : Bytes) (rest : List Bytes) (h : s.producer = .asleep src dst rest) :
      Move cfg s .spuriousNotFull { s with producer := .produce src dst rest }
  | spuriousNotEmpty (i : ℕ) (h : s.consumers[i]? = some .asleep) :
      Move cfg s (.spuriousNotEmpty i) { s with consumers := s.consumers.set i .consume }

theorem produce_move (cfg : Config) (src dst : Bytes) (rest : List Bytes) (a b : ℤ)
    (wake : Option ℕ) (s t : State) (hp : s.producer = .produce src dst rest)
    (h : produceFileDescriptorPair src dst rest a b wake s = some t) :
    Move cfg s (.produce a b wake) t := by
  unfold produceFileDescriptorPair at h
  split_ifs at h with hfull ha hb
  · cases h
    exact Move.sleepFull src dst rest a b wake hp hfull
  · cases h
    exact Move.openFails src dst rest a b wake hp (.inl ha)
  · simp only [List.erase_cons_head, Option.some.injEq] at h
    subst h
    exact Move.openFails src dst rest a b wake hp (.inr hb)
  · obtain ⟨cs, hcs, rfl⟩ := Option.map_eq_some_iff.mp h
    exact Move.store src dst rest a b wake cs hp hfull ha hb hcs

theorem consume_move (cfg : Config) (i : ℕ) (s : State) (hi : s.consumers[i]? = some .consume) :
    Move cfg s (.consume i) (consumeFileDescriptorPair i s) := by
  unfold consumeFileDescriptorPair
  split_ifs with hsleep hleave
  · exact Move.sleepEmpty i hi hsleep.1 hsleep.2
  · exact Move.leave i hi hleave.1 hleave.2
  · apply Move.take i hi
    intro h0
    cases hd : s.buf.done <;> simp_all

theorem step_move (cfg : Config) (a : Act) (s t : State) (h : step cfg a s = some t) :
    Move cfg s a t := by
  cases a with
  | produce a b wake =>
    simp only [step] at h
    split at h
    · exact produce_move cfg _ _ _ a b wake s t ‹_› h
    · cases h
  | consume i =>
    simp only [step] at h
    split at h
    · cases h
      exact consume_move cfg i s ‹_›
    · cases h
  | _ =>
    simp only [step] at h
    split at h <;> cases h
    all_goals (constructor; assumption)

theorem reachable_invariant (cfg : Config) (P : State → Prop) (hinit : P (init cfg))
    (hmove : ∀ s a t, P s → Move cfg s a t → P t) (as : List Act) (s : State)
    (h : run (step cfg) as (init cfg) = some s) : P s :=
  run_invariant (step cfg) P (fun a u v hu hv => hmove u a v hu (step_move cfg a u v hv))
    as (init cfg) s hinit h

structure Fifo (s : State) : Prop where
  ring : Valid bufferSize s.buf.out s.buf.in_ s.buf.count
  queue : s.consumed ++ live s.buf = s.opened

theorem fifo_init (cfg : Config) : Fifo (init cfg) :=
  ⟨valid_empty bufferSize (by decide), rfl⟩

theorem fifo_move (cfg : Config) (s : State) (a : Act) (t : State) (hs : Fifo s)
    (h : Move cfg s a t) : Fifo t := by
  cases h with
  | store src dst rest a b wake cs hp hfree ha hb hw =>
    have hlt : s.buf.count < bufferSize := lt_of_le_of_ne hs.ring.count_le hfree
    refine ⟨valid_push hs.ring hlt, ?_⟩
    have hq := contents_push hs.ring hlt s.buf.buffer ⟨a, b, src, dst⟩
    simp only [live] at *
    rw [hq, ← List.append_assoc]
    exact congrArg (· ++ _) hs.queue
  | take i hi hpos =>
    have hlt : 0 < s.buf.count := lt_of_le_of_ne hs.ring.count_nonneg (Ne.symm hpos)
    refine ⟨valid_pop hs.ring hlt, ?_⟩
    have hq := contents_pop hs.ring hlt s.buf.buffer
    have := hs.queue
    simp only [live] at *
    rw [hq] at this
    simpa using this
  | _ => exact ⟨hs.ring, hs.queue⟩

theorem fifo_reachable (cfg : Config) (as : List Act) (s : State)
    (h : run (step cfg) as (init cfg) = some s) : Fifo s :=
  reachable_invariant cfg Fifo (fifo_init cfg) (fifo_move cfg) as s h

structure Exit (s : State) : Prop where
  done_returned : s.buf.done = true → s.producer = .returned
  left : .returned ∈ s.consumers → s.buf.count = 0 ∧ s.buf.done = true

theorem Exit.not_done {s : State} (hs : Exit s) (hp : s.producer ≠ .returned) :
    s.buf.done = false := by
  cases hd : s.buf.done with
  | false => rfl
  | true => exact absurd (hs.done_returned hd) hp

theorem Exit.nobody_left {s : State} (hs : Exit s) (hp : s.producer ≠ .returned) :
    .returned ∉ s.consumers := by
  intro hm
  have := (hs.left hm).2
  simp [hs.not_done hp] at this

theorem exit_init (cfg : Config) : Exit (init cfg) where
  done_returned h := by simp [init, initBuffer] at h
  left h := by simp [init, List.mem_replicate] at h

theorem signal_returned (cs ds : List Consumer) (wake : Option ℕ)
    (hw : signalNotEmpty cs wake = some ds) (h : .returned ∈ ds) : .returned ∈ cs := by
  cases wake with
  | none =>
    simp only [signalNotEmpty] at hw
    split_ifs at hw
    cases hw
    exact h
  | some i =>
    simp only [signalNotEmpty] at hw
    split_ifs at hw
    cases hw
    rcases List.mem_or_eq_of_mem_set h with hm | he
    · exact hm
    · cases he

theorem broadcast_returned (cs : List Consumer) (h : .returned ∈ broadcastNotEmpty cs) :
    .returned ∈ cs := by
  obtain ⟨c, hc, he⟩ := List.mem_map.mp h
  split_ifs at he
  exact he ▸ hc

theorem set_returned {cs : List Consumer} {i : ℕ} {c : Consumer} (hc : c ≠ .returned)
    (h : .returned ∈ cs.set i c) : .returned ∈ cs := by
  rcases List.mem_or_eq_of_mem_set h with hm | he
  · exact hm
  · exact absurd he.symm hc

theorem Exit.of_producer {s t : State} (hs : Exit s) (hp : s.producer ≠ .returned)
    (hb : t.buf = s.buf) (hc : t.consumers = s.consumers) : Exit t where
  done_returned hd := by simp [hb, hs.not_done hp] at hd
  left hm := absurd (hc ▸ hm) (hs.nobody_left hp)

theorem Exit.of_consumer {s t : State} (hs : Exit s) {i : ℕ} {c : Consumer} (hc : c ≠ .returned)
    (hb : t.buf = s.buf) (hp : t.producer = s.producer)
    (ht : t.consumers = s.consumers.set i c) : Exit t where
  done_returned hd := hp ▸ hs.done_returned (hb ▸ hd)
  left hm := hb ▸ hs.left (set_returned hc (ht ▸ hm))

theorem exit_move (cfg : Config) (s : State) (a : Act) (t : State) (hs : Exit s)
    (h : Move cfg s a t) : Exit t := by
  cases h with
  | opendir ok hp => exact hs.of_producer (by simp [hp]) rfl rfl
  | closedir hp => exact hs.of_producer (by simp [hp]) rfl rfl
  | readdir name rest hp => exact hs.of_producer (by simp [hp]) rfl rfl
  | sleepFull src dst rest a b wake hp => exact hs.of_producer (by simp [hp]) rfl rfl
  | openFails src dst rest a b wake hp => exact hs.of_producer (by simp [hp]) rfl rfl
  | spuriousNotFull src dst rest hp => exact hs.of_producer (by simp [hp]) rfl rfl
  | sleepEmpty i hi => exact hs.of_consumer (by simp) rfl rfl rfl
  | leave i hi => exact hs.of_consumer (by simp) rfl rfl rfl
  | spuriousNotEmpty i hi => exact hs.of_consumer (by simp) rfl rfl rfl
  | store src dst rest a b wake cs hp hfree ha hb hw =>
    have hp' : s.producer ≠ .returned := by simp [hp]
    refine ⟨fun hd => by simp [hs.not_done hp'] at hd, fun hm => ?_⟩
    exact absurd (signal_returned _ _ _ hw hm) (hs.nobody_left hp')
  | finish hp =>
    have hp' : s.producer ≠ .returned := by simp [hp]
    exact ⟨fun _ => rfl, fun hm => absurd (broadcast_returned _ hm) (hs.nobody_left hp')⟩
  | take i hi hpos =>
    refine ⟨fun hd => by rw [hs.done_returned hd]; rfl, fun hm => ?_⟩
    exact absurd (hs.left (set_returned (by simp) hm)).1 hpos
  | check i hi =>
    refine ⟨hs.done_returned, fun hm => ?_⟩
    rcases List.mem_or_eq_of_mem_set hm with hm | he
    · exact hs.left hm
    · simp only [afterCheck] at he
      split_ifs at he with hb
      exact hb

theorem exit_reachable (cfg : Config) (as : List Act) (s : State)
    (h : run (step cfg) as (init cfg) = some s) : Exit s :=
  reachable_invariant cfg Exit (exit_init cfg) (exit_move cfg) as s h

theorem signal_length (cs ds : List Consumer) (wake : Option ℕ)
    (hw : signalNotEmpty cs wake = some ds) : ds.length = cs.length := by
  cases wake <;> simp only [signalNotEmpty] at hw <;> split_ifs at hw <;> cases hw <;> simp

theorem length_move (cfg : Config) (s : State) (a : Act) (t : State) (h : Move cfg s a t) :
    t.consumers.length = s.consumers.length := by
  cases h with
  | store src dst rest a b wake cs hp hfree ha hb hw => exact signal_length _ _ _ hw
  | _ => simp [broadcastNotEmpty]

theorem consumers_length (cfg : Config) (as : List Act) (s : State)
    (h : run (step cfg) as (init cfg) = some s) : s.consumers.length = cfg.consumers :=
  reachable_invariant cfg (fun u => u.consumers.length = cfg.consumers) (by simp [init])
    (fun u a v hu hv => (length_move cfg u a v hv).trans hu) as s h

/-- Copied pairs and live slots are always the opened pairs in order, and when
everybody has returned the ring is empty and each opened pair was copied once. -/
theorem pairs_copied_in_order (cfg : Config) (hn : 1 ≤ cfg.consumers) (as : List Act)
    (s : State) (h : run (step cfg) as (init cfg) = some s) :
    s.consumed ++ live s.buf = s.opened ∧
      (s.producer = .returned → (∀ c ∈ s.consumers, c = .returned) →
        s.buf.count = 0 ∧ s.consumed = s.opened) := by
  have hf := fifo_reachable cfg as s h
  refine ⟨hf.queue, fun _ hall => ?_⟩
  have hlen := consumers_length cfg as s h
  obtain ⟨c, hc⟩ := List.exists_mem_of_length_pos (show 0 < s.consumers.length by omega)
  have h0 := ((exit_reachable cfg as s h).left (hall c hc ▸ hc)).1
  refine ⟨h0, ?_⟩
  simpa [live, h0] using hf.queue

def oneEntry : Config := ⟨ascii "src", ascii "dst", [ascii "a"], 1⟩

def oneEntryRun : List Act :=
  [.opendir true, .readdir, .produce 3 4 none, .readdir, .finish, .consume 0, .check 0]

theorem pairs_copied_in_order_one_entry :
    ∃ s, run (step oneEntry) oneEntryRun (init oneEntry) = some s ∧
      s.consumed = s.opened ∧ s.opened.length = 1 :=
  ⟨_, rfl, ((pairs_copied_in_order oneEntry (by decide) oneEntryRun _ rfl).2 rfl
    (by decide)).2, rfl⟩

end CSE344.PcpFifo
