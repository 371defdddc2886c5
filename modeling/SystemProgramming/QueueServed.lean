import SystemProgramming.Admission
import SystemProgramming.QueueSignals

/-!
# Whom the midterm server serves

The handler may come between any two accesses of the main loop, and the queue
may run over without anybody noticing. Still nobody is served who was not
accepted, and the PIDs that are accepted are never those of the clients.
-/

set_option autoImplicit false

namespace CSE344.QueueServed
open RingQueue TransitionRun ClientQueue QueueSignals

/-- How many signals were taken in the window. -/
def lapses (as : List Act) (s : State) : ℕ :=
  (outputs step (fun a s => if Clear a s then [] else [a]) as s).length

theorem lost_lapse (a : Act) (s t : State) (hc : ¬ Clear a s) (h : step a s = some t) :
    lost t = lost s+1 := by
  cases a with
  | main => exact absurd trivial hc
  | sigusr1 pid =>
    cases h
    obtain ⟨hw, hfull⟩ := Classical.not_imp.mp hc
    rw [lost_push pid s (by simpa using hfull), if_pos hw]

theorem lost_run (as : List Act) (s t : State) (h : run step as s = some t) :
    lost t = lost s+lapses as s := by
  induction as generalizing s with
  | nil =>
    obtain rfl : s = t := by simpa using h
    simp [lapses, outputs]
  | cons a as ih =>
    obtain ⟨u, hu, ht⟩ := (run_cons_iff step a as s t).mp h
    have hrest := ih u ht
    have hsplit : lapses (a::as) s = (if Clear a s then 0 else 1)+lapses as u := by
      rw [lapses, outputs, List.length_append, hu]
      split_ifs <;> rfl
    rw [hrest, hsplit]
    split_ifs with hc
    · rw [lost_keeps a s u hc hu]
      omega
    · rw [lost_lapse a s u hc hu]
      omega

/-- The PID is one that was accepted for this turn, or for one that many whole
rounds later. -/
def Due (s : State) (k : ℕ) (pid : ℤ) : Prop :=
  ∃ d : ℕ, s.accepted[k+10*d]? = some pid ∧ (10*d:ℤ) < 10+lost s

/-- What the main loop knows, though the queue may grow under it. -/
def Knows (s : State) : Prop :=
  match s.pc with
  | .testAgain => 0 < s.shm.count
  | .loadFront => 0 < s.shm.count
  | .loadCell front => 0 < s.shm.count ∧ front = s.shm.front
  | .loadIndex pid => 0 < s.shm.count ∧ Due s s.served.length pid
  | .storeFront pid front => 0 < s.shm.count ∧ Due s s.served.length pid ∧ front = s.shm.front
  | .loadCount _ => 0 < s.shm.count
  | .storeCount _ count => 0 < count ∧ count ≤ s.shm.count
  | _ => True

/-- The indices follow the histories, and the cells hold what was put there. -/
structure Sane (s : State) : Prop where
  lost_nonneg : 0 ≤ lost s
  count_nonneg : 0 ≤ s.shm.count
  count_le : s.shm.count ≤ maxClients
  front : s.shm.front = ((s.served ++ hand s).length:ℤ)%10
  rear : s.shm.rear = (s.accepted.length:ℤ)%10
  written : Written 10 s.shm.queue s.accepted
  knows : Knows s
  due : ∀ (k : ℕ) (pid : ℤ), (s.served ++ hand s)[k]? = some pid → Due s k pid

theorem sane_init (cells : ℤ → ℤ) : Sane (init cells) where
  lost_nonneg := le_refl _
  count_nonneg := le_refl _
  count_le := by simp [init, maxClients]
  front := rfl
  rear := rfl
  written := written_nil 10 _
  knows := trivial
  due k pid h := by simp [init, hand] at h

theorem Due.later {s t : State} {k : ℕ} {pid : ℤ} (h : Due s k pid)
    (haccepted : s.accepted <+: t.accepted) (hlost : lost s ≤ lost t) : Due t k pid := by
  obtain ⟨d, hd, hle⟩ := h
  obtain ⟨rest, hrest⟩ := haccepted
  refine ⟨d, ?_, by omega⟩
  rw [← hrest, List.getElem?_append_left (List.getElem?_eq_some_iff.mp hd).1]
  exact hd

theorem Sane.moved {s t : State} (h : Sane s) (hshm : t.shm = s.shm)
    (haccepted : t.accepted = s.accepted) (htaken : t.served ++ hand t = s.served ++ hand s)
    (hlost : lost t = lost s) (hknows : Knows t) : Sane t where
  lost_nonneg := hlost ▸ h.lost_nonneg
  count_nonneg := hshm ▸ h.count_nonneg
  count_le := hshm ▸ h.count_le
  front := by rw [hshm, htaken]; exact h.front
  rear := by rw [hshm, haccepted]; exact h.rear
  written := by rw [hshm, haccepted]; exact h.written
  knows := hknows
  due k pid hk := (h.due k pid (htaken ▸ hk)).later (haccepted ▸ List.prefix_refl _) hlost.ge

theorem sane_storeFront {s : State} (h : Sane s) {pid : ℤ}
    (hpc : s.pc = .storeFront pid s.shm.front) (hpos : 0 < s.shm.count)
    (hdue : Due s s.served.length pid) : Sane (mainStep s) := by
  have hlost := lost_main s
  have hfront := h.front
  simp only [hand, hpc, List.append_nil] at hfront
  simp only [mainStep, hpc] at hlost ⊢
  refine ⟨hlost ▸ h.lost_nonneg, h.count_nonneg, h.count_le, ?_, h.rear, h.written, hpos,
    fun k q hk => ?_⟩
  · show advance maxClients s.shm.front = ((s.served ++ [pid]).length:ℤ)%10
    rw [advance_eq maxClients _ (by omega), hfront, List.length_append, List.length_singleton]
    dsimp only [maxClients]
    omega
  · have hk : (s.served ++ [pid])[k]? = some q := hk
    refine Due.later (s := s) ?_ (List.prefix_refl _) hlost.ge
    by_cases hlt : k < s.served.length
    · rw [List.getElem?_append_left hlt] at hk
      exact h.due k q (by simpa [hand, hpc] using hk)
    · rw [List.getElem?_append_right (Nat.le_of_not_lt hlt), List.getElem?_singleton] at hk
      split_ifs at hk with hlast
      obtain rfl := Option.some.inj hk
      obtain rfl : k = s.served.length := by omega
      exact hdue

theorem sane_storeCount {s : State} (h : Sane s) {pid count : ℤ}
    (hpc : s.pc = .storeCount pid count) (hpos : 0 < count) (hle : count ≤ s.shm.count) :
    Sane (mainStep s) := by
  have hlost := lost_main s
  have hfull := h.count_le
  have htaken : s.served ++ hand s = s.served ++ [pid] ++ [] := by simp [hand, hpc]
  simp only [mainStep, hpc] at hlost ⊢
  refine ⟨hlost ▸ h.lost_nonneg, ?_, ?_, ?_, h.rear, h.written, trivial, fun k q hk => ?_⟩
  · show 0 ≤ count-1
    omega
  · show count-1 ≤ maxClients
    omega
  · show s.shm.front = ((s.served ++ [pid] ++ []).length:ℤ)%10
    rw [← htaken]
    exact h.front
  · have hk : (s.served ++ [pid] ++ [])[k]? = some q := hk
    rw [← htaken] at hk
    exact (h.due k q hk).later (List.prefix_refl _) hlost.ge

theorem sane_main {s : State} (h : Sane s) : Sane (mainStep s) := by
  have hlost := lost_main s
  have hknows := h.knows
  have hnonneg := h.lost_nonneg
  unfold Knows at hknows
  cases hpc : s.pc <;> rw [hpc] at hknows <;> simp only [mainStep, hpc] at hlost ⊢
  case test =>
    refine h.moved rfl rfl ?_ hlost ?_
    · cases isEmpty s.shm <;> simp [hand, hpc]
    · cases hempty : isEmpty s.shm with
      | true => trivial
      | false =>
        have := h.count_nonneg
        have hne : s.shm.count ≠ 0 := by simpa [isEmpty] using hempty
        show 0 < s.shm.count
        omega
  case testAgain =>
    have hempty : isEmpty s.shm = false := by simp [isEmpty, hknows.ne']
    rw [hempty] at hlost ⊢
    exact h.moved rfl rfl (by simp [hand, hpc]) hlost hknows
  case loadFront => exact h.moved rfl rfl (by simp [hand, hpc]) hlost ⟨hknows, rfl⟩
  case loadCell front =>
    obtain ⟨hpos, rfl⟩ := hknows
    refine h.moved rfl rfl (by simp [hand, hpc]) hlost ⟨hpos, ?_⟩
    have hfront := h.front
    have hle := h.count_le
    simp only [hand, hpc, List.append_nil] at hfront
    simp only [lost, seen, hpc] at hnonneg
    obtain ⟨d, hd⟩ := h.written s.served.length (by omega)
    refine ⟨d, by rw [hfront]; exact hd, ?_⟩
    have hlt := (List.getElem?_eq_some_iff.mp hd).1
    rw [hlost, lost, seen, hpc]
    dsimp only [maxClients] at hle ⊢
    omega
  case loadIndex pid =>
    exact h.moved rfl rfl (by simp [hand, hpc]) hlost
      ⟨hknows.1, hknows.2.later (List.prefix_refl _) hlost.ge, rfl⟩
  case storeFront pid front =>
    obtain ⟨hpos, hdue, rfl⟩ := hknows
    simpa only [mainStep, hpc] using sane_storeFront h hpc hpos hdue
  case loadCount pid =>
    exact h.moved rfl rfl (by simp [hand, hpc]) hlost ⟨hknows, le_refl _⟩
  case storeCount pid count =>
    obtain ⟨hpos, hle⟩ := hknows
    simpa only [mainStep, hpc] using sane_storeCount h hpc hpos hle
  case fork pid => exact h.moved rfl rfl (by simp [hand, hpc]) hlost trivial

theorem knows_push {s : State} (h : Sane s) (pid : ℤ) (hfull : isFull s.shm = false)
    (hlater : ∀ k q, Due s k q → Due (enqueue pid s) k q) : Knows (enqueue pid s) := by
  have hknows := h.knows
  rw [enqueue_room pid hfull] at hlater ⊢
  unfold Knows at hknows ⊢
  cases hpc : s.pc <;> rw [hpc] at hknows hlater <;> simp only [push]
  case testAgain => omega
  case loadFront => omega
  case loadCell front => exact ⟨by omega, hknows.2⟩
  case loadIndex q => exact ⟨by omega, hlater _ q hknows.2⟩
  case storeFront q front => exact ⟨by omega, hlater _ q hknows.2.1, hknows.2.2⟩
  case loadCount q => omega
  case storeCount q count => exact ⟨hknows.1, by omega⟩

theorem sane_push {s : State} (h : Sane s) (pid : ℤ) (hfull : isFull s.shm = false) :
    Sane (enqueue pid s) := by
  have hlost : lost s ≤ lost (enqueue pid s) := by
    rw [lost_push pid s hfull]
    split_ifs <;> omega
  have hlater (k : ℕ) (q : ℤ) (hq : Due s k q) : Due (enqueue pid s) k q :=
    hq.later (by rw [enqueue_room pid hfull]; exact List.prefix_append _ _) hlost
  have hknows := knows_push h pid hfull hlater
  have hnonneg := h.lost_nonneg.trans hlost
  have hne : s.shm.count ≠ maxClients := by simpa [isFull] using hfull
  have hcount := h.count_nonneg
  have hle := h.count_le
  rw [enqueue_room pid hfull] at hlater hknows hnonneg ⊢
  refine ⟨hnonneg, ?_, ?_, h.front, ?_, ?_, hknows, fun k q hk => hlater k q (h.due k q hk)⟩
  · show 0 ≤ s.shm.count+1
    omega
  · show s.shm.count+1 ≤ maxClients
    omega
  · have hrear := h.rear
    show advance maxClients s.shm.rear = ((s.accepted ++ [pid]).length:ℤ)%10
    rw [advance_eq maxClients _ (by omega), hrear, List.length_append, List.length_singleton]
    dsimp only [maxClients]
    omega
  · show Written 10 (Function.update s.shm.queue s.shm.rear pid) (s.accepted ++ [pid])
    rw [h.rear]
    exact written_push h.written pid

theorem sane_step (a : Act) (s t : State) (h : Sane s) (hs : step a s = some t) : Sane t := by
  cases a with
  | main =>
    cases hs
    exact sane_main h
  | sigusr1 pid =>
    cases hs
    cases hfull : isFull s.shm with
    | true => rwa [enqueue, if_pos hfull]
    | false => exact sane_push h pid hfull

/-- Whenever the signals come, what is served is what was accepted for that turn,
or whole rounds of the array later if more was accepted than the count knows of;
each signal in the window takes one from the count; and `dequeue` never finds the
queue empty. -/
theorem served_accepted (cells : ℤ → ℤ) (as : List Act) (t : State)
    (h : run step as (init cells) = some t) :
    (∀ (k : ℕ) (pid : ℤ), t.served[k]? = some pid →
      ∃ d : ℕ, t.accepted[k+10*d]? = some pid ∧ 10*d < 10+lapses as (init cells)) ∧
    (t.accepted.length:ℤ) = t.served.length+seen t+lapses as (init cells) ∧
    (t.pc = .testAgain → isEmpty t.shm = false) := by
  have hs := run_invariant step Sane sane_step as (init cells) t (sane_init cells) h
  have hlost := lost_run as (init cells) t h
  rw [show lost (init cells) = 0 from rfl, zero_add] at hlost
  refine ⟨fun k pid hk => ?_, ?_, fun hpc => ?_⟩
  · have hlt := (List.getElem?_eq_some_iff.mp hk).1
    obtain ⟨d, hd, hle⟩ := hs.due k pid (by rw [List.getElem?_append_left hlt]; exact hk)
    exact ⟨d, hd, by omega⟩
  · unfold lost at hlost
    omega
  · have hknows := hs.knows
    rw [Knows, hpc] at hknows
    simp [isEmpty, hknows.ne']

theorem served_accepted_interrupted : ∃ t, run step interrupted (init fun _ => 0) = some t ∧
    (t.accepted.length:ℤ) =
      t.served.length+seen t+lapses interrupted (init fun _ => 0) ∧
    lapses interrupted (init fun _ => 0) = 1 :=
  ⟨_, rfl, (served_accepted _ interrupted _ rfl).2.1, by decide⟩

section Children

/-- What the steps of the server and its children do to the queue. -/
def queueStep : Admission.Act → Option Act
  | .main _ => some .main
  | .exit _ => none
  | .sigchld _ => none
  | .sigusr1 _ r => some (.sigusr1 r)

theorem waitpid_core {r : ℤ} {s t : Admission.State} (h : Admission.waitpid r s = some t) :
    t.core = s.core := by
  obtain ⟨-, rfl⟩ | ⟨-, rfl⟩ := Admission.waitpid_cases h <;> rfl

theorem queueStep_some {a : Admission.Act} {b : Act} {s t : Admission.State}
    (hb : queueStep a = some b) (h : Admission.step a s = some t) :
    step b s.core = some t.core := by
  cases a <;> cases hb
  case main child =>
    simp only [Admission.step] at h
    split at h
    · obtain ⟨u, hu, rfl⟩ := Option.map_eq_some_iff.mp h
      have hcore : u.core = s.core := by
        unfold Admission.fork at hu
        split_ifs at hu <;> cases hu <;> rfl
      simp only [step, hcore]
    · cases h
      rfl
  case sigusr1 client r =>
    simp only [Admission.step, Option.ite_none_right_eq_some, Option.map_eq_some_iff] at h
    obtain ⟨-, u, hu, rfl⟩ := h
    simp only [step, Admission.handleUsr1, waitpid_core hu]

theorem queueStep_none {a : Admission.Act} {s t : Admission.State} (ha : queueStep a = none)
    (h : Admission.step a s = some t) : t.core = s.core := by
  cases a <;> cases ha
  case exit child =>
    obtain ⟨-, rfl⟩ := guarded_iff.mp h
    rfl
  case sigchld r =>
    simp only [Admission.step, Option.ite_none_right_eq_some] at h
    exact waitpid_core h.2

/-- Whoever asks, and in whatever order: a child that the server forks is given
-1, 0 or the PID of a child that has terminated before. -/
theorem strangers_served (cells : ℤ → ℤ) (as : List Admission.Act) (t : Admission.State)
    (h : run Admission.step as (Admission.init cells) = some t) :
    ∀ pid ∈ t.core.served, pid = -1 ∨ pid = 0 ∨ pid ∈ t.terminated := by
  obtain ⟨u, hu, rfl⟩ := run_project Admission.step step queueStep (fun s u => s.core = u)
    (fun a b s s' u hr hb hs => ⟨s'.core, hr ▸ queueStep_some hb hs, rfl⟩)
    (fun a s s' u hr ha hs => (queueStep_none ha hs).trans hr) as (Admission.init cells) t
    (init cells) rfl h
  have hrecorded := Admission.recorded_run cells as t h
  intro pid hpid
  obtain ⟨k, hk⟩ := List.mem_iff_getElem?.mp hpid
  obtain ⟨d, hd, -⟩ := (served_accepted cells _ t.core hu).1 k pid hk
  have haccepted := List.mem_of_getElem? hd
  rw [hrecorded.queued] at haccepted
  obtain ⟨e, he, rfl⟩ := List.mem_map.mp haccepted
  exact hrecorded.origin e (List.mem_of_mem_filter he)

/-- Two clients, the second after the child that served for the first has
terminated; then another child is forked. -/
def twoServed : List Admission.Act := Admission.twoClients ++ List.replicate 9 (.main (-1))

theorem strangers_served_two : ∃ t,
    run Admission.step twoServed (Admission.init fun _ => 0) = some t ∧
      t.core.served = [-1, 60] ∧
      ∀ pid ∈ t.core.served, pid = -1 ∨ pid = 0 ∨ pid ∈ t.terminated :=
  ⟨_, rfl, rfl, strangers_served _ twoServed _ rfl⟩

end Children

end CSE344.QueueServed
