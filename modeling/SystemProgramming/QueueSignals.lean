import SystemProgramming.ClientQueue

/-!
# A signal while a client is dequeued

The handler may run between any two accesses of the main loop. Only one gap is
harmful: after `count` was loaded for the decrement and before it is stored, an
accepted client is counted and then forgotten. Everywhere else the handler
meets a queue whose front, rear and count fit, up to the element in hand.
-/

set_option autoImplicit false

namespace CSE344.QueueSignals
open RingQueue TransitionRun ClientQueue

/-- `count` is loaded for the decrement and not yet stored. -/
def inWindow (s : State) : Bool :=
  match s.pc with
  | .storeCount _ _ => true
  | _ => false

/-- In the window only a full queue takes a signal without harm. -/
def Clear : Act → State → Prop
  | .sigusr1 _, s => inWindow s = true → isFull s.shm = true
  | .main, _ => True

instance Clear.decidable : ∀ a s, Decidable (Clear a s)
  | .sigusr1 _, s => inferInstanceAs (Decidable (inWindow s = true → isFull s.shm = true))
  | .main, _ => isTrue trivial

/-- The count as the main loop goes on with it. -/
def seen (s : State) : ℤ :=
  match s.pc with
  | .storeCount _ count => count
  | _ => s.shm.count

/-- The clients that were accepted and that no counter knows of. -/
def lost (s : State) : ℤ := s.accepted.length-s.served.length-seen s

theorem lost_main (s : State) : lost (mainStep s) = lost s := by
  unfold lost seen mainStep
  cases s.pc with
  | test => cases isEmpty s.shm <;> rfl
  | testAgain => cases isEmpty s.shm <;> rfl
  | storeCount pid count =>
    simp only [List.length_append, List.length_singleton]
    omega
  | _ => rfl

theorem lost_push (pid : ℤ) (s : State) (h : isFull s.shm = false) :
    lost (enqueue pid s) = lost s + if inWindow s then 1 else 0 := by
  rw [enqueue, if_neg (by simp [h])]
  unfold lost seen inWindow
  cases s.pc <;> simp only [List.length_append, List.length_singleton, push, if_true,
    Bool.false_eq_true, if_false] <;> omega

theorem lost_keeps (a : Act) (s t : State) (hc : Clear a s) (hs : step a s = some t) :
    lost t = lost s := by
  cases a with
  | main =>
    cases hs
    exact lost_main s
  | sigusr1 pid =>
    cases hs
    cases hfull : isFull s.shm with
    | true => rw [enqueue, if_pos hfull]
    | false =>
      have hw : inWindow s = false := by
        by_contra hw
        simp [hc (by simpa using hw)] at hfull
      rw [lost_push pid s hfull, hw]
      exact Int.add_zero _

theorem lost_rises (a : Act) (s t : State) (hc : ¬ Clear a s) (hs : step a s = some t) :
    lost s < lost t := by
  cases a with
  | main => exact absurd trivial hc
  | sigusr1 pid =>
    cases hs
    obtain ⟨hw, hfull⟩ := Classical.not_imp.mp hc
    rw [lost_push pid s (by simpa using hfull), hw]
    exact Int.lt_succ _

/-- The client taken out of the queue and not yet uncounted. -/
def hand (s : State) : List ℤ :=
  match s.pc with
  | .loadCount pid => [pid]
  | .storeCount pid _ => [pid]
  | _ => []

/-- What the main loop has loaded is what the segment holds. -/
def Loaded (s : State) : Prop :=
  match s.pc with
  | .loadFront => 0 < s.shm.count
  | .loadCell front => 0 < s.shm.count ∧ front = s.shm.front
  | .loadIndex pid => 0 < s.shm.count ∧ pid = s.shm.queue s.shm.front
  | .storeFront pid front =>
      0 < s.shm.count ∧ pid = s.shm.queue s.shm.front ∧ front = s.shm.front
  | .storeCount _ count => count = s.shm.count
  | _ => True

/-- The queue holds, in order, what was accepted and has not been taken out. -/
structure Ordered (s : State) : Prop where
  count_le : s.shm.count ≤ maxClients
  valid : Valid maxClients s.shm.front s.shm.rear (s.shm.count-(hand s).length)
  order : s.accepted = s.served ++ hand s ++
    contents maxClients s.shm.queue s.shm.front (s.shm.count-(hand s).length).toNat
  loaded : Loaded s

theorem ordered_init (cells : ℤ → ℤ) : Ordered (init cells) where
  count_le := by simp [init, maxClients]
  valid := valid_empty maxClients (by decide)
  order := rfl
  loaded := trivial

theorem Ordered.count_lt {s : State} (h : Ordered s) (hfull : isFull s.shm = false) :
    s.shm.count < maxClients := by
  have := h.count_le
  have : s.shm.count ≠ maxClients := by simpa [isFull] using hfull
  omega

theorem enqueue_room (pid : ℤ) {s : State} (hfull : isFull s.shm = false) :
    enqueue pid s = { s with shm := push pid s.shm, accepted := s.accepted ++ [pid] } := by
  rw [enqueue, if_neg (by simp [hfull])]

/-- The cell written is not the front, from which a PID may have been loaded. -/
theorem push_front (pid : ℤ) {s : State} (h : Ordered s) (hfull : isFull s.shm = false)
    (hpos : 0 < s.shm.count) (hnone : hand s = []) :
    (push pid s.shm).queue s.shm.front = s.shm.queue s.shm.front := by
  have hlt := h.count_lt hfull
  have hv := h.valid
  apply Function.update_of_ne
  intro heq
  apply rear_not_live hv (by omega)
  exact ⟨0, le_refl _, by simpa [hnone] using hpos, by
    rw [add_zero, Int.emod_eq_of_lt hv.front_nonneg hv.front_lt, heq]⟩

theorem loaded_push (pid : ℤ) {s : State} (h : Ordered s) (hc : Clear (.sigusr1 pid) s)
    (hfull : isFull s.shm = false) : Loaded (enqueue pid s) := by
  have hfront := push_front pid h hfull
  have hl := h.loaded
  have hpos (hl : 0 < s.shm.count) : 0 < s.shm.count+1 := by omega
  rw [enqueue_room pid hfull]
  unfold Loaded at hl ⊢
  cases hpc : s.pc with
  | loadFront =>
    rw [hpc] at hl
    exact hpos hl
  | loadCell front =>
    rw [hpc] at hl
    exact ⟨hpos hl.1, hl.2⟩
  | loadIndex pid =>
    rw [hpc] at hl
    exact ⟨hpos hl.1, hl.2.trans (hfront hl.1 (by simp [hand, hpc])).symm⟩
  | storeFront pid front =>
    rw [hpc] at hl
    exact ⟨hpos hl.1, hl.2.1.trans (hfront hl.1 (by simp [hand, hpc])).symm, hl.2.2⟩
  | storeCount pid count =>
    -- here the signal would be forgotten
    have := hc (by simp [inWindow, hpc])
    rw [this] at hfull
    cases hfull
  | _ => trivial

theorem ordered_push (pid : ℤ) {s : State} (h : Ordered s) (hc : Clear (.sigusr1 pid) s)
    (hfull : isFull s.shm = false) : Ordered (enqueue pid s) := by
  have hlt := h.count_lt hfull
  have hroom : s.shm.count-(hand s).length < maxClients := by omega
  have hcount : s.shm.count+1-(hand s).length = s.shm.count-(hand s).length+1 := by omega
  have hhand : hand { s with shm := push pid s.shm, accepted := s.accepted ++ [pid] } = hand s :=
    rfl
  have hloaded := loaded_push pid h hc hfull
  rw [enqueue_room pid hfull] at hloaded ⊢
  refine ⟨hlt, ?_, ?_, hloaded⟩
  · rw [hhand]
    show Valid maxClients s.shm.front (advance maxClients s.shm.rear)
      (s.shm.count+1-(hand s).length)
    rw [hcount]
    exact valid_push h.valid hroom
  · rw [hhand]
    show s.accepted ++ [pid] = s.served ++ hand s ++ contents maxClients
      (Function.update s.shm.queue s.shm.rear pid) s.shm.front
      (s.shm.count+1-(hand s).length).toNat
    rw [hcount, contents_push h.valid hroom, h.order, List.append_assoc]

theorem ordered_main {s : State} (h : Ordered s) : Ordered (mainStep s) := by
  obtain ⟨hle, hv, ho, hl⟩ := h
  unfold Loaded at hl
  unfold mainStep
  cases hpc : s.pc with
  | test =>
    simp only [hand, hpc] at hv ho
    cases isEmpty s.shm <;> exact ⟨hle, hv, ho, trivial⟩
  | testAgain =>
    simp only [hand, hpc] at hv ho
    cases hempty : isEmpty s.shm with
    | true => exact ⟨hle, hv, ho, trivial⟩
    | false =>
      refine ⟨hle, hv, ho, ?_⟩
      have := hv.count_nonneg
      have : s.shm.count ≠ 0 := by simpa [isEmpty] using hempty
      simp only [List.length_nil] at *
      show 0 < s.shm.count
      omega
  | loadFront =>
    simp only [hand, hpc] at hv ho hl
    exact ⟨hle, hv, ho, hl, rfl⟩
  | loadCell front =>
    simp only [hand, hpc] at hv ho hl
    exact ⟨hle, hv, ho, hl.1, by rw [hl.2]⟩
  | loadIndex pid =>
    simp only [hand, hpc] at hv ho hl
    exact ⟨hle, hv, ho, hl.1, hl.2, rfl⟩
  | storeFront pid front =>
    simp only [hand, hpc, List.length_nil, Nat.cast_zero, sub_zero, List.append_nil] at hv ho hl
    obtain ⟨hpos, rfl, rfl⟩ := hl
    refine ⟨hle, valid_pop hv hpos, ?_, trivial⟩
    rw [contents_pop hv hpos] at ho
    rw [ho, List.append_cons]
    rfl
  | loadCount pid =>
    simp only [hand, hpc] at hv ho
    exact ⟨hle, hv, ho, rfl⟩
  | storeCount pid count =>
    simp only [hand, hpc, List.length_singleton, Nat.cast_one] at hv ho hl
    subst hl
    refine ⟨by dsimp only; omega, by simpa [hand] using hv, ?_, trivial⟩
    simpa [hand] using ho
  | fork pid =>
    simp only [hand, hpc] at hv ho
    exact ⟨hle, hv, ho, trivial⟩

theorem ordered_step (a : Act) (s t : State) (h : Ordered s) (hc : Clear a s)
    (hs : step a s = some t) : Ordered t := by
  cases a with
  | main =>
    cases hs
    exact ordered_main h
  | sigusr1 pid =>
    cases hs
    cases hfull : isFull s.shm with
    | true => rwa [enqueue, if_pos hfull]
    | false => exact ordered_push pid h hc hfull

theorem ordered_run (cells : ℤ → ℤ) (as : List Act) (t : State)
    (hc : Meets step Clear as (init cells)) (h : run step as (init cells) = some t) :
    Ordered t :=
  guarded_invariant step Clear Ordered ordered_step as (init cells) t (ordered_init cells) hc h

theorem idle_seen {s : State} (h : Idle s) : seen s = s.shm.count ∧ hand s = [] := by
  obtain hpc | ⟨pid, hpc⟩ := h <;> simp [seen, hand, hpc]

/-- Between two operations the counters are right if and only if no client was
accepted in the window. -/
theorem settled_iff_clear (cells : ℤ → ℤ) (as : List Act) (t : State)
    (h : run step as (init cells) = some t) (hidle : Idle t) :
    Settled t ↔ Meets step Clear as (init cells) := by
  obtain ⟨hseen, hhand⟩ := idle_seen hidle
  obtain ⟨-, hdrift⟩ := meets_iff_of_drift step Clear lost lost_keeps lost_rises as _ t h
  have hlost : lost t = t.accepted.length-t.served.length-t.shm.count := by rw [lost, hseen]
  have hzero : lost (init cells) = 0 := rfl
  constructor
  · intro hs
    apply hdrift.mp
    have := hs.1
    omega
  · intro hc
    have hkeep := hdrift.mpr hc
    have hv := (ordered_run cells as t hc h).valid
    rw [hhand] at hv
    refine ⟨by omega, ?_⟩
    simpa using hv.rear_eq

/-- Without a signal in the window, clients are served in the order in which
they were accepted, and those not yet served are in the queue. -/
theorem served_in_order (cells : ℤ → ℤ) (as : List Act) (t : State)
    (hc : Meets step Clear as (init cells)) (h : run step as (init cells) = some t)
    (hidle : Idle t) : t.accepted =
      t.served ++ contents maxClients t.shm.queue t.shm.front t.shm.count.toNat := by
  have ho := (ordered_run cells as t hc h).order
  rw [(idle_seen hidle).2] at ho
  simpa using ho

/-- One client is dequeued up to the load of `count`; a second one asks. -/
def interrupted : List Act :=
  [Act.sigusr1 7] ++ List.replicate 7 Act.main ++ [Act.sigusr1 8, .main]

theorem settled_iff_clear_interrupted : ∃ t, run step interrupted (init fun _ => 0) = some t ∧
    Idle t ∧ (Settled t ↔ Meets step Clear interrupted (init fun _ => 0)) :=
  ⟨_, rfl, .inr ⟨7, rfl⟩, settled_iff_clear _ interrupted _ rfl (.inr ⟨7, rfl⟩)⟩

/-- The second client was accepted, the queue counts as empty. -/
theorem interrupted_loses : ∃ t, run step interrupted (init fun _ => 0) = some t ∧
    Idle t ∧ ¬ Settled t ∧ t.accepted = [7, 8] ∧ t.served = [7] ∧ t.shm.count = 0 :=
  ⟨_, rfl, .inr ⟨7, rfl⟩, nofun, rfl, rfl, rfl⟩

end CSE344.QueueSignals
