import SystemProgramming.ClientQueue

/-!
# The queue of client PIDs, one call at a time

`enqueue` and `dequeue` without anybody in between, against a list that holds
ten PIDs at most. Both calls are those of the main loop and its handler, run
to their end.
-/

set_option autoImplicit false

namespace CSE344.QueueFifo
open RingQueue TransitionRun ClientQueue

inductive Call where
  | enqueue (pid : ℤ)
  | dequeue
  deriving DecidableEq, Repr

/-- What a call does towards its caller: `rejected` is the PID that is passed
to `kill`, `dequeued` is what `dequeue` returns. -/
inductive Answer where
  | accepted
  | rejected (pid : ℤ)
  | dequeued (pid : ℤ)
  deriving DecidableEq, Repr

def enqueueCall (pid : ℤ) (shm : Segment) : Segment × Answer :=
  if isFull shm then (shm, .rejected pid) else (push pid shm, .accepted)

def dequeueCall (shm : Segment) : Segment × Answer :=
  if isEmpty shm then (shm, .dequeued (-1))
  else
    ({ shm with front := advance maxClients shm.front, count := shm.count-1 },
      .dequeued (shm.queue shm.front))

def call : Call → Segment → Segment × Answer
  | .enqueue pid, shm => enqueueCall pid shm
  | .dequeue, shm => dequeueCall shm

/-- The queue that is meant: a list, oldest first. -/
def listCall : Call → List ℤ → List ℤ × Answer
  | .enqueue pid, held =>
    if held.length < 10 then (held ++ [pid], .accepted) else (held, .rejected pid)
  | .dequeue, [] => ([], .dequeued (-1))
  | .dequeue, pid::held => (held, .dequeued pid)

def held (shm : Segment) : List ℤ := contents maxClients shm.queue shm.front shm.count.toNat

structure Represents (shm : Segment) (queue : List ℤ) : Prop where
  valid : Valid maxClients shm.front shm.rear shm.count
  held : held shm = queue

theorem held_length (shm : Segment) : (held shm).length = shm.count.toNat := by
  rw [held, contents, List.length_map, List.length_range]

theorem represents_enqueue (pid : ℤ) {shm : Segment} {queue : List ℤ}
    (h : Represents shm queue) :
    Represents (enqueueCall pid shm).1 (listCall (.enqueue pid) queue).1 ∧
      (enqueueCall pid shm).2 = (listCall (.enqueue pid) queue).2 := by
  have hlen := held_length shm
  rw [h.held] at hlen
  have hnonneg := h.valid.count_nonneg
  have hle := h.valid.count_le
  simp only [maxClients] at hle
  by_cases hfull : shm.count = 10
  · have hno : ¬ queue.length < 10 := by omega
    have htest : isFull shm = true := by simp [isFull, maxClients, hfull]
    rw [enqueueCall, if_pos htest, listCall, if_neg hno]
    exact ⟨h, rfl⟩
  · have hroom : queue.length < 10 := by omega
    have htest : ¬ isFull shm = true := by simp [isFull, maxClients, hfull]
    have hlt : shm.count < maxClients := by
      simp only [maxClients]
      omega
    rw [enqueueCall, if_neg htest, listCall, if_pos hroom]
    refine ⟨⟨valid_push h.valid hlt, ?_⟩, rfl⟩
    rw [← h.held]
    exact contents_push h.valid hlt shm.queue pid

theorem represents_dequeue {shm : Segment} {queue : List ℤ} (h : Represents shm queue) :
    Represents (dequeueCall shm).1 (listCall .dequeue queue).1 ∧
      (dequeueCall shm).2 = (listCall .dequeue queue).2 := by
  have hlen := held_length shm
  rw [h.held] at hlen
  have hnonneg := h.valid.count_nonneg
  cases queue with
  | nil =>
    have h0 : shm.count = 0 := by
      rw [List.length_nil] at hlen
      omega
    rw [dequeueCall, if_pos (by simp [isEmpty, h0])]
    exact ⟨h, rfl⟩
  | cons pid queue =>
    have hpos : 0 < shm.count := by
      rw [List.length_cons] at hlen
      omega
    have hpop := contents_pop h.valid hpos shm.queue
    rw [← held, h.held, List.cons.injEq] at hpop
    rw [dequeueCall, if_neg (by simp [isEmpty, ne_of_gt hpos])]
    exact ⟨⟨valid_pop h.valid hpos, hpop.2.symm⟩, congrArg Answer.dequeued hpop.1.symm⟩

theorem represents_call (c : Call) (shm : Segment) (queue : List ℤ) (h : Represents shm queue) :
    Represents (call c shm).1 (listCall c queue).1 ∧ (call c shm).2 = (listCall c queue).2 := by
  cases c with
  | enqueue pid => exact represents_enqueue pid h
  | dequeue => exact represents_dequeue h

/-- After any list of calls the counters fit, and the answers and the PIDs held
are those of the list. -/
theorem queue_bounded_fifo (cells : ℤ → ℤ) (cs : List Call) :
    let shm := (answers call cs ⟨cells, 0, 0, 0⟩).1
    (0 ≤ shm.count ∧ shm.count ≤ maxClients) ∧ (0 ≤ shm.front ∧ shm.front < maxClients) ∧
      (0 ≤ shm.rear ∧ shm.rear < maxClients) ∧
      shm.rear = (shm.front+shm.count)%maxClients ∧
      held shm = (answers listCall cs []).1 ∧
      (answers call cs ⟨cells, 0, 0, 0⟩).2 = (answers listCall cs []).2 := by
  have hstart : Represents ⟨cells, 0, 0, 0⟩ [] := ⟨valid_empty maxClients (by decide), rfl⟩
  obtain ⟨⟨hvalid, hheld⟩, hanswers⟩ :=
    answers_refine call listCall Represents represents_call cs _ _ hstart
  exact ⟨⟨hvalid.count_nonneg, hvalid.count_le⟩, ⟨hvalid.front_nonneg, hvalid.front_lt⟩,
    hvalid.rear_bounds, hvalid.rear_eq, hheld, hanswers⟩

section Uninterrupted

/-- The handler's `enqueue` is the call. -/
theorem enqueue_uninterrupted (pid : ℤ) (s : State) :
    (enqueue pid s).shm = (enqueueCall pid s.shm).1 := by
  unfold enqueue enqueueCall
  split_ifs <;> rfl

theorem dequeue_uninterrupted (s : State) (hs : s.pc = .testAgain) : ∃ n t pid,
    run step (List.replicate n .main) s = some t ∧ t.pc = .fork pid ∧
      dequeueCall s.shm = (t.shm, .dequeued pid) := by
  obtain ⟨shm, pc, accepted, served⟩ := s
  obtain rfl : pc = .testAgain := hs
  cases hempty : isEmpty shm with
  | true =>
    refine ⟨1, ⟨shm, .fork (-1), accepted, served⟩, -1, ?_, rfl, ?_⟩
    · simp [run, step, mainStep, hempty]
    · rw [dequeueCall, if_pos hempty]
  | false =>
    refine ⟨7, ⟨{ shm with front := advance maxClients shm.front, count := shm.count-1 },
      .fork (shm.queue shm.front), accepted, served ++ [shm.queue shm.front]⟩,
      shm.queue shm.front, ?_, rfl, ?_⟩
    · simp [List.replicate, run, step, mainStep, hempty]
    · rw [dequeueCall, if_neg (by simp [hempty])]

end Uninterrupted

end CSE344.QueueFifo
