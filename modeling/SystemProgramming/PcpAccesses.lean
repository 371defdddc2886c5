import Mathlib.Data.List.Perm.Subperm
import SystemProgramming.PcpFifo

/-!
# The slots and descriptors that pCp touches

`accesses` lists what one mutex-protected section does to the ring and to the
descriptors: the slots it writes and reads, the numbers that `open` gives it
and those it passes to `close`. The slots stay within the ring, and the open
descriptors are at all times those of the live slots.
-/

set_option autoImplicit false

namespace CSE344.PcpAccesses
open CString RingQueue TransitionRun PcpMachine PcpFifo

structure Accesses where
  stores : List ℤ := []
  loads : List ℤ := []
  opens : List ℤ := []
  closes : List ℤ := []

def produceAccesses (sourceFd destinationFd : ℤ) (b : Buffer) : Accesses :=
  if b.count = bufferSize then {}
  else if sourceFd = -1 then {}
  else if destinationFd = -1 then { opens := [sourceFd], closes := [sourceFd] }
  else { stores := [b.in_], opens := [sourceFd, destinationFd] }

def pair (x : Slot) : List ℤ := [x.sourceFd, x.destinationFd]

def consumeAccesses (b : Buffer) : Accesses :=
  if b.count = 0 then {} else { loads := [b.out], closes := pair (b.buffer b.out) }

def accesses (a : Act) (b : Buffer) : Accesses :=
  match a with
  | .produce sourceFd destinationFd _ => produceAccesses sourceFd destinationFd b
  | .consume _ => consumeAccesses b
  | _ => {}

/-- One of the two opens of a produce fails. -/
def fails : Act → Bool
  | .produce sourceFd destinationFd _ => sourceFd = -1 ∨ destinationFd = -1
  | _ => false

/-- `open` returns a number that is not open. -/
def Fresh (a : Act) (s : State) : Prop :=
  (accesses a s.buf).opens.Nodup ∧ ∀ n ∈ (accesses a s.buf).opens, n ∉ s.fds

instance (a : Act) (s : State) : Decidable (Fresh a s) := inferInstanceAs (Decidable (_ ∧ _))

/-- The accesses are all that a section does to the slots and the descriptors. -/
structure Performed (x : Accesses) (s t : State) : Prop where
  slots : ∀ i, i ∉ x.stores → t.buf.buffer i = s.buf.buffer i
  consumed : t.consumed = s.consumed ++ x.loads.map s.buf.buffer
  fds : t.fds.Perm ((x.opens ++ s.fds).diff x.closes)

section Sections

variable {cfg : Config} {s t : State} {a : Act}

theorem produce_stored {x y : ℤ} {b : Buffer} (hfree : b.count ≠ bufferSize) (hx : x ≠ -1)
    (hy : y ≠ -1) : produceAccesses x y b = { stores := [b.in_], opens := [x, y] } := by
  rw [produceAccesses, if_neg hfree, if_neg hx, if_neg hy]

theorem consume_taken {b : Buffer} (hpos : b.count ≠ 0) :
    consumeAccesses b = { loads := [b.out], closes := pair (b.buffer b.out) } := by
  rw [consumeAccesses, if_neg hpos]

theorem produce_idle {x y : ℤ} {b : Buffer} (h : b.count = bufferSize ∨ x = -1 ∨ y = -1) :
    (produceAccesses x y b).stores = [] ∧ (produceAccesses x y b).loads = [] ∧
      (produceAccesses x y b).closes = (produceAccesses x y b).opens := by
  unfold produceAccesses
  split_ifs with hfull hx hy
  · exact ⟨rfl, rfl, rfl⟩
  · exact ⟨rfl, rfl, rfl⟩
  · exact ⟨rfl, rfl, rfl⟩
  · exact absurd h (by simp [hfull, hx, hy])

theorem stores_dead {b : Buffer} (h : Valid bufferSize b.out b.in_ b.count) (a : Act) :
    ∀ i ∈ (accesses a b).stores, ¬ Live bufferSize b.out b.count i := by
  intro i hi
  cases a with
  | produce x y wake =>
    change i ∈ (produceAccesses x y b).stores at hi
    unfold produceAccesses at hi
    split_ifs at hi with hfull hx hy
    · cases hi
    · cases hi
    · cases hi
    · rw [List.mem_singleton.mp hi]
      exact rear_not_live h (lt_of_le_of_ne h.count_le hfull)
  | consume k =>
    change i ∈ (consumeAccesses b).stores at hi
    unfold consumeAccesses at hi
    split_ifs at hi <;> cases hi
  | _ => cases hi

theorem loads_live {b : Buffer} (h : Valid bufferSize b.out b.in_ b.count) (a : Act) :
    ∀ i ∈ (accesses a b).loads, Live bufferSize b.out b.count i := by
  intro i hi
  cases a with
  | produce x y wake =>
    change i ∈ (produceAccesses x y b).loads at hi
    unfold produceAccesses at hi
    split_ifs at hi <;> cases hi
  | consume k =>
    change i ∈ (consumeAccesses b).loads at hi
    unfold consumeAccesses at hi
    split_ifs at hi with h0
    · cases hi
    · rw [List.mem_singleton.mp hi]
      refine ⟨0, le_refl _, lt_of_le_of_ne h.count_nonneg (Ne.symm h0), ?_⟩
      rw [add_zero, Int.emod_eq_of_lt h.front_nonneg h.front_lt]
  | _ => cases hi

theorem append_diff_left (l m : List ℤ) : (l ++ m).diff l = m := by
  induction l with
  | nil => rfl
  | cons n l ih => rw [List.cons_append, List.diff_cons, List.erase_cons_head, ih]

theorem performed_idle {x : Accesses} (hloads : x.loads = [])
    (hcloses : x.closes = x.opens) (hbuf : t.buf.buffer = s.buf.buffer)
    (hconsumed : t.consumed = s.consumed) (hfds : t.fds = s.fds) : Performed x s t where
  slots i _ := by rw [hbuf]
  consumed := by rw [hloads, hconsumed, List.map_nil, List.append_nil]
  fds := by rw [hcloses, hfds, append_diff_left]

theorem performed_move (h : Move cfg s a t) : Performed (accesses a s.buf) s t := by
  cases h with
  | sleepFull src dst rest x y wake hp hfull =>
    obtain ⟨-, hloads, hcloses⟩ := produce_idle (x := x) (y := y) (Or.inl hfull)
    exact performed_idle hloads hcloses rfl rfl rfl
  | openFails src dst rest x y wake hp hfail =>
    obtain ⟨-, hloads, hcloses⟩ := produce_idle (b := s.buf) (Or.inr hfail)
    exact performed_idle hloads hcloses rfl rfl rfl
  | store src dst rest x y wake cs hp hfree hx hy hw =>
    rw [accesses, produce_stored hfree hx hy]
    refine ⟨fun i hi => ?_, (List.append_nil _).symm, List.perm_append_comm⟩
    exact Function.update_of_ne (by simpa using hi) _ _
  | sleepEmpty i hi h0 hd =>
    rw [accesses, consumeAccesses, if_pos h0]
    exact performed_idle rfl rfl rfl rfl rfl
  | leave i hi h0 hd =>
    rw [accesses, consumeAccesses, if_pos h0]
    exact performed_idle rfl rfl rfl rfl rfl
  | take i hi hpos =>
    rw [accesses, consume_taken hpos]
    exact ⟨fun _ _ => rfl, rfl, by simp [pair]⟩
  | _ => exact performed_idle rfl rfl rfl rfl rfl

theorem failed_move (h : Move cfg s a t) (hfail : fails a = true) : t.buf = s.buf := by
  cases h with
  | store src dst rest x y wake cs hp hfree hx hy hw => simp [fails, hx, hy] at hfail
  | finish => cases hfail
  | take => cases hfail
  | _ => rfl

/-- The ring invariant, what the sections read and write of it, and the produce
that fails: in every state that a run reaches. -/
theorem ring_kept (cfg : Config) (as : List Act) (s : State)
    (h : run (step cfg) as (init cfg) = some s) :
    (0 ≤ s.buf.count ∧ s.buf.count ≤ bufferSize) ∧ (0 ≤ s.buf.in_ ∧ s.buf.in_ < bufferSize) ∧
      (0 ≤ s.buf.out ∧ s.buf.out < bufferSize) ∧
      s.buf.in_ = (s.buf.out+s.buf.count)%bufferSize ∧
      ∀ a t, step cfg a s = some t →
        (∀ i ∈ (accesses a s.buf).stores, ¬ Live bufferSize s.buf.out s.buf.count i) ∧
        (∀ i ∈ (accesses a s.buf).loads, Live bufferSize s.buf.out s.buf.count i) ∧
        (∀ i, i ∉ (accesses a s.buf).stores → t.buf.buffer i = s.buf.buffer i) ∧
        t.consumed = s.consumed ++ (accesses a s.buf).loads.map s.buf.buffer ∧
        (fails a = true → t.buf = s.buf) := by
  have hring := (fifo_reachable cfg as s h).ring
  refine ⟨⟨hring.count_nonneg, hring.count_le⟩, hring.rear_bounds,
    ⟨hring.front_nonneg, hring.front_lt⟩, hring.rear_eq, fun a t ht => ?_⟩
  have hmove := step_move cfg a s t ht
  have hdone := performed_move hmove
  exact ⟨stores_dead hring a, loads_live hring a, hdone.slots, hdone.consumed, failed_move hmove⟩

theorem ring_kept_failed_open : ∃ s, run (step oneEntry) [.opendir true, .readdir]
    (init oneEntry) = some s ∧ ∃ t, step oneEntry (.produce 3 (-1) none) s = some t ∧
      t.buf = s.buf :=
  ⟨_, rfl, _, rfl, ((ring_kept oneEntry [.opendir true, .readdir] _ rfl).2.2.2.2
    (.produce 3 (-1) none) _ rfl).2.2.2.2 rfl⟩

end Sections

section Ledger

variable {cfg : Config} {s t : State} {a : Act}

/-- The descriptors of the live slots. -/
def held (b : Buffer) : List ℤ := (live b).flatMap pair

/-- The open descriptors are those of the live slots, each of them once. -/
structure Ledger (s : State) : Prop where
  fds : s.fds.Perm (held s.buf)
  nodup : s.fds.Nodup

theorem ledger_init (cfg : Config) : Ledger (init cfg) := ⟨List.Perm.refl _, List.nodup_nil⟩

theorem held_take (h : Valid bufferSize s.buf.out s.buf.in_ s.buf.count)
    (hpos : s.buf.count ≠ 0) : held s.buf = pair (s.buf.buffer s.buf.out) ++
      (contents bufferSize s.buf.buffer (advance bufferSize s.buf.out)
        (s.buf.count-1).toNat).flatMap pair := by
  have hlt : 0 < s.buf.count := lt_of_le_of_ne h.count_nonneg (Ne.symm hpos)
  rw [held, live, contents_pop h hlt, List.flatMap_cons]

theorem ledger_move (hf : Fifo s) (hs : Ledger s) (hfresh : Fresh a s) (h : Move cfg s a t) :
    Ledger t := by
  cases h with
  | store src dst rest x y wake cs hp hfree hx hy hw =>
    rw [Fresh, accesses, produce_stored hfree hx hy] at hfresh
    have hlt : s.buf.count < bufferSize := lt_of_le_of_ne hf.ring.count_le hfree
    constructor
    · show (s.fds ++ [x, y]).Perm (held _)
      rw [held, live, contents_push hf.ring hlt, List.flatMap_append]
      exact hs.fds.append_right [x, y]
    · apply List.nodup_append.mpr
      refine ⟨hs.nodup, hfresh.1, fun m hm n hn hmn => ?_⟩
      exact hfresh.2 n hn (hmn ▸ hm)
  | take i hi hpos =>
    have hheld := hs.fds
    rw [held_take hf.ring hpos] at hheld
    constructor
    · have herase := hheld.diff_right (pair (s.buf.buffer s.buf.out))
      rw [append_diff_left, pair, List.diff_cons, List.diff_cons, List.diff_nil] at herase
      exact herase
    · exact (hs.nodup.erase _).erase _
  | _ => exact ⟨hs.fds, hs.nodup⟩

/-- Every number that is closed is open, and it is one of the pair that is
taken out or one that this section has opened. -/
theorem closes_open (hf : Fifo s) (hs : Ledger s) (h : Move cfg s a t) :
    (accesses a s.buf).closes.Subperm (s.fds ++ (accesses a s.buf).opens) ∧
      ((∃ x, t.consumed = s.consumed ++ [x] ∧ (accesses a s.buf).closes = pair x) ∨
        (t.consumed = s.consumed ∧
          ∀ n ∈ (accesses a s.buf).closes, n ∈ (accesses a s.buf).opens)) := by
  have hidle (x : Accesses) (hcloses : x.closes = x.opens) :
      x.closes.Subperm (s.fds ++ x.opens) ∧ ∀ n ∈ x.closes, n ∈ x.opens := by
    rw [hcloses]
    exact ⟨(List.sublist_append_right _ _).subperm, fun _ hn => hn⟩
  cases h with
  | sleepFull src dst rest x y wake hp hfull =>
    obtain ⟨hsub, hmem⟩ := hidle _ (produce_idle (x := x) (y := y) (Or.inl hfull)).2.2
    exact ⟨hsub, Or.inr ⟨rfl, hmem⟩⟩
  | openFails src dst rest x y wake hp hfail =>
    obtain ⟨hsub, hmem⟩ := hidle _ (produce_idle (b := s.buf) (Or.inr hfail)).2.2
    exact ⟨hsub, Or.inr ⟨rfl, hmem⟩⟩
  | store src dst rest x y wake cs hp hfree hx hy hw =>
    rw [accesses, produce_stored hfree hx hy]
    exact ⟨List.nil_subperm, Or.inr ⟨rfl, fun _ hn => by cases hn⟩⟩
  | sleepEmpty i hi h0 hd =>
    rw [accesses, consumeAccesses, if_pos h0]
    exact ⟨List.nil_subperm, Or.inr ⟨rfl, fun _ hn => by cases hn⟩⟩
  | leave i hi h0 hd =>
    rw [accesses, consumeAccesses, if_pos h0]
    exact ⟨List.nil_subperm, Or.inr ⟨rfl, fun _ hn => by cases hn⟩⟩
  | take i hi hpos =>
    rw [accesses, consume_taken hpos]
    refine ⟨?_, Or.inl ⟨_, rfl, rfl⟩⟩
    have hheld := hs.fds
    rw [held_take hf.ring hpos] at hheld
    rw [List.append_nil]
    exact (List.sublist_append_left _ _).subperm.trans hheld.symm.subperm
  | _ => exact ⟨List.nil_subperm, Or.inr ⟨rfl, fun _ hn => by cases hn⟩⟩

theorem ledger_reachable (cfg : Config) (as : List Act) (s : State)
    (hfresh : Meets (step cfg) Fresh as (init cfg)) (h : run (step cfg) as (init cfg) = some s) :
    Fifo s ∧ Ledger s := by
  apply guarded_invariant (step cfg) Fresh (fun u => Fifo u ∧ Ledger u) _ as (init cfg) s
    ⟨fifo_init cfg, ledger_init cfg⟩ hfresh h
  intro b u v hu hb hv
  have hmove := step_move cfg b u v hv
  exact ⟨fifo_move cfg u b v hu.1 hmove, ledger_move hu.1 hu.2 hb hmove⟩

/-- Between sections the open descriptors are those of the live slots, only
open ones are closed, and none is left when everybody has returned. -/
theorem descriptors_accounted (cfg : Config) (hn : 1 ≤ cfg.consumers) (as : List Act) (s : State)
    (hfresh : Meets (step cfg) Fresh as (init cfg)) (h : run (step cfg) as (init cfg) = some s) :
    s.fds.Perm (held s.buf) ∧ s.fds.Nodup ∧
      (∀ a t, step cfg a s = some t →
        (accesses a s.buf).closes.Subperm (s.fds ++ (accesses a s.buf).opens) ∧
        ((∃ x, t.consumed = s.consumed ++ [x] ∧ (accesses a s.buf).closes = pair x) ∨
          (t.consumed = s.consumed ∧
            ∀ n ∈ (accesses a s.buf).closes, n ∈ (accesses a s.buf).opens)) ∧
        t.fds.Perm (((accesses a s.buf).opens ++ s.fds).diff (accesses a s.buf).closes)) ∧
      (s.producer = .returned → (∀ c ∈ s.consumers, c = .returned) → s.fds = []) := by
  obtain ⟨hf, hs⟩ := ledger_reachable cfg as s hfresh h
  refine ⟨hs.fds, hs.nodup, fun a t ht => ?_, fun _ hall => ?_⟩
  · have hmove := step_move cfg a s t ht
    obtain ⟨hopen, hwhose⟩ := closes_open hf hs hmove
    exact ⟨hopen, hwhose, (performed_move hmove).fds⟩
  · have hlen := consumers_length cfg as s h
    obtain ⟨c, hc⟩ := List.exists_mem_of_length_pos (show 0 < s.consumers.length by omega)
    have h0 := ((exit_reachable cfg as s h).left (hall c hc ▸ hc)).1
    have hnil := hs.fds
    rw [held, live, h0] at hnil
    exact List.perm_nil.mp hnil

theorem descriptors_accounted_one_entry :
    ∃ s, run (step oneEntry) oneEntryRun (init oneEntry) = some s ∧ s.opened.length = 1 ∧
      s.fds = [] :=
  ⟨_, rfl, rfl, (descriptors_accounted oneEntry (by decide) oneEntryRun _ (by decide)
    rfl).2.2.2 rfl (by decide)⟩

end Ledger

end CSE344.PcpAccesses
