import Mathlib.Data.List.Induction
import SystemProgramming.PcpPaths
import SystemProgramming.PcpRank
import SystemProgramming.PcpSource

/-!
# pCp copies what copying one pair after the other would

The abstract program takes one pair at a time: it empties the destination and
copies the source into it. The machine opens a destination long before it
fills it, and lets many consumers at it; as long as the destinations are apart
from each other and from the sources, none of that shows. At every moment the
file system is the one that the abstract program has after the consumed pairs,
with the destinations of the waiting pairs emptied.
-/

set_option autoImplicit false

namespace CSE344.PcpCorrect
open CString FileBytes RingQueue TransitionRun PcpMachine PcpFifo PcpPaths PcpSource PcpRank

def paths (slot : Slot) : Bytes × Bytes := (slot.sourceFile, slot.destinationFile)

def listing (cfg : Config) : List (Bytes × Bytes) := (named cfg.entries).map (bufferPaths cfg)

variable {Loc : Type*}

/-- No location is the destination of two pairs, or a source and a destination. -/
structure Apart (w : World Loc) (pairs : List (Bytes × Bytes)) : Prop where
  distinct : (pairs.map (fun p => w.denotes p.2)).Nodup
  sources : ∀ p ∈ pairs, ∀ q ∈ pairs, w.denotes p.1 ≠ w.denotes q.2

theorem Apart.sublist {w : World Loc} {ps qs : List (Bytes × Bytes)} (h : Apart w qs)
    (hs : ps.Sublist qs) : Apart w ps where
  distinct := h.distinct.sublist (hs.map _)
  sources p hp q hq := h.sources p (hs.subset hp) q (hs.subset hq)

section Abstract

variable [DecidableEq Loc]

/-- The destinations opened, and nothing copied yet. -/
def emptied (w : World Loc) (pairs : List (Bytes × Bytes)) (files : Loc → Option Bytes) :
    Loc → Option Bytes :=
  pairs.foldl (fun fs p => Function.update fs (w.denotes p.2) (some [])) files

/-- One pair from beginning to end. -/
def copyOne (w : World Loc) (files : Loc → Option Bytes) (p : Bytes × Bytes) :
    Loc → Option Bytes :=
  copy chunkSize (w.denotes p.1) (w.denotes p.2)
    (Function.update files (w.denotes p.2) (some []))

/-- The abstract program: the pairs one after the other. -/
def copyAll (w : World Loc) (pairs : List (Bytes × Bytes)) (files : Loc → Option Bytes) :
    Loc → Option Bytes :=
  pairs.foldl (copyOne w) files

theorem emptied_concat (w : World Loc) (pairs : List (Bytes × Bytes)) (p : Bytes × Bytes)
    (files : Loc → Option Bytes) :
    emptied w (pairs ++ [p]) files =
      Function.update (emptied w pairs files) (w.denotes p.2) (some []) := by
  simp [emptied]

theorem emptied_content (w : World Loc) (pairs : List (Bytes × Bytes)) (p : Bytes × Bytes)
    (hp : p ∈ pairs) (files : Loc → Option Bytes) :
    emptied w pairs files (w.denotes p.2) = some [] := by
  induction pairs using List.reverseRecOn with
  | nil => cases hp
  | append_singleton pairs q ih =>
    rw [emptied_concat]
    by_cases heq : w.denotes p.2 = w.denotes q.2
    · rw [heq, Function.update_self]
    · rw [Function.update_of_ne heq]
      rcases List.mem_append.mp hp with hp | hp
      · exact ih hp
      · exact absurd (by rw [List.mem_singleton.mp hp]) heq

theorem emptied_frame (w : World Loc) (pairs : List (Bytes × Bytes)) (l : Loc)
    (h : ∀ p ∈ pairs, l ≠ w.denotes p.2) (files : Loc → Option Bytes) :
    emptied w pairs files l = files l := by
  induction pairs using List.reverseRecOn with
  | nil => rfl
  | append_singleton pairs q ih =>
    rw [emptied_concat, Function.update_of_ne (h q (by simp))]
    exact ih (fun p hp => h p (by simp [hp]))

theorem copyAll_concat (w : World Loc) (pairs : List (Bytes × Bytes)) (p : Bytes × Bytes)
    (files : Loc → Option Bytes) :
    copyAll w (pairs ++ [p]) files = copyOne w (copyAll w pairs files) p := by
  simp [copyAll]

theorem copy_emptied (w : World Loc) (src dst : Loc) (pairs : List (Bytes × Bytes))
    (hsrc : ∀ p ∈ pairs, w.denotes p.2 ≠ src) (hdst : ∀ p ∈ pairs, w.denotes p.2 ≠ dst)
    (files : Loc → Option Bytes) :
    copy chunkSize src dst (emptied w pairs files) =
      emptied w pairs (copy chunkSize src dst files) := by
  induction pairs generalizing files with
  | nil => rfl
  | cons p pairs ih =>
    have hp := copy_update chunkSize src dst (w.denotes p.2) (hsrc p (by simp))
      (hdst p (by simp)) (some []) files
    rw [emptied, emptied, List.foldl_cons, List.foldl_cons, ← hp]
    exact ih (fun q hq => hsrc q (by simp [hq])) (fun q hq => hdst q (by simp [hq])) _

theorem copyOne_frame (w : World Loc) (p : Bytes × Bytes) (files : Loc → Option Bytes) (l : Loc)
    (h : l ≠ w.denotes p.2) : copyOne w files p l = files l := by
  rw [copyOne, copy_frame chunkSize _ _ _ h, Function.update_of_ne h]

theorem copyAll_frame (w : World Loc) (pairs : List (Bytes × Bytes))
    (files : Loc → Option Bytes) (l : Loc) (h : ∀ p ∈ pairs, l ≠ w.denotes p.2) :
    copyAll w pairs files l = files l := by
  induction pairs generalizing files with
  | nil => rfl
  | cons p pairs ih =>
    exact (ih (copyOne w files p) (fun q hq => h q (by simp [hq]))).trans
      (copyOne_frame w p files l (h p (by simp)))

end Abstract

/-- The pairs that were opened, the pair in hand and the pairs still to come. -/
def accounted (cfg : Config) (m : PcpMachine.State) : List (Bytes × Bytes) :=
  m.opened.map paths ++ (pathsOf m.producer ++ owed cfg m)

/-- The calls of `opendir` and `open` in this step give descriptors. -/
def Succeeds : Act → Prop
  | .opendir ok => ok = true
  | .produce sourceFd destinationFd _ => sourceFd ≠ -1 ∧ destinationFd ≠ -1
  | _ => True

instance Succeeds.decidable (a : Act) : Decidable (Succeeds a) := by
  unfold Succeeds
  split <;> infer_instance

theorem accounted_move (cfg : Config) (m : PcpMachine.State) (a : Act) (n : PcpMachine.State)
    (h : Move cfg m a n) : (accounted cfg n).Sublist (accounted cfg m) ∧
      (Succeeds a → accounted cfg n = accounted cfg m) := by
  have hsame {n : PcpMachine.State} (heq : accounted cfg n = accounted cfg m) :
      (accounted cfg n).Sublist (accounted cfg m) ∧
        (Succeeds a → accounted cfg n = accounted cfg m) :=
    ⟨heq ▸ List.Sublist.refl _, fun _ => heq⟩
  cases h with
  | opendir ok hp =>
    cases ok with
    | true => exact hsame (by simp [accounted, pathsOf, owed, hp])
    | false =>
      refine ⟨?_, fun hf => by cases hf⟩
      simp [accounted, pathsOf, owed, hp]
  | closedir hp => exact hsame (by simp [accounted, pathsOf, owed, hp, named])
  | readdir name rest hp =>
    apply hsame
    cases hdot : isDot name <;>
      simp [accounted, pathsOf, owed, hp, named, afterReaddir, hdot, bufferPaths]
  | sleepFull src dst rest a b wake hp => exact hsame (by simp [accounted, pathsOf, owed, hp])
  | openFails src dst rest a b wake hp hfail =>
    refine ⟨?_, fun hf => by rcases hfail with h | h <;> simp [Succeeds, h] at hf⟩
    simp [accounted, pathsOf, owed, hp]
  | store src dst rest a b wake cs hp =>
    exact hsame (by simp [accounted, pathsOf, owed, hp, paths])
  | finish hp => exact hsame (by simp [accounted, pathsOf, owed, hp])
  | spuriousNotFull src dst rest hp => exact hsame (by simp [accounted, pathsOf, owed, hp])
  | take i hi hpos =>
    apply hsame
    unfold accounted owed
    cases m.producer <;> rfl
  | sleepEmpty => exact hsame rfl
  | leave => exact hsame rfl
  | check => exact hsame rfl
  | spuriousNotEmpty => exact hsame rfl

theorem Apart.opened {w : World Loc} {cfg : Config} (hapart : Apart w (listing cfg))
    {m : PcpMachine.State} (hs : (accounted cfg m).Sublist (listing cfg)) :
    Apart w (m.opened.map paths) :=
  hapart.sublist ((List.sublist_append_left _ _).trans hs)

section Machine

variable [DecidableEq Loc] {w : World Loc} {cfg : Config} {files : Loc → Option Bytes}
  {s : PcpSource.State Loc}

/-- The consumed pairs are copied, and the destinations of the waiting ones are empty. -/
def Mirrors (w : World Loc) (files : Loc → Option Bytes) (s : PcpSource.State Loc) : Prop :=
  s.files = emptied w ((live s.machine.buf).map paths)
    (copyAll w (s.machine.consumed.map paths) files)

theorem effect_idle {a : Act} {s : PcpSource.State Loc} (ho : opens a s.machine = none)
    (hc : copies a s.machine = none) : effect w a s = s.files := by
  simp [effect, ho, hc]

theorem copy_next {before after : List Slot} {slot : Slot}
    (hapart : Apart w ((before ++ slot :: after).map paths)) (fs : Loc → Option Bytes) :
    copy chunkSize (w.denotes slot.sourceFile) (w.denotes slot.destinationFile)
        (emptied w ((slot :: after).map paths) fs) =
      emptied w (after.map paths) (copyOne w fs (paths slot)) := by
  have hwaiting : Apart w ((slot :: after).map paths) :=
    hapart.sublist ((List.sublist_append_right _ _).map _)
  have hdistinct := hwaiting.distinct
  rw [List.map_cons, List.map_cons, List.nodup_cons] at hdistinct
  rw [List.map_cons, emptied, List.foldl_cons]
  refine copy_emptied w _ _ _ (fun p hp => ?_) (fun p hp he => ?_) _
  · exact (hwaiting.sources (paths slot) (by simp) p (by simp [hp])).symm
  · exact hdistinct.1 (List.mem_map.mpr ⟨p, hp, he⟩)

theorem mirrors_step {a : Act} {s t : PcpSource.State Loc} (hm : Mirrors w files s)
    (hf : Fifo s.machine) (hapart : Apart w (s.machine.opened.map paths))
    (h : step w cfg a s = some t) : Mirrors w files t := by
  obtain ⟨n, fs⟩ := t
  obtain ⟨hmove, heff⟩ := step_cases h
  simp only at hmove heff
  subst heff
  have hidle (ho : opens a s.machine = none) (hc : copies a s.machine = none)
      (hb : live n.buf = live s.machine.buf) (hn : n.consumed = s.machine.consumed) :
      Mirrors w files ⟨n, effect w a s⟩ := by
    unfold Mirrors
    rw [effect_idle ho hc, hb, hn]
    exact hm
  cases hmove with
  | store src dst rest a b wake cs hp hfree ha hb hw =>
    have hlt : s.machine.buf.count < bufferSize := lt_of_le_of_ne hf.ring.count_le hfree
    have hopens : opens (.produce a b wake) s.machine = some (src, dst) := by
      simp [opens, hp, hfree, ha, hb]
    have hpush := contents_push hf.ring hlt s.machine.buf.buffer ⟨a, b, src, dst⟩
    simp only [Mirrors, effect, hopens, live, hpush, List.map_append, List.map_cons,
      List.map_nil, emptied_concat]
    exact congrArg (Function.update · _ _) hm
  | take i hi hpos =>
    have hlt : 0 < s.machine.buf.count := lt_of_le_of_ne hf.ring.count_nonneg (Ne.symm hpos)
    have hcopies : copies (.consume i) s.machine =
        some (s.machine.buf.buffer s.machine.buf.out) := by simp [copies, hpos]
    have hpop := contents_pop hf.ring hlt s.machine.buf.buffer
    have hqueue := hf.queue
    rw [live, hpop] at hqueue
    rw [← hqueue] at hapart
    simp only [Mirrors, live, hpop] at hm
    simp only [Mirrors, effect, hcopies, live, List.map_append, List.map_cons, List.map_nil,
      copyAll_concat, opens]
    rw [hm]
    exact copy_next hapart _
  | openFails src dst rest a b wake hp hfail =>
    refine hidle ?_ rfl rfl rfl
    rcases hfail with hfail | hfail <;> simp [opens, hp, hfail]
  | sleepFull src dst rest a b wake hp hfull => exact hidle (by simp [opens, hp, hfull]) rfl rfl rfl
  | sleepEmpty i hi h0 hd => exact hidle rfl (by simp [copies, h0]) rfl rfl
  | leave i hi h0 hd => exact hidle rfl (by simp [copies, h0]) rfl rfl
  | _ => exact hidle rfl rfl rfl rfl

theorem machine_step (w : World Loc) (cfg : Config) (a : Act) (s t : PcpSource.State Loc)
    (h : step w cfg a s = some t) : PcpMachine.step cfg a s.machine = some t.machine := by
  simp only [PcpSource.step, Option.ite_none_right_eq_some, Option.map_eq_some_iff] at h
  obtain ⟨-, m, hm, rfl⟩ := h
  exact hm

/-- The invariant: the ring is a FIFO, no pair is out of turn, and the files are
as the abstract program has them. -/
structure Tracked (w : World Loc) (cfg : Config) (files : Loc → Option Bytes)
    (s : PcpSource.State Loc) : Prop where
  fifo : Fifo s.machine
  listed : (accounted cfg s.machine).Sublist (listing cfg)
  mirrors : Mirrors w files s

theorem tracked_init (w : World Loc) (cfg : Config) (files : Loc → Option Bytes) :
    Tracked w cfg files (init cfg files) :=
  ⟨fifo_init cfg, List.Sublist.refl _, rfl⟩

theorem tracked_step (hapart : Apart w (listing cfg)) {a : Act} {s t : PcpSource.State Loc}
    (hs : Tracked w cfg files s) (h : step w cfg a s = some t) : Tracked w cfg files t := by
  have hmove := step_move cfg a s.machine t.machine (machine_step w cfg a s t h)
  exact ⟨fifo_move cfg _ _ _ hs.fifo hmove, (accounted_move cfg _ _ _ hmove).1.trans hs.listed,
    mirrors_step hs.mirrors hs.fifo (hapart.opened hs.listed) h⟩

theorem taken_live {m : PcpMachine.State} (hs : Fifo m) {i : ℕ} {slot : Slot}
    (h : copies (.consume i) m = some slot) : slot ∈ live m.buf := by
  simp only [copies, Option.ite_none_left_eq_some, Option.some.injEq] at h
  obtain ⟨hpos, rfl⟩ := h
  have hlt : 0 < m.buf.count := lt_of_le_of_ne hs.ring.count_nonneg (Ne.symm hpos)
  rw [live, contents_pop hs.ring hlt]
  exact List.mem_cons_self

theorem live_opened {m : PcpMachine.State} (hs : Fifo m) {slot : Slot} (h : slot ∈ live m.buf) :
    slot ∈ m.opened := by
  rw [← hs.queue]
  exact List.mem_append_right _ h

theorem Tracked.apart (hs : Tracked w cfg files s) (hapart : Apart w (listing cfg)) :
    Apart w ((s.machine.consumed ++ live s.machine.buf).map paths) := by
  rw [hs.fifo.queue]
  exact hapart.opened hs.listed

theorem Tracked.waiting (hs : Tracked w cfg files s) {slot : Slot}
    (hslot : slot ∈ live s.machine.buf) :
    s.files (w.denotes slot.destinationFile) = some [] := by
  rw [hs.mirrors]
  exact emptied_content w _ (paths slot) (List.mem_map_of_mem hslot) _

theorem Tracked.frame (hs : Tracked w cfg files s) {l : Loc}
    (hl : ∀ slot ∈ s.machine.opened, l ≠ w.denotes slot.destinationFile) :
    s.files l = files l := by
  rw [← hs.fifo.queue] at hl
  rw [hs.mirrors, emptied_frame, copyAll_frame]
  all_goals
    intro p hp
    obtain ⟨slot, hslot, rfl⟩ := List.mem_map.mp hp
    exact hl slot (by simp [hslot])

theorem Tracked.source (hs : Tracked w cfg files s) (hapart : Apart w (listing cfg)) {slot : Slot}
    (hslot : slot ∈ s.machine.opened) : readable s.files (w.denotes slot.sourceFile) =
      readable files (w.denotes slot.sourceFile) := by
  rw [readable, readable, hs.frame]
  intro other hother
  exact (hapart.opened hs.listed).sources _ (List.mem_map_of_mem hslot) _
    (List.mem_map_of_mem hother)

/-- Without consumers: nothing is taken, and every opened destination stays empty. -/
structure Untaken (w : World Loc) (files : Loc → Option Bytes) (s : PcpSource.State Loc) :
    Prop where
  fifo : Fifo s.machine
  nobody : s.machine.consumers = []
  taken : s.machine.consumed = []
  files : s.files = emptied w (s.machine.opened.map paths) files
  asleep : ∀ src dst rest, s.machine.producer = .asleep src dst rest →
    s.machine.buf.count = bufferSize

theorem untaken_step (a : Act) (s t : PcpSource.State Loc) (hs : Untaken w files s)
    (h : PcpSource.step w cfg a s = some t) : Untaken w files t := by
  obtain ⟨n, fs⟩ := t
  obtain ⟨hmove, heff⟩ := step_cases h
  simp only at hmove heff
  subst heff
  obtain ⟨hfifo, hnobody, htaken, hfiles, -⟩ := hs
  have hfifo' := fifo_move cfg _ _ _ hfifo hmove
  have hidle (ho : opens a s.machine = none) (hc : copies a s.machine = none)
      (hn : n.consumers = []) (ht : n.consumed = s.machine.consumed)
      (hp : n.opened = s.machine.opened)
      (ha : ∀ src dst rest, n.producer = .asleep src dst rest → n.buf.count = bufferSize) :
      Untaken w files ⟨n, effect w a s⟩ :=
    ⟨hfifo', hn, ht.trans htaken, (effect_idle ho hc).trans (hp.symm ▸ hfiles), ha⟩
  cases hmove with
  | store src dst rest a b wake cs hp hfree ha hb hw =>
    have hopens : opens (.produce a b wake) s.machine = some (src, dst) := by
      simp [opens, hp, hfree, ha, hb]
    refine ⟨hfifo', ?_, htaken, ?_, by simp⟩
    · have hlen := signal_length _ _ _ hw
      rw [hnobody] at hlen
      exact List.eq_nil_of_length_eq_zero hlen
    · simp only [effect, hopens, List.map_append, List.map_cons, List.map_nil, emptied_concat]
      exact congrArg (Function.update · _ _) hfiles
  | opendir ok hp => exact hidle rfl rfl hnobody rfl rfl (by cases ok <;> simp)
  | readdir name rest hp =>
    exact hidle rfl rfl hnobody rfl rfl
      (fun src dst rest' he => absurd he (PcpWakeup.afterReaddir_awake cfg name rest _ _ _))
  | openFails src dst rest a b wake hp hfail =>
    refine hidle ?_ rfl hnobody rfl rfl (by simp)
    rcases hfail with hfail | hfail <;> simp [opens, hp, hfail]
  | sleepFull src dst rest a b wake hp hfull =>
    exact hidle (by simp [opens, hp, hfull]) rfl hnobody rfl rfl (fun _ _ _ _ => hfull)
  | finish => exact hidle rfl rfl (by simp [broadcastNotEmpty, hnobody]) rfl rfl (by simp)
  | sleepEmpty i hi => simp [hnobody] at hi
  | leave i hi => simp [hnobody] at hi
  | take i hi => simp [hnobody] at hi
  | check i hi => simp [hnobody] at hi
  | spuriousNotEmpty i hi => simp [hnobody] at hi
  | closedir => exact hidle rfl rfl hnobody rfl rfl (by simp)
  | spuriousNotFull => exact hidle rfl rfl hnobody rfl rfl (by simp)

theorem Untaken.count {s : PcpSource.State Loc} (hs : Untaken w files s) :
    (s.machine.opened.length : ℤ) = s.machine.buf.count := by
  have hqueue := congrArg List.length hs.fifo.queue
  have := hs.fifo.ring.count_nonneg
  simp only [hs.taken, List.nil_append, live, contents, List.length_map,
    List.length_range] at hqueue
  omega

/-- The producer waits for room that nobody makes. -/
def Blocked (m : PcpMachine.State) : Prop :=
  m.buf.count = bufferSize ∧ pathsOf m.producer ≠ [] ∧ m.consumers = []

theorem blocked_step (a : Act) (m n : PcpMachine.State) (hb : Blocked m)
    (h : PcpMachine.step cfg a m = some n) : Blocked n ∧ n.opened = m.opened := by
  obtain ⟨hfull, hpending, hnobody⟩ := hb
  cases step_move cfg a m n h with
  | sleepFull src dst rest a b wake hp => exact ⟨⟨hfull, by simp [pathsOf], hnobody⟩, rfl⟩
  | spuriousNotFull src dst rest hp => exact ⟨⟨hfull, by simp [pathsOf], hnobody⟩, rfl⟩
  | openFails src dst rest a b wake hp =>
    simp only [PcpMachine.step, hp, produceFileDescriptorPair, hfull, if_true,
      Option.some.injEq] at h
    have hproducer := congrArg PcpMachine.State.producer h
    cases hproducer
  | store src dst rest a b wake cs hp hfree => exact absurd hfull hfree
  | sleepEmpty i hi => simp [hnobody] at hi
  | leave i hi => simp [hnobody] at hi
  | take i hi => simp [hnobody] at hi
  | check i hi => simp [hnobody] at hi
  | spuriousNotEmpty i hi => simp [hnobody] at hi
  | _ => simp_all [pathsOf]

theorem stuck_alone_iff {m : PcpMachine.State} (hnobody : m.consumers = []) :
    Stuck cfg m ↔ m.producer = .returned ∨ ∃ src dst rest, m.producer = .asleep src dst rest := by
  constructor
  · intro hstuck
    by_contra hno
    push Not at hno
    exact not_stuck_of_enabled cfg m
      (PcpWakeup.producer_enabled cfg m hno.2 hno.1) hstuck
  · intro hend a ha
    cases hs : PcpMachine.step cfg a m with
    | none => rfl
    | some n =>
      cases step_move cfg a m n hs with
      | sleepEmpty i hi => simp [hnobody] at hi
      | leave i hi => simp [hnobody] at hi
      | take i hi => simp [hnobody] at hi
      | check i hi => simp [hnobody] at hi
      | spuriousNotFull => cases ha
      | spuriousNotEmpty => cases ha
      | _ => simp_all

/-- With no consumer the ten slots are all there is: nothing is ever copied,
the destinations opened are left empty, and the run comes to an end exactly if
no eleventh pair is wanted; otherwise it never does. -/
theorem nobody_copies (w : World Loc) (cfg : Config) (files : Loc → Option Bytes)
    (hn : cfg.consumers = 0) (as : List Act) (t : PcpSource.State Loc)
    (h : run (PcpSource.step w cfg) as (init cfg files) = some t) :
    t.files = emptied w (t.machine.opened.map paths) files ∧
      (t.machine.opened.length : ℤ) = t.machine.buf.count ∧ t.machine.opened.length ≤ 10 ∧
      (Stuck cfg t.machine → ¬ Finished t.machine → t.machine.opened.length = 10) ∧
      (t.machine.opened.length = 10 → pathsOf t.machine.producer ≠ [] →
        ∀ bs n, run (PcpMachine.step cfg) bs t.machine = some n →
          ¬ Finished n ∧ n.opened = t.machine.opened) := by
  have hs := run_invariant (PcpSource.step w cfg) (Untaken w files) untaken_step as
    (init cfg files) t ⟨fifo_init cfg, by simp [PcpSource.init, PcpMachine.init, hn], rfl,
      rfl, by simp [PcpSource.init, PcpMachine.init]⟩ h
  have hcount := hs.count
  have hle : t.machine.buf.count ≤ 10 := hs.fifo.ring.count_le
  refine ⟨hs.files, hcount, by omega, fun hstuck hend => ?_, fun hten hpending bs n hbs => ?_⟩
  · rcases (stuck_alone_iff hs.nobody).mp hstuck with hp | ⟨src, dst, rest, hp⟩
    · exact absurd ⟨hp, by simp [hs.nobody]⟩ hend
    · have hfull : t.machine.buf.count = 10 := hs.asleep src dst rest hp
      omega
  · have hblocked : Blocked t.machine :=
      ⟨show t.machine.buf.count = 10 by omega, hpending, hs.nobody⟩
    have hkeep := run_invariant (PcpMachine.step cfg)
      (fun m => Blocked m ∧ m.opened = t.machine.opened)
      (fun a m n hm hn => ⟨(blocked_step a m n hm.1 hn).1,
        (blocked_step a m n hm.1 hn).2.trans hm.2⟩) bs t.machine n ⟨hblocked, rfl⟩ hbs
    refine ⟨fun hend => hkeep.1.2.1 ?_, hkeep.2⟩
    rw [hend.1]
    rfl

end Machine

/-- One file `a` in another directory, copied by the run of one consumer. -/
def otherDir (l : Bytes) : Option Bytes := if l = ascii "src/a" then some [1] else none

/-- The same directory with no consumer, over a destination that held two bytes. -/
def noConsumer : Config := { oneEntry with consumers := 0 }

def oldCopy (l : Bytes) : Option Bytes := if l = ascii "dst/a" then some [7, 7] else otherDir l

def noConsumerRun : List Act := [.opendir true, .readdir, .produce 3 4 none, .readdir, .finish]

theorem nobody_copies_one_entry : ∃ t,
    run (PcpSource.step byName noConsumer) noConsumerRun (init noConsumer oldCopy) = some t ∧
    Finished t.machine ∧
    t.files = emptied byName [(ascii "src/a", ascii "dst/a")] oldCopy :=
  ⟨_, rfl, by decide, (nobody_copies byName noConsumer oldCopy rfl noConsumerRun _ rfl).1⟩

end CSE344.PcpCorrect
