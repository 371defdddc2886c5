import SystemProgramming.CString
import SystemProgramming.SerialOrder

/-!
# The lines in the BibakBOX log files

`writeLog` in all handlers at once. `ctime` returns the same static array to
every thread. The mutex is around `fprintf` alone, and that only fills the buffer
of the thread's own stream: the line gets to the end of the file at `fclose`.
-/

set_option autoImplicit false

namespace CSE344.BoxStamps
open CString SerialOrder TransitionRun

structure Call where
  logFile : Bytes
  message : Bytes
  deriving DecidableEq, Repr

/-- Where a thread is in `writeLog`: each name is the call or the access made
next, and `cut` has the `strlen(timestamp)` that it found. -/
inductive Pc where
  | idle
  | time (c : Call)
  | measure (c : Call)
  | cut (c : Call) (len : ℕ)
  | lock (c : Call)
  | print (c : Call)
  | unlock (c : Call) (stamp : Bytes)
  | close (c : Call) (stamp : Bytes)
  deriving DecidableEq, Repr

/-- `done` are the calls that have returned, each with the time stamp that it
has printed, if its `fopen` succeeded. -/
structure Thread where
  todo : List Call
  pc : Pc
  done : List (Call × Option Bytes)

/-- The string in the array of `ctime`, and the log files. `times` and `closed`
are histories: what `ctime` was to return, and the streams in the order of
their `fclose`. -/
structure State (n : ℕ) where
  timestamp : Bytes
  logMutex : Option (Fin n)
  files : Bytes → Bytes
  threads : Fin n → Thread
  times : List Bytes
  closed : List (Fin n × (Call × Bytes))

inductive Act (n : ℕ) where
  | fopen (i : Fin n) (ok : Bool)
  | ctime (i : Fin n) (text : Bytes)
  | strlen (i : Fin n)
  | cut (i : Fin n)
  | lock (i : Fin n)
  | fprintf (i : Fin n)
  | unlock (i : Fin n)
  | fclose (i : Fin n)
  deriving DecidableEq

variable {n : ℕ}

def line (c : Call) (stamp : Bytes) : Bytes :=
  ascii "[" ++ stamp ++ ascii "] " ++ c.message ++ ascii "\n"

def State.setThread (s : State n) (i : Fin n) (th : Thread) : State n :=
  { s with threads := Function.update s.threads i th }

def State.goto (s : State n) (i : Fin n) (pc : Pc) : State n :=
  s.setThread i { s.threads i with pc := pc }

/-- The next call of the thread begins. -/
def Thread.begin (c : Call) (cs : List Call) (ok : Bool) (th : Thread) : Thread :=
  if ok then { th with todo := cs, pc := .time c }
  else ⟨cs, .idle, th.done ++ [(c, none)]⟩

/-- The call returns. -/
def Thread.finish (c : Call) (stamp : Bytes) (th : Thread) : Thread :=
  { th with pc := .idle, done := th.done ++ [(c, some stamp)] }

/-- A `NUL` behind the end of the string changes nothing of it, one before its
beginning is a store outside the array. -/
def step : Act n → State n → Option (State n)
  | .fopen i ok, s =>
    match (s.threads i).pc, (s.threads i).todo with
    | .idle, c::cs => some (s.setThread i ((s.threads i).begin c cs ok))
    | _, _ => none
  | .ctime i text, s =>
    match (s.threads i).pc with
    | .time c => some ({ s with timestamp := text, times := text::s.times }.goto i (.measure c))
    | _ => none
  | .strlen i, s =>
    match (s.threads i).pc with
    | .measure c => some (s.goto i (.cut c s.timestamp.length))
    | _ => none
  | .cut i, s =>
    match (s.threads i).pc with
    | .cut c len =>
      if len = 0 then none
      else some ({ s with timestamp := s.timestamp.take (len-1) }.goto i (.lock c))
    | _ => none
  | .lock i, s =>
    match (s.threads i).pc with
    | .lock c =>
      if s.logMutex = none then some ({ s with logMutex := some i }.goto i (.print c)) else none
    | _ => none
  | .fprintf i, s =>
    match (s.threads i).pc with
    | .print c => some (s.goto i (.unlock c s.timestamp))
    | _ => none
  | .unlock i, s =>
    match (s.threads i).pc with
    | .unlock c stamp => some ({ s with logMutex := none }.goto i (.close c stamp))
    | _ => none
  | .fclose i, s =>
    match (s.threads i).pc with
    | .close c stamp => some ({ s with
        files := Function.update s.files c.logFile (s.files c.logFile ++ line c stamp)
        closed := s.closed ++ [(i, (c, stamp))] }.setThread i ((s.threads i).finish c stamp))
    | _ => none

def start (programs : Fin n → List Call) (files : Bytes → Bytes) : State n where
  timestamp := []
  logMutex := none
  files := files
  threads i := ⟨programs i, .idle, []⟩
  times := []
  closed := []

/-- Everything a step can do. -/
inductive Move (s : State n) : Act n → State n → Prop
  | fopen (i : Fin n) (ok : Bool) (c : Call) (cs : List Call) (hpc : (s.threads i).pc = .idle)
      (htodo : (s.threads i).todo = c::cs) :
      Move s (.fopen i ok) (s.setThread i ((s.threads i).begin c cs ok))
  | ctime (i : Fin n) (text : Bytes) (c : Call) (hpc : (s.threads i).pc = .time c) :
      Move s (.ctime i text)
        ({ s with timestamp := text, times := text::s.times }.goto i (.measure c))
  | strlen (i : Fin n) (c : Call) (hpc : (s.threads i).pc = .measure c) :
      Move s (.strlen i) (s.goto i (.cut c s.timestamp.length))
  | cut (i : Fin n) (c : Call) (len : ℕ) (hpc : (s.threads i).pc = .cut c len) (hlen : len ≠ 0) :
      Move s (.cut i) ({ s with timestamp := s.timestamp.take (len-1) }.goto i (.lock c))
  | lock (i : Fin n) (c : Call) (hpc : (s.threads i).pc = .lock c) (hfree : s.logMutex = none) :
      Move s (.lock i) ({ s with logMutex := some i }.goto i (.print c))
  | fprintf (i : Fin n) (c : Call) (hpc : (s.threads i).pc = .print c) :
      Move s (.fprintf i) (s.goto i (.unlock c s.timestamp))
  | unlock (i : Fin n) (c : Call) (stamp : Bytes) (hpc : (s.threads i).pc = .unlock c stamp) :
      Move s (.unlock i) ({ s with logMutex := none }.goto i (.close c stamp))
  | fclose (i : Fin n) (c : Call) (stamp : Bytes) (hpc : (s.threads i).pc = .close c stamp) :
      Move s (.fclose i) ({ s with
        files := Function.update s.files c.logFile (s.files c.logFile ++ line c stamp)
        closed := s.closed ++ [(i, (c, stamp))] }.setThread i ((s.threads i).finish c stamp))

theorem step_move {a : Act n} {s t : State n} (h : step a s = some t) : Move s a t := by
  cases a with
  | fopen i ok =>
    simp only [step] at h
    split at h
    · next c cs hpc htodo =>
      cases h
      exact .fopen i ok c cs hpc htodo
    · cases h
  | ctime i text =>
    simp only [step] at h
    split at h <;> cases h
    exact .ctime i text _ ‹_›
  | strlen i =>
    simp only [step] at h
    split at h <;> cases h
    exact .strlen i _ ‹_›
  | cut i =>
    simp only [step] at h
    split at h
    · simp only [Option.ite_none_left_eq_some, Option.some.injEq] at h
      obtain ⟨hlen, rfl⟩ := h
      exact .cut i _ _ ‹_› hlen
    · cases h
  | lock i =>
    simp only [step] at h
    split at h
    · obtain ⟨hfree, rfl⟩ := guarded_iff.mp h
      exact .lock i _ ‹_› hfree
    · cases h
  | fprintf i =>
    simp only [step] at h
    split at h <;> cases h
    exact .fprintf i _ ‹_›
  | unlock i =>
    simp only [step] at h
    split at h <;> cases h
    exact .unlock i _ _ ‹_›
  | fclose i =>
    simp only [step] at h
    split at h <;> cases h
    exact .fclose i _ _ ‹_›

section Lines

/-- The call that a thread is in, once its file is open. -/
def current : Pc → Option Call
  | .idle => none
  | .time c => some c
  | .measure c => some c
  | .cut c _ => some c
  | .lock c => some c
  | .print c => some c
  | .unlock c _ => some c
  | .close c _ => some c

/-- What the thread has done, does and is still to do make up its program. -/
def Follows (program : List Call) (th : Thread) : Prop :=
  th.done.map Prod.fst ++ (current th.pc).toList ++ th.todo = program

/-- The calls that have printed a line, with their time stamps. -/
def Thread.printed (th : Thread) : List (Call × Bytes) :=
  th.done.filterMap (fun d => d.2.map (d.1, ·))

/-- The lines that were closed into one file, in order. -/
def lines (closed : List (Fin n × (Call × Bytes))) (path : Bytes) : Bytes :=
  ((closed.filter (fun e => e.2.1.logFile = path)).map (fun e => line e.2.1 e.2.2)).flatten

structure Kept (programs : Fin n → List Call) (initial : Bytes → Bytes) (s : State n) : Prop where
  files : ∀ path, s.files path = initial path ++ lines s.closed path
  threads : ∀ i, Follows (programs i) (s.threads i)
  order : ∀ i, history s.closed i = (s.threads i).printed

variable {programs : Fin n → List Call} {initial : Bytes → Bytes} {s t : State n}

@[simp] theorem setThread_self (s : State n) (i : Fin n) (th : Thread) :
    (s.setThread i th).threads i = th := by
  simp [State.setThread]

theorem setThread_other (s : State n) {i j : Fin n} (th : Thread) (h : j ≠ i) :
    (s.setThread i th).threads j = s.threads j := by
  simp [State.setThread, h]

theorem forall_setThread {P : Fin n → Thread → Prop} (h : ∀ j, P j (s.threads j)) {i : Fin n}
    {th : Thread} (hi : P i th) (j : Fin n) : P j ((s.setThread i th).threads j) := by
  by_cases hj : j = i
  · subst hj
    rwa [setThread_self]
  · rw [setThread_other s th hj]
    exact h j

theorem Kept.goto (h : Kept programs initial s) (i : Fin n) (pc : Pc)
    (hpc : current pc = current (s.threads i).pc) : Kept programs initial (s.goto i pc) where
  files := h.files
  threads := forall_setThread h.threads (by rw [Follows, hpc]; exact h.threads i)
  order := forall_setThread (P := fun j th => history s.closed j = th.printed) h.order (h.order i)

theorem kept_begin (h : Kept programs initial s) (i : Fin n) (c : Call) (cs : List Call) (ok : Bool)
    (hpc : (s.threads i).pc = .idle) (htodo : (s.threads i).todo = c::cs) :
    Kept programs initial (s.setThread i ((s.threads i).begin c cs ok)) where
  files := h.files
  threads := forall_setThread h.threads (by
    have hi := h.threads i
    rw [Follows, hpc, htodo] at hi
    cases ok <;> simpa [Follows, Thread.begin, current] using hi)
  order := forall_setThread (P := fun j th => history s.closed j = th.printed) h.order (by
    rw [h.order i]
    cases ok <;> simp [Thread.printed, Thread.begin])

theorem lines_append (closed : List (Fin n × (Call × Bytes))) (i : Fin n) (c : Call)
    (stamp path : Bytes) : lines (closed ++ [(i, (c, stamp))]) path =
      lines closed path ++ if c.logFile = path then line c stamp else [] := by
  by_cases hc : c.logFile = path
  · simp [lines, List.filter_append, hc]
  · simp [lines, List.filter_append, hc]

theorem kept_close (h : Kept programs initial s) (i : Fin n) (c : Call) (stamp : Bytes)
    (hpc : (s.threads i).pc = .close c stamp) :
    Kept programs initial ({ s with
      files := Function.update s.files c.logFile (s.files c.logFile ++ line c stamp)
      closed := s.closed ++ [(i, (c, stamp))] }.setThread i ((s.threads i).finish c stamp)) where
  files path := by
    show Function.update s.files c.logFile _ path = _
    rw [show (State.setThread _ i _).closed = s.closed ++ [(i, (c, stamp))] from rfl, lines_append,
      ← List.append_assoc, ← h.files path]
    by_cases hpath : c.logFile = path
    · subst hpath
      simp
    · rw [Function.update_of_ne (Ne.symm hpath), if_neg hpath, List.append_nil]
  threads := forall_setThread h.threads (by
    have hi := h.threads i
    rw [Follows, hpc] at hi
    simpa [Follows, Thread.finish, current] using hi)
  order j := by
    show history (s.closed ++ [(i, (c, stamp))]) j = _
    rw [history_append]
    by_cases hj : j = i
    · subst hj
      rw [Function.update_self, setThread_self, h.order j]
      simp [Thread.printed, Thread.finish]
    · rw [Function.update_of_ne hj, setThread_other _ _ hj]
      exact h.order j

theorem kept_step {a : Act n} (h : Kept programs initial s) (hstep : step a s = some t) :
    Kept programs initial t := by
  cases step_move hstep with
  | fopen i ok c cs hpc htodo => exact kept_begin h i c cs ok hpc htodo
  | ctime i text c hpc =>
    have hnext := h.goto i (.measure c) (by rw [hpc]; rfl)
    exact ⟨hnext.files, hnext.threads, hnext.order⟩
  | strlen i c hpc => exact h.goto i _ (by rw [hpc]; rfl)
  | cut i c len hpc hlen =>
    have hnext := h.goto i (.lock c) (by rw [hpc]; rfl)
    exact ⟨hnext.files, hnext.threads, hnext.order⟩
  | lock i c hpc hfree =>
    have hnext := h.goto i (.print c) (by rw [hpc]; rfl)
    exact ⟨hnext.files, hnext.threads, hnext.order⟩
  | fprintf i c hpc => exact h.goto i _ (by rw [hpc]; rfl)
  | unlock i c stamp hpc =>
    have hnext := h.goto i (.close c stamp) (by rw [hpc]; rfl)
    exact ⟨hnext.files, hnext.threads, hnext.order⟩
  | fclose i c stamp hpc => exact kept_close h i c stamp hpc

end Lines

section Stamps

variable {s t : State n}

/-- The beginning of a text that `ctime` was to return. -/
def Dates (times : List Bytes) (stamp : Bytes) : Prop := ∃ text ∈ times, stamp <+: text

/-- From its `ctime` on a thread finds such a beginning in the array. -/
def Dated (times : List Bytes) (timestamp : Bytes) : Pc → Prop
  | .measure _ => Dates times timestamp
  | .cut _ _ => Dates times timestamp
  | .lock _ => Dates times timestamp
  | .print _ => Dates times timestamp
  | .unlock _ stamp => Dates times stamp
  | .close _ stamp => Dates times stamp
  | _ => True

structure Stamped (s : State n) : Prop where
  threads : ∀ i, Dated s.times s.timestamp (s.threads i).pc
  closed : ∀ e ∈ s.closed, Dates s.times e.2.2

theorem Dated.mono {times times' : List Bytes} {stamp stamp' : Bytes} {pc : Pc}
    (hstamp : Dates times stamp → Dates times' stamp')
    (htimes : ∀ st, Dates times st → Dates times' st) (h : Dated times stamp pc) :
    Dated times' stamp' pc := by
  cases pc with
  | idle => trivial
  | time c => trivial
  | unlock c st => exact htimes st h
  | close c st => exact htimes st h
  | _ => exact hstamp h

theorem Stamped.goto (h : Stamped s) (i : Fin n) (pc : Pc) (hpc : Dated s.times s.timestamp pc) :
    Stamped (s.goto i pc) where
  threads := forall_setThread (P := fun _ th => Dated s.times s.timestamp th.pc) h.threads hpc
  closed := h.closed

theorem stamped_step {a : Act n} (h : Stamped s) (hstep : step a s = some t) : Stamped t := by
  cases step_move hstep with
  | fopen i ok c cs hpc htodo =>
    refine ⟨forall_setThread (P := fun _ th => Dated s.times s.timestamp th.pc) h.threads ?_,
      h.closed⟩
    cases ok <;> trivial
  | ctime i text c hpc =>
    have hmore (stamp : Bytes) : Dates s.times stamp → Dates (text::s.times) stamp :=
      fun ⟨old, hold, hprefix⟩ => ⟨old, List.mem_cons_of_mem _ hold, hprefix⟩
    have hnew : Dates (text::s.times) text := ⟨text, List.mem_cons_self, List.prefix_rfl⟩
    have hbefore : Stamped { s with timestamp := text, times := text::s.times } :=
      ⟨fun j => (h.threads j).mono (fun _ => hnew) hmore, fun e he => hmore _ (h.closed e he)⟩
    exact hbefore.goto i _ hnew
  | strlen i c hpc =>
    have hi := h.threads i
    rw [hpc] at hi
    exact h.goto i _ hi
  | cut i c len hpc hlen =>
    have hi := h.threads i
    rw [hpc] at hi
    have hless (stamp : Bytes) : Dates s.times stamp → Dates s.times (stamp.take (len-1)) :=
      fun ⟨text, htext, hprefix⟩ => ⟨text, htext, (List.take_prefix _ _).trans hprefix⟩
    have hbefore : Stamped { s with timestamp := s.timestamp.take (len-1) } :=
      ⟨fun j => (h.threads j).mono (hless _) (fun _ => id), h.closed⟩
    exact hbefore.goto i _ (hless _ hi)
  | lock i c hpc hfree =>
    have hi := h.threads i
    rw [hpc] at hi
    have hnext := h.goto i (.print c) hi
    exact ⟨hnext.threads, hnext.closed⟩
  | fprintf i c hpc =>
    have hi := h.threads i
    rw [hpc] at hi
    exact h.goto i _ hi
  | unlock i c stamp hpc =>
    have hi := h.threads i
    rw [hpc] at hi
    have hnext := h.goto i (.close c stamp) hi
    exact ⟨hnext.threads, hnext.closed⟩
  | fclose i c stamp hpc =>
    have hi := h.threads i
    rw [hpc] at hi
    refine ⟨forall_setThread (P := fun _ th => Dated s.times s.timestamp th.pc) h.threads trivial,
      fun e he => ?_⟩
    rcases List.mem_append.mp he with he | he
    · exact h.closed e he
    · obtain rfl := List.mem_singleton.mp he
      exact hi

/-- Whatever the interleaving, each log file is what it was and then whole lines,
in the order of the `fclose`; the lines of a thread are those of its calls whose
`fopen` succeeded, in order, each with its own message and with the beginning of
some time, though not always of the time of the call. -/
theorem log_lines_whole (programs : Fin n → List Call) (initial : Bytes → Bytes)
    (as : List (Act n)) (t : State n) (h : run step as (start programs initial) = some t) :
    (∀ path, t.files path = initial path ++ lines t.closed path) ∧
      (∀ i, history t.closed i = (t.threads i).printed ∧ Follows (programs i) (t.threads i)) ∧
      ∀ e ∈ t.closed, Dates t.times e.2.2 := by
  have hkept := run_invariant step (Kept programs initial) (fun a u v hu hv => kept_step hu hv)
    as (start programs initial) t
    ⟨fun path => (List.append_nil _).symm, fun i => rfl, fun i => rfl⟩ h
  have hstamped := run_invariant step Stamped (fun a u v hu hv => stamped_step hu hv) as
    (start programs initial) t ⟨fun i => trivial, fun e he => absurd he List.not_mem_nil⟩ h
  exact ⟨hkept.files, fun i => ⟨hkept.order i, hkept.threads i⟩, hstamped.closed⟩

/-- The thread is between its `ctime` and its `fprintf`. -/
def Between : Pc → Prop
  | .measure _ => True
  | .cut _ _ => True
  | .lock _ => True
  | .print _ => True
  | _ => False

instance (pc : Pc) : Decidable (Between pc) := by
  cases pc <;> first | exact isTrue trivial | exact isFalse id

/-- `ctime` is called by no thread while another one still uses its own time. -/
def Apart (a : Act n) (s : State n) : Prop :=
  match a with
  | .ctime i _ => ∀ j, j ≠ i → ¬ Between (s.threads j).pc
  | _ => True

instance (a : Act n) (s : State n) : Decidable (Apart a s) := by
  unfold Apart
  split <;> infer_instance

/-- What `ctime` returned without its newline. -/
def Full (times : List Bytes) (stamp : Bytes) : Prop := ∃ text ∈ times, stamp = text.dropLast

/-- What a thread finds in the array when it is the only one to use it. -/
def Fresh (times : List Bytes) (timestamp : Bytes) : Pc → Prop
  | .measure _ => timestamp ∈ times
  | .cut _ len => timestamp ∈ times ∧ len = timestamp.length
  | .lock _ => Full times timestamp
  | .print _ => Full times timestamp
  | .unlock _ stamp => Full times stamp
  | .close _ stamp => Full times stamp
  | _ => True

structure Alone (s : State n) : Prop where
  one : ∀ i j, Between (s.threads i).pc → Between (s.threads j).pc → i = j
  fresh : ∀ i, Fresh s.times s.timestamp (s.threads i).pc
  closed : ∀ e ∈ s.closed, Full s.times e.2.2

theorem Fresh.outside {times times' : List Bytes} {stamp stamp' : Bytes} {pc : Pc}
    (hout : ¬ Between pc) (hfull : ∀ st, Full times st → Full times' st)
    (h : Fresh times stamp pc) : Fresh times' stamp' pc := by
  cases pc with
  | idle => trivial
  | time c => trivial
  | unlock c st => exact hfull st h
  | close c st => exact hfull st h
  | _ => exact absurd trivial hout

theorem between_setThread {i : Fin n} {th : Thread}
    (hone : ∀ j k, Between (s.threads j).pc → Between (s.threads k).pc → j = k)
    (hth : Between th.pc → ∀ j, j ≠ i → ¬ Between (s.threads j).pc) (j k : Fin n)
    (hj : Between ((s.setThread i th).threads j).pc)
    (hk : Between ((s.setThread i th).threads k).pc) : j = k := by
  by_cases hji : j = i
  · subst hji
    rw [setThread_self] at hj
    by_contra hne
    rw [setThread_other s th (Ne.symm hne)] at hk
    exact hth hj k (Ne.symm hne) hk
  · rw [setThread_other s th hji] at hj
    by_cases hki : k = i
    · subst hki
      rw [setThread_self] at hk
      exact absurd hj (hth hk j hji)
    · rw [setThread_other s th hki] at hk
      exact hone j k hj hk

theorem Alone.others (h : Alone s) {i : Fin n} (hi : Between (s.threads i).pc) (j : Fin n)
    (hj : j ≠ i) : ¬ Between (s.threads j).pc := fun hb => hj (h.one j i hb hi)

theorem Alone.goto (h : Alone s) (i : Fin n) (pc : Pc)
    (hpc : Between pc → Between (s.threads i).pc) (hfresh : Fresh s.times s.timestamp pc) :
    Alone (s.goto i pc) where
  one := between_setThread h.one (fun hb => h.others (hpc hb))
  fresh := forall_setThread (P := fun _ th => Fresh s.times s.timestamp th.pc) h.fresh hfresh
  closed := h.closed

theorem Alone.change (h : Alone s) {i : Fin n} (hothers : ∀ j, j ≠ i → ¬ Between (s.threads j).pc)
    {pc : Pc} {times : List Bytes} {stamp : Bytes} (hmore : ∀ st, Full s.times st → Full times st)
    (hfresh : Fresh times stamp pc) :
    Alone ({ s with timestamp := stamp, times := times }.goto i pc) where
  one := between_setThread (s := { s with timestamp := stamp, times := times }) h.one
    (fun _ => hothers)
  fresh j := by
    by_cases hj : j = i
    · subst hj
      rw [State.goto, setThread_self]
      exact hfresh
    · rw [State.goto, setThread_other _ _ hj]
      exact (h.fresh j).outside (hothers j hj) hmore
  closed e he := hmore _ (h.closed e he)

theorem alone_step {a : Act n} (h : Alone s) (ha : Apart a s) (hstep : step a s = some t) :
    Alone t := by
  cases step_move hstep with
  | fopen i ok c cs hpc htodo =>
    refine ⟨between_setThread h.one (fun hb => ?_), forall_setThread
      (P := fun _ th => Fresh s.times s.timestamp th.pc) h.fresh ?_, h.closed⟩
    · cases ok <;> exact hb.elim
    · cases ok <;> trivial
  | ctime i text c hpc =>
    exact h.change ha (fun st ⟨old, hold, hst⟩ => ⟨old, List.mem_cons_of_mem _ hold, hst⟩)
      List.mem_cons_self
  | strlen i c hpc =>
    have hi := h.fresh i
    rw [hpc] at hi
    exact h.goto i _ (fun _ => by rw [hpc]; trivial) ⟨hi, rfl⟩
  | cut i c len hpc hlen =>
    have hi := h.fresh i
    rw [hpc] at hi
    obtain ⟨hmem, rfl⟩ := hi
    exact h.change (h.others (by rw [hpc]; trivial)) (fun _ => id)
      ⟨s.timestamp, hmem, List.dropLast_eq_take.symm⟩
  | lock i c hpc hfree =>
    have hi := h.fresh i
    rw [hpc] at hi
    have hnext := h.goto i (.print c) (fun _ => by rw [hpc]; trivial) hi
    exact ⟨hnext.one, hnext.fresh, hnext.closed⟩
  | fprintf i c hpc =>
    have hi := h.fresh i
    rw [hpc] at hi
    exact h.goto i _ (fun hb => hb.elim) hi
  | unlock i c stamp hpc =>
    have hi := h.fresh i
    rw [hpc] at hi
    have hnext := h.goto i (.close c stamp) (fun hb => hb.elim) hi
    exact ⟨hnext.one, hnext.fresh, hnext.closed⟩
  | fclose i c stamp hpc =>
    have hi := h.fresh i
    rw [hpc] at hi
    refine ⟨between_setThread h.one (fun hb => hb.elim), forall_setThread
      (P := fun _ th => Fresh s.times s.timestamp th.pc) h.fresh trivial, fun e he => ?_⟩
    rcases List.mem_append.mp he with he | he
    · exact h.closed e he
    · obtain rfl := List.mem_singleton.mp he
      exact hi

/-- When no thread calls `ctime` between another one's `ctime` and `fprintf`,
every line has a whole time. -/
theorem stamps_whole (programs : Fin n → List Call) (initial : Bytes → Bytes)
    (as : List (Act n)) (t : State n) (hmeets : Meets step Apart as (start programs initial))
    (h : run step as (start programs initial) = some t) :
    ∀ e ∈ t.closed, Full t.times e.2.2 := by
  have halone := guarded_invariant step Apart Alone (fun a u v hu ha hv => alone_step hu ha hv)
    as (start programs initial) t
    ⟨fun i j hi => hi.elim, fun i => trivial, fun e he => absurd he List.not_mem_nil⟩ hmeets h
  exact halone.closed

end Stamps

section Runs

/-- Two handlers that log a file in the same directory. -/
def twoCalls : Fin 2 → List Call
  | 0 => [⟨ascii "d/logfile.txt", ascii "a"⟩]
  | 1 => [⟨ascii "d/logfile.txt", ascii "b"⟩]

/-- The second handler's time replaces the first one's and is cut for both. -/
def sharedTime (i j : Fin n) : List (Act n) :=
  [.fopen i true, .fopen j true, .ctime i (ascii "12:00\n"), .ctime j (ascii "12:01\n"), .strlen i,
    .cut i, .strlen j, .cut j, .lock j, .fprintf j, .unlock j, .lock i, .fprintf i, .unlock i,
    .fclose i, .fclose j]

theorem log_lines_whole_shared : ∃ t,
    run step (sharedTime 0 1) (start twoCalls (fun _ => [])) = some t ∧
      t.closed = [(0, ⟨ascii "d/logfile.txt", ascii "a"⟩, ascii "12:0"),
        (1, ⟨ascii "d/logfile.txt", ascii "b"⟩, ascii "12:0")] ∧
      (∀ path, t.files path = lines t.closed path) ∧ ∀ e ∈ t.closed, Dates t.times e.2.2 := by
  have hends : (run step (sharedTime 0 1) (start twoCalls (fun _ => []))).any (fun t =>
      t.closed = [(0, ⟨ascii "d/logfile.txt", ascii "a"⟩, ascii "12:0"),
        (1, ⟨ascii "d/logfile.txt", ascii "b"⟩, ascii "12:0")]) = true := by
    decide
  obtain ⟨t, ht, hat⟩ := (Option.any_eq_true _ _).mp hends
  obtain ⟨hfiles, -, hdates⟩ := log_lines_whole twoCalls (fun _ => []) (sharedTime 0 1) t ht
  exact ⟨t, ht, of_decide_eq_true hat, hfiles, hdates⟩

/-- The second handler takes its time when the first one has printed. -/
def oneAfterTheOther (i j : Fin n) : List (Act n) :=
  [.fopen i true, .fopen j true, .ctime i (ascii "12:00\n"), .strlen i, .cut i, .lock i, .fprintf i,
    .ctime j (ascii "12:01\n"), .strlen j, .unlock i, .cut j, .lock j, .fprintf j, .unlock j,
    .fclose j, .fclose i]

theorem stamps_whole_one_after_the_other : ∃ t,
    run step (oneAfterTheOther 0 1) (start twoCalls (fun _ => [])) = some t ∧
      t.closed.length = 2 ∧ ∀ e ∈ t.closed, Full t.times e.2.2 := by
  have hends : (run step (oneAfterTheOther 0 1) (start twoCalls (fun _ => []))).any (fun t =>
      t.closed.length = 2) = true := by
    decide
  obtain ⟨t, ht, hat⟩ := (Option.any_eq_true _ _).mp hends
  exact ⟨t, ht, of_decide_eq_true hat,
    stamps_whole twoCalls (fun _ => []) (oneAfterTheOther 0 1) t (by decide) ht⟩

end Runs

end CSE344.BoxStamps
