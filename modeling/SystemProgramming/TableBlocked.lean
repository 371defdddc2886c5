import Mathlib.Algebra.Order.BigOperators.Group.Finset
import SystemProgramming.RankedRun
import SystemProgramming.TableExclusion

/-!
# Which requests can still finish when children have died

With requests to read and to write alone the table keeps its names, and a child
that waits polls two counters. A child that dies in a section leaves its counter
raised, and one that comes to an entry whose descriptor it has not open dies there.
The states of the others tell which of them that holds up for ever.
-/

set_option autoImplicit false

namespace CSE344.TableBlocked
open CString Tally TableMachine TableInvariant TableSteps TableIdentity TableExclusion
open TransitionRun RankedRun

variable {n : ℕ}

/-- The names before `i` are not the one that is looked up. -/
def Passed (s : State n) (file : Bytes) (i : ℤ) : Prop :=
  ∀ j, 0 ≤ j → j < i → (s.table j).name ≠ file

/-- Where a child that reads or writes can be. -/
def Placed (s : State n) (c : Child) : Prop :=
  match c.pc with
  | .look i => Passed s c.call.file i
  | .compare i => i < s.numFiles ∧ Passed s c.call.file i
  | .hold _ .fetchFd => False
  | .hold _ .closeFd => False
  | .hold _ .unlinkName => False
  | .hold _ _ => True
  | .done => True
  | _ => False

def ReadsOrWrites (c : Call) : Prop := c.operation = .readFile ∨ c.operation = .writeFile

instance (c : Call) : Decidable (ReadsOrWrites c) := inferInstanceAs (Decidable (_ ∨ _))

structure Calm (s : State n) : Prop where
  consistent : Consistent s
  calls : ∀ p, ReadsOrWrites (s.children p).call
  placed : ∀ p, Placed s (s.children p)
  room : s.numFiles ≤ maxFiles
  fallen : ∀ p, (s.children p).alive = false → (s.children p).pc ≠ .done

/-- The moves of such a child. -/
inductive Goes (s : State n) (c : Call) : Pc → Pc → Prop
  | next (i : ℤ) (h : i < s.numFiles) : Goes s c (.look i) (.compare i)
  | missing (i : ℤ) (h : ¬ i < s.numFiles) : Goes s c (.look i) .done
  | found (i : ℤ) (h : (s.table i).name = c.file) : Goes s c (.compare i) (c.found i)
  | other (i : ℤ) (h : (s.table i).name ≠ c.file) : Goes s c (.compare i) (.look (i+1))
  | hold (k value : ℤ) (st : Hold) :
      Goes s c (.hold k st) (holdStep c value k (s.table k) st).2

/-- An access of the child `p` that leads to `pc`, with the names and the
descriptors as they were. -/
structure Moves (s t : State n) (p : Fin n) (pc : Pc) : Prop where
  goes : Goes s (s.children p).call (s.children p).pc pc
  sound : ¬ (s.children p).Crashes s.table
  alive : (s.children p).alive = true
  children : t.children = (s.goto p pc).children
  numFiles : t.numFiles = s.numFiles
  names : ∀ i, (t.table i).name = (s.table i).name
  fds : ∀ i, (t.table i).fd = (s.table i).fd

variable {s t : State n}

theorem store_same {β : Type*} (f : Entry → β) (s : State n) (k : ℤ) (e : Entry)
    (h : f e = f (s.table k)) (i : ℤ) : f ((s.store k e).table i) = f (s.table i) := by
  by_cases hi : i = k
  · subst hi
    simpa [State.store] using h
  · simp [State.store, hi]

theorem holdStep_fd (c : Call) (v k : ℤ) (e : Entry) (st : Hold) :
    (holdStep c v k e st).1.fd = e.fd := by
  cases st <;> rfl

theorem calm_access (hs : Calm s) {a : Act n} (halive : (s.children a.child).alive = true)
    (hsound : ¬ (s.children a.child).Crashes s.table) (hstep : access a s = some t) :
    ∃ pc, Moves s t a.child pc := by
  have hplaced := hs.placed a.child
  have hcall := hs.calls a.child
  unfold access at hstep
  dsimp only at hstep
  cases hpc : (s.children a.child).pc <;> rw [hpc] at hstep <;>
    simp only [Placed, hpc] at hplaced
  case look i =>
    cases hstep
    refine ⟨_, ?_, hsound, halive, rfl, rfl, fun _ => rfl, fun _ => rfl⟩
    rw [hpc]
    split_ifs with hi
    · exact .next i hi
    · have hmissing : (s.children a.child).call.missing = .done := by
        rcases hcall with hop | hop <;> simp [Call.missing, hop]
      rw [hmissing]
      exact .missing i hi
  case compare i =>
    cases hstep
    refine ⟨_, ?_, hsound, halive, rfl, rfl, fun _ => rfl, fun _ => rfl⟩
    rw [hpc]
    split_ifs with hname
    · exact .found i hname
    · exact .other i hname
  case hold k st =>
    cases hstep
    refine ⟨_, ?_, hsound, halive, rfl, rfl,
      store_same Entry.name s k _ (holdStep_spec _ _ k _ st).name,
      store_same Entry.fd s k _ (holdStep_fd _ _ k _ st)⟩
    rw [hpc]
    exact .hold k a.value st
  case done => cases hstep

theorem calm_moves (hs : Calm s) {a : Act n} (hstep : step a s = some t) :
    (s.children a.child).Crashes s.table ∧ t = s.kill a.child ∨ ∃ pc, Moves s t a.child pc := by
  obtain ⟨⟨halive, -⟩, hcrash | ⟨hsound, haccess⟩⟩ := step_cases hstep
  · exact .inl hcrash
  · exact .inr (calm_access hs halive hsound haccess)

theorem calm_inside (hs : Calm s) (p : Fin n) : (s.children p).pc.Inside := by
  have hplaced := hs.placed p
  have hroom := hs.room
  intro j hj
  cases hpc : (s.children p).pc <;> rw [hpc] at hj <;> simp only [Placed, hpc] at hplaced
  case compare i =>
    cases hj
    exact ⟨hs.consistent.looking p _ (.inr hpc), by omega⟩
  case hold k st =>
    cases hj
    obtain ⟨hk, hkn, -⟩ := hs.consistent.named p _ st hpc
    exact ⟨hk, by omega⟩
  all_goals cases hj

theorem calm_steps (hs : Calm s) {p : Fin n} (halive : (s.children p).alive = true)
    (hp : (s.children p).pc ≠ .done) : ∃ t, step ⟨p, 0⟩ s = some t := by
  have hplaced := hs.placed p
  have haccess : ∃ t, access ⟨p, 0⟩ s = some t := by
    cases hpc : (s.children p).pc <;> simp only [Placed, hpc] at hplaced
    case done => exact absurd hpc hp
    all_goals exact ⟨_, by simp only [access, hpc]; rfl⟩
  unfold step
  dsimp only
  rw [if_pos ⟨halive, calm_inside hs p⟩]
  split_ifs
  · exact ⟨_, rfl⟩
  · exact haccess

theorem calm_steady (hs : Calm s) (a : Act n) : Steady a s := by
  have hplaced := hs.placed a.child
  unfold Steady
  split
  · rename_i i hpc
    simp only [Placed, hpc] at hplaced
    refine fun _ _ => ⟨hplaced.1, fun q hq => ?_⟩
    have hother := hs.placed q
    cases hpcq : (s.children q).pc <;> simp only [Placed, hpcq] at hother <;>
      simp [hpcq, Shifts] at hq
  · rename_i k hpc
    simp [Placed, hpc] at hplaced
  · rename_i hpc
    simp [Placed, hpc] at hplaced
  · trivial

theorem placed_same (hnum : t.numFiles = s.numFiles)
    (hnames : ∀ i, (t.table i).name = (s.table i).name) (c : Child) :
    Placed t c ↔ Placed s c := by
  simp only [Placed, Passed, hnum, hnames]

theorem goes_placed {c : Child} (hcall : ReadsOrWrites c.call) (hplaced : Placed s c)
    {pc : Pc} (h : Goes s c.call c.pc pc) : Placed s { c with pc := pc } := by
  obtain ⟨call, old⟩ := c
  cases h with
  | next i h => exact ⟨h, hplaced⟩
  | missing i h => trivial
  | found i h =>
    rcases hcall with hop | hop <;> simp only at hop <;> simp [Placed, Call.found, hop]
  | other i h =>
    intro j hj hji
    by_cases heq : j = i
    · subst heq
      exact h
    · exact hplaced.2 j hj (by omega)
  | hold k value st =>
    cases st with
    | writerInc =>
      simp only [Placed, holdStep, Call.enter]
      rcases hcall with hop | hop <;> simp only at hop <;> simp [hop] <;> split_ifs <;> trivial
    | writerDec =>
      simp only [Placed, holdStep, Call.leave]
      rcases hcall with hop | hop <;> simp only at hop <;> simp [hop]
    | testReaders =>
      simp only [Placed, holdStep]
      split_ifs <;> trivial
    | testWriters =>
      simp only [Placed, holdStep]
      split_ifs <;> trivial
    | fetchFd => exact hplaced.elim
    | closeFd => exact hplaced.elim
    | unlinkName => exact hplaced.elim
    | _ => trivial

theorem crashes_hold {c : Child} {table : ℤ → Entry} (h : c.Crashes table) :
    ∃ k st, c.pc = .hold k st := by
  unfold Child.Crashes at h
  split at h
  · exact ⟨_, _, ‹_›⟩
  · exact ⟨_, _, ‹_›⟩
  · exact h.elim

theorem calm_kill (hs : Calm s) {p : Fin n} (hcrash : (s.children p).Crashes s.table) :
    Calm (s.kill p) where
  consistent := hs.consistent.kill p
  calls q := by simpa using hs.calls q
  placed q := by simpa [Placed, Passed] using hs.placed q
  room := hs.room
  fallen q hq := by
    rw [kill_pc]
    by_cases hqp : q = p
    · subst hqp
      obtain ⟨k, st, hpc⟩ := crashes_hold hcrash
      simp [hpc]
    · refine hs.fallen q ?_
      simpa [State.kill, hqp] using hq

theorem calm_step (hs : Calm s) {a : Act n} (hstep : step a s = some t) : Calm t := by
  rcases calm_moves hs hstep with ⟨hcrash, rfl⟩ | ⟨pc, hm⟩
  · exact calm_kill hs hcrash
  refine ⟨step_inv hs.consistent a (calm_steady hs a) hstep, fun p => ?_, fun p => ?_,
    hm.numFiles ▸ hs.room, fun p hp => ?_⟩
  · rw [hm.children, goto_call]
    exact hs.calls p
  · rw [placed_same hm.numFiles hm.names, hm.children]
    by_cases hp : p = a.child
    · subst hp
      rw [goto_self]
      exact goes_placed (hs.calls _) (hs.placed _) hm.goes
    · rw [goto_other s pc hp]
      exact hs.placed p
  · rw [hm.children, goto_alive] at hp
    have hpa : p ≠ a.child := by
      rintro rfl
      rw [hm.alive] at hp
      cases hp
    rw [hm.children, goto_other s pc hpa]
    exact hs.fallen p hp

theorem calm_start (l : Listing) (hroom : l.names.length ≤ maxFiles) (rest : ℤ → Entry)
    (opens : Fin n → ℤ → Bool) (calls : Fin n → Call) (hcalls : ∀ p, ReadsOrWrites (calls p)) :
    Calm (start l rest opens calls) where
  consistent := start_inv l rest opens calls
  calls := hcalls
  placed p j hj hlt := by omega
  room := by simpa [start] using hroom
  fallen p hp := by cases hp

def Occupies (pc : Pc) : Prop := inRead pc = true ∨ inWrite pc = true

/-- The child `q` is in a section that `p` still has to find left. Behind the
test of the readers only the writers count. -/
def Blocks (q p : Child) : Prop :=
  q.call.file = p.call.file ∧ match p.pc with
    | .look _ => p.call.operation = .writeFile ∧ Occupies q.pc
    | .compare _ => p.call.operation = .writeFile ∧ Occupies q.pc
    | .hold _ .testReaders => Occupies q.pc
    | .hold _ .testWriters => inWrite q.pc = true
    | _ => False

theorem Occupies.hold {pc : Pc} (h : Occupies pc) : ∃ k st, pc = .hold k st :=
  h.elim inRead_hold inWrite_hold

/-- While `q` stays where it is, `p` does not get past it. -/
theorem goes_blocked (hs : Calm s) {p q : Fin n} (hb : Blocks (s.children q) (s.children p))
    {pc : Pc} (h : Goes s (s.children p).call (s.children p).pc pc) :
    Blocks (s.children q) { s.children p with pc := pc } := by
  obtain ⟨hfile, hb⟩ := hb
  refine ⟨hfile, ?_⟩
  have hplaced := hs.placed p
  cases hpc : (s.children p).pc <;> rw [hpc] at h hb <;> simp only [Placed, hpc] at hplaced
  case look i =>
    cases h with
    | next i h => exact hb
    | missing i h =>
      -- the lookup cannot end: the entry that `q` holds has the name
      obtain ⟨k, st, hq⟩ := hb.2.hold
      obtain ⟨hk, hkn, hname⟩ := hs.consistent.named q k st hq
      exact absurd (hname.trans hfile) (hplaced k hk (by omega))
  case compare i =>
    cases h with
    | found i h => simpa [Call.found, hb.1] using hb.2
    | other i h => exact hb
  case hold k st =>
    cases h with
    | hold k value st =>
      cases st with
      | testReaders =>
        simp only [holdStep]
        split_ifs with hreaders
        · exact hb
        · have hread := nobody_reads hs.consistent hpc hreaders q hfile
          exact hb.resolve_left (by simp [hread])
      | testWriters =>
        simp only [holdStep]
        split_ifs with hwriters
        · exact .inr hb
        · have hwrite := nobody_writes hs.consistent hpc hwriters q hfile
          simp [hwrite] at hb
      | _ => exact hb.elim
  all_goals exact hb.elim

theorem blocked_step (hs : Calm s) {p q : Fin n} (hb : Blocks (s.children q) (s.children p))
    {a : Act n} (ha : a.child ≠ q) (hstep : step a s = some t) :
    Blocks (t.children q) (t.children p) := by
  rcases calm_moves hs hstep with ⟨-, rfl⟩ | ⟨pc, hm⟩
  · simpa [Blocks] using hb
  rw [hm.children, goto_other s pc (Ne.symm ha)]
  by_cases hp : p = a.child
  · subst hp
    rw [goto_self]
    exact goes_blocked hs hb hm.goes
  · rwa [goto_other s pc hp]

/-- The child has not yet come past `fdopen`. -/
def Early : Pc → Prop
  | .look _ => True
  | .compare _ => True
  | .hold _ .readerInc => True
  | .hold _ .readFd => True
  | .hold _ .testReaders => True
  | .hold _ .testWriters => True
  | .hold _ .writerInc => True
  | .hold _ .streamFd => True
  | _ => False

/-- The child asks for a line of an entry whose descriptor it has not open. -/
def Doomed (s : State n) (c : Child) : Prop :=
  0 < c.call.line ∧ Early c.pc ∧ ∃ k, 0 ≤ k ∧ k < s.numFiles ∧
    (s.table k).name = c.call.file ∧ c.opens (s.table k).fd = false

def Lost (s : State n) (c : Child) : Prop := c.alive = false ∨ Doomed s c

theorem doomed_same (hnum : t.numFiles = s.numFiles)
    (hnames : ∀ i, (t.table i).name = (s.table i).name)
    (hfds : ∀ i, (t.table i).fd = (s.table i).fd) (c : Child) : Doomed t c ↔ Doomed s c := by
  simp only [Doomed, hnum, hnames, hfds]

theorem lost_unfinished (hs : Calm s) {p : Fin n} (h : Lost s (s.children p)) :
    (s.children p).pc ≠ .done := by
  rcases h with h | ⟨-, hearly, -⟩
  · exact hs.fallen p h
  · intro hdone
    rw [hdone] at hearly
    exact hearly

theorem doomed_at (hs : Calm s) {p : Fin n} (h : Doomed s (s.children p)) {k : ℤ} {st : Hold}
    (hpc : (s.children p).pc = .hold k st) : (s.children p).opens (s.table k).fd = false := by
  obtain ⟨-, -, j, hj, hjn, hname, hfd⟩ := h
  have hk := (hs.consistent.named p k st hpc).2.2
  by_cases hjk : j = k
  · exact hjk ▸ hfd
  · exact absurd (hname.trans hk.symm) (hs.consistent.unique hpc hj hjn hjk)

/-- Whoever is doomed stays so until it crashes. -/
theorem goes_doomed (hs : Calm s) {p : Fin n} (h : Doomed s (s.children p))
    (hsound : ¬ (s.children p).Crashes s.table) {pc : Pc}
    (hg : Goes s (s.children p).call (s.children p).pc pc) :
    Doomed s { s.children p with pc := pc } := by
  obtain ⟨hline, hearly, k, hk, hkn, hname, hfd⟩ := id h
  refine ⟨hline, ?_, k, hk, hkn, hname, hfd⟩
  have hplaced := hs.placed p
  have hcall := hs.calls p
  cases hpc : (s.children p).pc <;> rw [hpc] at hg hearly <;> simp only [Placed, hpc] at hplaced
  case look i =>
    cases hg with
    | next i hi => trivial
    | missing i hi => exact absurd hname (hplaced k hk (by omega))
  case compare i =>
    cases hg with
    | found i hi => rcases hcall with hop | hop <;> simp [Call.found, hop, Early]
    | other i hi => trivial
  case hold j st =>
    have hshut := doomed_at hs h hpc
    cases hg with
    | hold j value st =>
      cases st with
      | readFd => exact absurd (by simpa [Child.Crashes, hpc] using ⟨hline, hshut⟩) hsound
      | streamFd => exact absurd (by simpa [Child.Crashes, hpc] using ⟨hline, hshut⟩) hsound
      | testReaders =>
        simp only [holdStep]
        split_ifs <;> trivial
      | testWriters =>
        simp only [holdStep]
        split_ifs <;> trivial
      | writerInc =>
        simp only [holdStep, Call.enter, if_pos hline]
        rcases hcall with hop | hop <;> simp [hop, Early]
      | readerInc => trivial
      | _ => exact hearly.elim
  all_goals exact hearly.elim

theorem lost_step (hs : Calm s) {p : Fin n} (h : Lost s (s.children p)) {a : Act n}
    (hstep : step a s = some t) : Lost t (t.children p) := by
  rcases calm_moves hs hstep with ⟨-, rfl⟩ | ⟨pc, hm⟩
  · by_cases hp : p = a.child
    · subst hp
      exact .inl (by simp [State.kill])
    · simpa [Lost, Doomed, State.kill, hp] using h
  · rw [Lost, doomed_same hm.numFiles hm.names hm.fds, hm.children]
    by_cases hp : p = a.child
    · subst hp
      rw [goto_self]
      exact .inr (goes_doomed hs (h.resolve_left (by simp [hm.alive])) hm.sound hm.goes)
    · rwa [goto_other s pc hp]

theorem goes_early {c : Call} {old pc : Pc} (hg : Goes s c old pc) (h : Early pc) : Early old := by
  cases hg with
  | next i hi => trivial
  | missing i hi => exact h.elim
  | found i hi => trivial
  | other i hi => trivial
  | hold k value st =>
    cases st with
    | readFd => trivial
    | streamFd => trivial
    | readerInc => trivial
    | testReaders => trivial
    | testWriters => trivial
    | writerInc => trivial
    | fetchFd =>
      simp only [holdStep] at h
      split_ifs at h <;> exact h.elim
    | writerDec =>
      simp only [holdStep, Call.leave] at h
      split_ifs at h <;> exact h.elim
    | _ => exact h.elim

theorem crashes_doomed (hs : Calm s) {p : Fin n} (h : (s.children p).Crashes s.table) :
    Doomed s (s.children p) := by
  unfold Child.Crashes at h
  split at h
  · rename_i k hpc
    obtain ⟨hk, hkn, hname⟩ := hs.consistent.named p k _ hpc
    exact ⟨h.1, by rw [hpc]; trivial, k, hk, hkn, hname, h.2⟩
  · rename_i k hpc
    obtain ⟨hk, hkn, hname⟩ := hs.consistent.named p k _ hpc
    exact ⟨h.1, by rw [hpc]; trivial, k, hk, hkn, hname, h.2⟩
  · exact h.elim

/-- How far a child is from the end when it has to wait for nobody. -/
def ahead (numFiles : ℤ) : Pc → ℕ
  | .look i => (2*(numFiles-i)).toNat+10
  | .compare i => (2*(numFiles-i)).toNat+9
  | .hold _ .testReaders => 8
  | .hold _ .testWriters => 7
  | .hold _ .writerInc => 6
  | .hold _ .seekFd => 5
  | .hold _ .streamFd => 4
  | .hold _ .writeFd => 4
  | .hold _ .writerDec => 3
  | .hold _ .readerInc => 3
  | .hold _ .readFd => 2
  | .hold _ .readerDec => 1
  | _ => 0

def rank (s : State n) : ℕ := ∑ p, ahead s.numFiles (s.children p).pc

theorem rank_falls {p : Fin n} {pc : Pc} (hm : Moves s t p pc)
    (h : ahead s.numFiles pc < ahead s.numFiles (s.children p).pc) : rank t < rank s := by
  unfold rank
  rw [hm.children, hm.numFiles]
  refine Finset.sum_lt_sum (fun q _ => ?_) ⟨p, Finset.mem_univ p, by simpa using h⟩
  by_cases hq : q = p
  · subst hq
    simpa using h.le
  · rw [goto_other s pc hq]

def Waits : Pc → Prop
  | .hold _ .testReaders => True
  | .hold _ .testWriters => True
  | _ => False

theorem goes_ahead {c : Child} (hcall : ReadsOrWrites c.call) (hplaced : Placed s c)
    (hwaits : ¬ Waits c.pc) {pc : Pc} (h : Goes s c.call c.pc pc) :
    ahead s.numFiles pc < ahead s.numFiles c.pc := by
  obtain ⟨call, old⟩ := c
  cases h with
  | next i h =>
    simp only [ahead]
    omega
  | missing i h =>
    simp only [ahead]
    omega
  | found i h => rcases hcall with hop | hop <;> simp only at hop <;> simp [Call.found, hop, ahead]
  | other i h =>
    have hlt : i < s.numFiles := hplaced.1
    simp only [ahead]
    omega
  | hold k value st =>
    cases st with
    | writerInc =>
      simp only [holdStep, Call.enter]
      rcases hcall with hop | hop <;> simp only at hop <;> simp [hop] <;> split_ifs <;>
        simp [ahead]
    | writerDec =>
      simp only [holdStep, Call.leave]
      rcases hcall with hop | hop <;> simp only at hop <;> simp [hop, ahead]
    | testReaders => exact absurd trivial hwaits
    | testWriters => exact absurd trivial hwaits
    | fetchFd => exact hplaced.elim
    | closeFd => exact hplaced.elim
    | unlinkName => exact hplaced.elim
    | _ => simp [holdStep, ahead]

theorem blocks_back {q c : Child} (hcall : ReadsOrWrites c.call) {pc : Pc}
    (h : Goes s c.call c.pc pc) (hahead : ahead s.numFiles pc < ahead s.numFiles c.pc)
    (hb : Blocks q { c with pc := pc }) : Blocks q c := by
  obtain ⟨call, old⟩ := c
  obtain ⟨hfile, hb⟩ := hb
  refine ⟨hfile, ?_⟩
  cases h with
  | next i h => exact hb
  | missing i h => exact hb.elim
  | found i h =>
    rcases hcall with hop | hop
    · simp only at hop
      simp [Call.found, hop] at hb
    · refine ⟨hop, ?_⟩
      simp only at hop
      simpa [Call.found, hop] using hb
  | other i h => exact hb
  | hold k value st =>
    cases st with
    | testReaders =>
      simp only [holdStep] at hb
      split_ifs at hb
      · exact hb
      · exact .inr hb
    | testWriters =>
      simp only [holdStep] at hahead hb
      split_ifs at hahead hb
      · simp [ahead] at hahead
      · exact hb.elim
    | writerInc =>
      simp only [holdStep, Call.enter] at hb
      split_ifs at hb <;> exact hb.elim
    | writerDec =>
      simp only [holdStep, Call.leave] at hb
      split_ifs at hb <;> exact hb.elim
    | fetchFd =>
      simp only [holdStep] at hb
      split_ifs at hb <;> exact hb.elim
    | _ => exact hb.elim

theorem nobody_counted {s : State n} (hs : Consistent s) {p : Fin n} {k : ℤ} {st : Hold}
    (hp : (s.children p).pc = .hold k st) {sec : Pc → Bool}
    (hsec : ∀ q, (s.children q).call.file = (s.children p).call.file →
      sec (s.children q).pc = false) :
    tally (inSection sec (s.table k).name) s.children = 0 := by
  obtain ⟨hk, hkn, hname⟩ := hs.named p k st hp
  refine tally_zero _ _ (fun q => ?_)
  by_cases hq : (s.children q).call.file = (s.children p).call.file
  · simp [inSection, hsec q hq]
  · simp [inSection, hname, hq]

/-- What the goal is reached from: no one is lost, and nobody that is dead is in
the way. -/
structure Clear (dead : Fin n → Prop) (s : State n) : Prop where
  calm : Calm s
  safe : ∀ p, ¬ dead p → ¬ Lost s (s.children p)
  free : ∀ p q, ¬ dead p → dead q → ¬ Blocks (s.children q) (s.children p)

def Finished (dead : Fin n → Prop) (s : State n) : Prop :=
  ∀ p, ¬ dead p → (s.children p).pc = .done

section Progress

variable {dead : Fin n → Prop}

theorem clear_move (ho : Clear dead s) {p : Fin n} (hp : ¬ dead p)
    (hdone : (s.children p).pc ≠ .done)
    (hahead : ∀ pc, Goes s (s.children p).call (s.children p).pc pc →
      ahead s.numFiles pc < ahead s.numFiles (s.children p).pc) :
    ∃ a t, ¬ dead a.child ∧ step a s = some t ∧ Clear dead t ∧ rank t < rank s := by
  obtain ⟨halive, hsafe⟩ := not_or.mp (ho.safe p hp)
  obtain ⟨t, hstep⟩ := calm_steps ho.calm (by simpa using halive) hdone
  obtain ⟨pc, hm⟩ := (calm_moves ho.calm hstep).resolve_left
    (fun hcrash => hsafe (crashes_doomed ho.calm hcrash.1))
  have hfalls := hahead pc hm.goes
  refine ⟨⟨p, 0⟩, t, hp, hstep,
    ⟨calm_step ho.calm hstep, fun p' hp' hlost => ?_, fun p' q hp' hq hb => ?_⟩,
    rank_falls hm hfalls⟩
  · rw [Lost, doomed_same hm.numFiles hm.names hm.fds, hm.children, goto_alive] at hlost
    refine ho.safe p' hp' (hlost.imp id fun hdoomed => ?_)
    by_cases hpp : p' = p
    · subst hpp
      rw [goto_self] at hdoomed
      exact ⟨hdoomed.1, goes_early hm.goes hdoomed.2.1, hdoomed.2.2⟩
    · rwa [goto_other s pc hpp] at hdoomed
  · have hqp : q ≠ p := by
      rintro rfl
      exact hp hq
    rw [hm.children, goto_other s pc hqp] at hb
    by_cases hpp : p' = p
    · subst hpp
      rw [goto_self] at hb
      exact ho.free p' q hp hq (blocks_back (ho.calm.calls p') hm.goes hfalls hb)
    · rw [goto_other s pc hpp] at hb
      exact ho.free p' q hp' hq hb

/-- Nobody is in a section of the file when whoever is alive has finished or
polls. -/
theorem nobody_inside {sec : Pc → Bool}
    (hsec : ∀ pc, sec pc = true → ¬ Waits pc ∧ pc ≠ .done)
    (hidle : ∀ q, ¬ dead q → (s.children q).pc = .done ∨ Waits (s.children q).pc)
    {p : Fin n} (hdead : ∀ q, dead q → (s.children q).call.file = (s.children p).call.file →
      sec (s.children q).pc = false) (q : Fin n)
    (hfile : (s.children q).call.file = (s.children p).call.file) :
    sec (s.children q).pc = false := by
  by_cases hq : dead q
  · exact hdead q hq hfile
  · by_contra hin
    obtain ⟨hwaits, hdone⟩ := hsec _ (by simpa using hin)
    exact (hidle q hq).elim hdone hwaits

theorem inRead_busy {pc : Pc} (h : inRead pc = true) : ¬ Waits pc ∧ pc ≠ .done := by
  unfold inRead at h
  split at h
  · exact ⟨id, by simp⟩
  · exact ⟨id, by simp⟩
  · cases h

theorem inWrite_busy {pc : Pc} (h : inWrite pc = true) : ¬ Waits pc ∧ pc ≠ .done := by
  unfold inWrite at h
  split at h
  · exact ⟨id, by simp⟩
  · exact ⟨id, by simp⟩
  · exact ⟨id, by simp⟩
  · exact ⟨id, by simp⟩
  · exact ⟨id, by simp⟩
  · cases h

theorem writers_left {p : Fin n} {k : ℤ} (hpc : (s.children p).pc = .hold k .testWriters)
    (hzero : (s.table k).writers = 0) (pc : Pc)
    (h : Goes s (s.children p).call (s.children p).pc pc) :
    ahead s.numFiles pc < ahead s.numFiles (s.children p).pc := by
  rw [hpc] at h ⊢
  cases h with
  | hold k value st => simp [holdStep, hzero, ahead]

theorem readers_left {p : Fin n} {k : ℤ} (hpc : (s.children p).pc = .hold k .testReaders)
    (hzero : (s.table k).readers = 0) (pc : Pc)
    (h : Goes s (s.children p).call (s.children p).pc pc) :
    ahead s.numFiles pc < ahead s.numFiles (s.children p).pc := by
  rw [hpc] at h ⊢
  cases h with
  | hold k value st => simp [holdStep, hzero, ahead]

theorem clear_steps (ho : Clear dead s) (hnot : ¬ Finished dead s) :
    ∃ a t, ¬ dead a.child ∧ step a s = some t ∧ Clear dead t ∧ rank t < rank s := by
  have hconsistent := ho.calm.consistent
  by_cases hidle : ∀ q, ¬ dead q → (s.children q).pc = .done ∨ Waits (s.children q).pc
  · by_cases hsecond : ∃ p k, ¬ dead p ∧ (s.children p).pc = .hold k .testWriters
    · obtain ⟨p, k, hp, hpc⟩ := hsecond
      obtain ⟨hk, hkn, -⟩ := hconsistent.named p k _ hpc
      have hempty := nobody_inside (fun pc => inWrite_busy) hidle (p := p) (fun q hq hfile => by
        by_contra hin
        exact ho.free p q hp hq ⟨hfile, by simpa [hpc] using hin⟩)
      have hzero := (hconsistent.counted k hk hkn).2.trans (nobody_counted hconsistent hpc hempty)
      exact clear_move ho hp (by simp [hpc]) (writers_left hpc hzero)
    · obtain ⟨p, hp⟩ := not_forall.mp hnot
      obtain ⟨hp, hdone⟩ := Classical.not_imp.mp hp
      have hpolls : ∃ k, (s.children p).pc = .hold k .testReaders := by
        have hwaits := (hidle p hp).resolve_left hdone
        unfold Waits at hwaits
        split at hwaits
        · exact ⟨_, ‹_›⟩
        · exact absurd ⟨p, _, hp, ‹_›⟩ hsecond
        · exact hwaits.elim
      obtain ⟨k, hpc⟩ := hpolls
      obtain ⟨hk, hkn, -⟩ := hconsistent.named p k _ hpc
      have hempty := nobody_inside (fun pc => inRead_busy) hidle (p := p) (fun q hq hfile => by
        by_contra hin
        refine ho.free p q hp hq ⟨hfile, ?_⟩
        rw [hpc]
        exact .inl (by simpa using hin))
      have hzero := (hconsistent.counted k hk hkn).1.trans (nobody_counted hconsistent hpc hempty)
      exact clear_move ho hp (by simp [hpc]) (readers_left hpc hzero)
  · simp only [not_forall, not_or] at hidle
    obtain ⟨p, hp, hdone, hwaits⟩ := hidle
    exact clear_move ho hp hdone
      (fun pc hg => goes_ahead (ho.calm.calls p) (ho.calm.placed p) hwaits hg)

end Progress

theorem blocks_unfinished {q p : Child} (h : Blocks q p) : p.pc ≠ .done := by
  intro hdone
  simp [Blocks, hdone] at h

/-- Of requests that read and write, whatever the interleaving so far: if some
children are never scheduled again, the others can all finish exactly when none
of them is lost or still has to pass a test that one of the dead keeps from
succeeding. -/
theorem finish_iff (l : Listing) (hroom : l.names.length ≤ maxFiles) (rest : ℤ → Entry)
    (opens : Fin n → ℤ → Bool) (calls : Fin n → Call) (hcalls : ∀ p, ReadsOrWrites (calls p))
    (before : List (Act n)) (s : State n)
    (h : run step before (start l rest opens calls) = some s) (dead : Fin n → Prop) :
    (∃ as t, (∀ a ∈ as, ¬ dead a.child) ∧ run step as s = some t ∧ Finished dead t) ↔
      (∀ p, ¬ dead p → ¬ Lost s (s.children p)) ∧
        ∀ p q, ¬ dead p → dead q → ¬ Blocks (s.children q) (s.children p) := by
  have hcalm := run_invariant step Calm (fun a u v hu hv => calm_step hu hv) before _ s
    (calm_start l hroom rest opens calls hcalls) h
  constructor
  · rintro ⟨as, t, halive, hrun, hfinished⟩
    refine ⟨fun p hp hlost => ?_, fun p q hp hq hb => ?_⟩
    · have hstays := run_invariant step (fun u => Calm u ∧ Lost u (u.children p))
        (fun a u v hu hv => ⟨calm_step hu.1 hv, lost_step hu.1 hu.2 hv⟩) as s t
        ⟨hcalm, hlost⟩ hrun
      exact lost_unfinished hstays.1 hstays.2 (hfinished p hp)
    · have hstays := guarded_invariant step (fun a _ => ¬ dead a.child)
        (fun u => Calm u ∧ Blocks (u.children q) (u.children p))
        (fun a u v hu ha hv => ⟨calm_step hu.1 hv,
          blocked_step hu.1 hu.2 (fun heq => ha (heq ▸ hq)) hv⟩) as s t ⟨hcalm, hb⟩
        (meets_of_labels step _ as (fun a ha _ => halive a ha) s) hrun
      exact blocks_unfinished hstays.2 (hfinished p hp)
  · rintro ⟨hsafe, hfree⟩
    exact reaches_of_falls step (fun a => ¬ dead a.child) (Clear dead) (Finished dead) rank
      (fun u hu hnot => clear_steps hu hnot) s ⟨hcalm, hsafe, hfree⟩

def readerAndWriter : Fin 2 → Call
  | 0 => ⟨.readFile, ascii "b", 0⟩
  | 1 => ⟨.writeFile, ascii "b", 0⟩

/-- A reader that dies in its section, and a writer that comes after it. -/
theorem finish_iff_dead_reader : ∃ s, run step (plain 0 5)
      (start someFiles (fun _ => ⟨[], 0, 0, 0, 0⟩) (fun _ => usual) readerAndWriter) = some s ∧
    ¬ ∃ as t, (∀ a ∈ as, a.child ≠ 0) ∧ run step as s = some t ∧ Finished (· = 0) t := by
  have hends : (run step (plain 0 5)
      (start someFiles (fun _ => ⟨[], 0, 0, 0, 0⟩) (fun _ => usual) readerAndWriter)).any (fun s =>
        (s.children 0).pc = .hold 1 .readFd ∧ (s.children 1).pc = .look 0 ∧
          (s.children 0).call = readerAndWriter 0 ∧ (s.children 1).call = readerAndWriter 1) =
      true := by
    decide
  obtain ⟨s, hs, hat⟩ := (Option.any_eq_true _ _).mp hends
  obtain ⟨hreader, hwriter, hcall0, hcall1⟩ := of_decide_eq_true hat
  refine ⟨s, hs, fun hfinish => ?_⟩
  have hclear := ((finish_iff someFiles (by decide) _ _ readerAndWriter
    (fun p => by revert p; decide) _ s hs (· = 0)).mp hfinish).2
  refine hclear 1 0 (by decide) rfl ⟨by rw [hcall0, hcall1]; rfl, ?_⟩
  rw [hwriter]
  exact ⟨by rw [hcall1]; rfl, .inl (by rw [hreader]; rfl)⟩

end CSE344.TableBlocked
