import SystemProgramming.TableMachine

/-!
# What keeps an index and its file together

The entries move only in the shift of a download, so the invariant says which
entry is doubled while a shift goes on, that a held index is below every shift
and names its file, and that the counters of an entry are the numbers of
children in the sections of its file.
-/

set_option autoImplicit false

namespace CSE344.TableInvariant
open CString Tally TableMachine

variable {n : ℕ}

/-- The child shifts entries from `k` on or below. -/
def Shifts (k : ℤ) : Pc → Prop
  | .shift j _ _ => j ≤ k
  | _ => False

/-- The child has an index at or after `k`, or adds an entry. -/
def Beyond (k : ℤ) : Pc → Prop
  | .hold j _ => k ≤ j
  | .shift j _ _ => k ≤ j
  | .add _ _ => True
  | _ => False

def Adds : Pc → Prop
  | .add _ _ => True
  | _ => False

theorem not_adding {pc : Pc} (h : ¬ Adds pc) (k : ℤ) (st : Add) : pc ≠ .add k st := by
  rintro rfl
  exact h trivial

instance (k : ℤ) (pc : Pc) : Decidable (Shifts k pc) := by
  cases pc <;> first | exact isFalse id | exact inferInstanceAs (Decidable (_ ≤ _))

instance (k : ℤ) (pc : Pc) : Decidable (Beyond k pc) := by
  cases pc <;> first
    | exact isFalse id
    | exact isTrue trivial
    | exact inferInstanceAs (Decidable (_ ≤ _))

instance (pc : Pc) : Decidable (Adds pc) := by
  cases pc <;> first | exact isFalse id | exact isTrue trivial

/-- The index of a match is live and not being shifted; a shift starts only
when no other child has an index from there on and nothing is being added; a
name is added only when it is still absent and nobody adds or shifts. -/
def Steady (a : Act n) (s : State n) : Prop :=
  match (s.children a.child).pc with
  | .compare i => (s.children a.child).call.operation ≠ .uploadFile →
      (s.table i).name = (s.children a.child).call.file →
      i < s.numFiles ∧ ∀ q, ¬ Shifts i (s.children q).pc
  | .hold k .unlinkName => ∀ q, q ≠ a.child → ¬ Beyond k (s.children q).pc
  | .pick => (∀ q, ¬ Adds (s.children q).pc ∧ ¬ Shifts s.numFiles (s.children q).pc) ∧
      ∀ i, 0 ≤ i → i < s.numFiles → (s.table i).name ≠ (s.children a.child).call.file
  | _ => True

instance (a : Act n) (s : State n) : Decidable (Steady a s) := by
  unfold Steady
  split <;> infer_instance

/-- The counters of an entry are the numbers of children in the sections. -/
def Counted (s : State n) (e : Entry) : Prop :=
  e.readers = tally (inSection inRead e.name) s.children ∧
    e.writers = tally (inSection inWrite e.name) s.children

/-- How far an upload has filled its entry. -/
def Filled (file : Bytes) (e : Entry) : Add → Prop
  | .setName => True
  | .setFd => e.name = file
  | .setReaders => e.name = file
  | .setWriters => e.name = file ∧ e.readers = 0
  | _ => e.name = file ∧ e.readers = 0 ∧ e.writers = 0

/-- What the next access of a shift relies on. -/
def Shifted (s : State n) (i : ℤ) : Shift → Prop
  | .test => True
  | .load => i+1 < s.numFiles
  | .store e => i+1 < s.numFiles ∧ e = s.table (i+1)
  | .numDec => i+1 = s.numFiles

structure Consistent (s : State n) : Prop where
  looking : ∀ p i, (s.children p).pc = .look i ∨ (s.children p).pc = .compare i → 0 ≤ i
  named : ∀ p k st, (s.children p).pc = .hold k st →
    0 ≤ k ∧ k < s.numFiles ∧ (s.table k).name = (s.children p).call.file
  counted : ∀ a, 0 ≤ a → a < s.numFiles → Counted s (s.table a)
  distinct : ∀ a b, 0 ≤ a → a < b → b < s.numFiles → (s.table a).name = (s.table b).name →
    ∃ p k st, (s.children p).pc = .shift k b st ∧ k ≤ a
  shifting : ∀ p k i st, (s.children p).pc = .shift k i st →
    0 ≤ k ∧ k ≤ i ∧ i < s.numFiles ∧ Shifted s i st ∧ ∀ q, q ≠ p → ¬ Beyond k (s.children q).pc
  adding : ∀ p k st, (s.children p).pc = .add k st →
    k = s.numFiles ∧ Filled (s.children p).call.file (s.table k) st ∧
      (∀ i, 0 ≤ i → i < s.numFiles → (s.table i).name ≠ (s.children p).call.file) ∧
      ∀ q, q ≠ p → ¬ Adds (s.children q).pc

theorem inRead_hold {pc : Pc} (h : inRead pc = true) : ∃ k st, pc = .hold k st := by
  unfold inRead at h
  split at h
  · exact ⟨_, _, rfl⟩
  · exact ⟨_, _, rfl⟩
  · cases h

theorem inWrite_hold {pc : Pc} (h : inWrite pc = true) : ∃ k st, pc = .hold k st := by
  unfold inWrite at h
  split at h
  · exact ⟨_, _, rfl⟩
  · exact ⟨_, _, rfl⟩
  · exact ⟨_, _, rfl⟩
  · exact ⟨_, _, rfl⟩
  · exact ⟨_, _, rfl⟩
  · cases h

@[simp] theorem goto_self (s : State n) (p : Fin n) (pc : Pc) :
    (s.goto p pc).children p = { s.children p with pc := pc } := by
  simp [State.goto]

theorem goto_other (s : State n) {p q : Fin n} (pc : Pc) (h : q ≠ p) :
    (s.goto p pc).children q = s.children q := by
  simp [State.goto, h]

@[simp] theorem goto_call (s : State n) (p q : Fin n) (pc : Pc) :
    ((s.goto p pc).children q).call = (s.children q).call := by
  by_cases h : q = p
  · subst h
    simp
  · rw [goto_other s pc h]

@[simp] theorem goto_table (s : State n) (p : Fin n) (pc : Pc) :
    (s.goto p pc).table = s.table := rfl

@[simp] theorem goto_numFiles (s : State n) (p : Fin n) (pc : Pc) :
    (s.goto p pc).numFiles = s.numFiles := rfl

@[simp] theorem store_children (s : State n) (k : ℤ) (e : Entry) :
    (s.store k e).children = s.children := rfl

@[simp] theorem goto_alive (s : State n) (p q : Fin n) (pc : Pc) :
    ((s.goto p pc).children q).alive = (s.children q).alive := by
  by_cases h : q = p
  · subst h
    simp
  · rw [goto_other s pc h]

@[simp] theorem goto_opens (s : State n) (p q : Fin n) (pc : Pc) :
    ((s.goto p pc).children q).opens = (s.children q).opens := by
  by_cases h : q = p
  · subst h
    simp
  · rw [goto_other s pc h]

section Kill

variable (s : State n) (p q : Fin n)

@[simp] theorem kill_pc : ((s.kill p).children q).pc = (s.children q).pc := by
  by_cases h : q = p
  · subst h
    simp [State.kill]
  · simp [State.kill, h]

@[simp] theorem kill_call : ((s.kill p).children q).call = (s.children q).call := by
  by_cases h : q = p
  · subst h
    simp [State.kill]
  · simp [State.kill, h]

@[simp] theorem kill_opens : ((s.kill p).children q).opens = (s.children q).opens := by
  by_cases h : q = p
  · subst h
    simp [State.kill]
  · simp [State.kill, h]

@[simp] theorem kill_table : (s.kill p).table = s.table := rfl

@[simp] theorem kill_numFiles : (s.kill p).numFiles = s.numFiles := rfl

@[simp] theorem tally_kill (sec : Pc → Bool) (file : Bytes) :
    tally (inSection sec file) (s.kill p).children = tally (inSection sec file) s.children :=
  tally_congr (fun q => by simp [inSection])

end Kill

theorem goto_pc {s : State n} {p q : Fin n} {pc pc' : Pc}
    (h : ((s.goto p pc).children q).pc = pc') :
    q = p ∧ pc = pc' ∨ q ≠ p ∧ (s.children q).pc = pc' := by
  by_cases hq : q = p
  · subst hq
    rw [goto_self] at h
    exact .inl ⟨rfl, h⟩
  · rw [goto_other s pc hq] at h
    exact .inr ⟨hq, h⟩

theorem others_goto (P : Pc → Prop) {s : State n} {p q : Fin n} {pc : Pc} (hp : p ≠ q → P pc)
    (h : ∀ q', q' ≠ q → P (s.children q').pc) (q' : Fin n) (hq' : q' ≠ q) :
    P ((s.goto p pc).children q').pc := by
  by_cases hpq : q' = p
  · subst hpq
    rw [goto_self]
    exact hp hq'
  · rw [goto_other s pc hpq]
    exact h q' hq'

theorem looking_goto {s : State n} {p : Fin n} {pc : Pc}
    (h : ∀ q i, (s.children q).pc = .look i ∨ (s.children q).pc = .compare i → 0 ≤ i)
    (hpc : ∀ i, pc = .look i ∨ pc = .compare i → 0 ≤ i) (q : Fin n) (i : ℤ)
    (hq : ((s.goto p pc).children q).pc = .look i ∨ ((s.goto p pc).children q).pc = .compare i) :
    0 ≤ i := by
  rcases hq with hq | hq <;> rcases goto_pc hq with ⟨-, hn⟩ | ⟨-, hold⟩
  · exact hpc i (.inl hn)
  · exact h q i (.inl hold)
  · exact hpc i (.inr hn)
  · exact h q i (.inr hold)

/-- How a move of one child changes the number of children in a section. -/
theorem tally_goto (sec : Pc → Bool) (file : Bytes) (s : State n) (p : Fin n) (pc : Pc) :
    tally (inSection sec file) (s.goto p pc).children =
      tally (inSection sec file) s.children +
        if (s.children p).call.file = file then one (sec pc) - one (sec (s.children p).pc)
        else 0 := by
  rw [State.goto, tally_update]
  by_cases h : (s.children p).call.file = file
  · simp only [inSection, h, decide_true, Bool.true_and, if_true]
    omega
  · simp [inSection, h]

theorem tally_outside {sec : Pc → Bool} (file : Bytes) (s : State n) (p : Fin n) {pc : Pc}
    (hnew : sec pc = false) (hold : sec (s.children p).pc = false) :
    tally (inSection sec file) (s.goto p pc).children = tally (inSection sec file) s.children := by
  rw [tally_goto, hnew, hold]
  simp

theorem Consistent.kill {s : State n} (h : Consistent s) (p : Fin n) : Consistent (s.kill p) where
  looking q i hq := h.looking q i (by simpa using hq)
  named q k st hq := by simpa using h.named q k st (by simpa using hq)
  counted a ha han := by simpa [Counted] using h.counted a ha han
  distinct a b ha hab hbn heq := by simpa using h.distinct a b ha hab hbn heq
  shifting q k i st hq := by
    have hold := h.shifting q k i st (by simpa using hq)
    cases st <;> simpa [Shifted] using hold
  adding q k st hq := by simpa using h.adding q k st (by simpa using hq)

theorem Consistent.hold_below {s : State n} (h : Consistent s) {p q : Fin n} {k j i : ℤ}
    {st : Hold} {sh : Shift}
    (hp : (s.children p).pc = .hold k st) (hq : (s.children q).pc = .shift j i sh) : k < j := by
  have hpq : p ≠ q := by
    rintro rfl
    rw [hp] at hq
    cases hq
  have hbey := (h.shifting q j i sh hq).2.2.2.2 p hpq
  rw [hp, Beyond] at hbey
  omega

/-- An index that is held names its file, and no other live entry does. -/
theorem Consistent.unique {s : State n} (h : Consistent s) {p : Fin n} {k : ℤ} {st : Hold}
    (hp : (s.children p).pc = .hold k st) {a : ℤ} (ha : 0 ≤ a) (han : a < s.numFiles)
    (hak : a ≠ k) : (s.table a).name ≠ (s.table k).name := by
  intro heq
  obtain ⟨hk, hkn, -⟩ := h.named p k st hp
  rcases lt_or_gt_of_ne hak with hlt | hgt
  · obtain ⟨q, j, sh, hq, hj⟩ := h.distinct a k ha hlt hkn heq
    have := h.hold_below hp hq
    omega
  · obtain ⟨q, j, sh, hq, hj⟩ := h.distinct k a hk hgt han heq.symm
    have := h.hold_below hp hq
    omega

/-- While one child shifts, no other child shifts, adds or has an index from
there on. -/
theorem Consistent.alone {s : State n} (h : Consistent s) {p : Fin n} {k i : ℤ} {st : Shift}
    (hp : (s.children p).pc = .shift k i st) {q : Fin n} (hq : q ≠ p) :
    ¬ Adds (s.children q).pc ∧ (∀ j st', (s.children q).pc = .hold j st' → j < k) ∧
      ∀ j i' st', (s.children q).pc ≠ .shift j i' st' := by
  have hbey := (h.shifting p k i st hp).2.2.2.2 q hq
  refine ⟨fun hadd => hbey ?_, fun j st' hj => ?_, fun j i' st' hj => ?_⟩
  · cases hpc : (s.children q).pc <;> rw [hpc] at hadd <;> trivial
  · rw [hj, Beyond] at hbey
    omega
  · have hback := (h.shifting q j i' st' hj).2.2.2.2 p hq.symm
    rw [hp, Beyond] at hback
    rw [hj, Beyond] at hbey
    omega

theorem Consistent.doubled {s : State n} (h : Consistent s) {p : Fin n} {k i : ℤ} {st : Shift}
    (hp : (s.children p).pc = .shift k i st) {a b : ℤ} (ha : 0 ≤ a) (hab : a < b)
    (hb : b < s.numFiles) (heq : (s.table a).name = (s.table b).name) : b = i := by
  obtain ⟨q, j, st', hq, -⟩ := h.distinct a b ha hab hb heq
  by_cases hqp : q = p
  · rw [hqp, hp] at hq
    cases hq
    rfl
  · exact absurd hq ((h.alone hp hqp).2.2 j b st')

theorem Consistent.no_shift {s : State n} (h : Consistent s) {p : Fin n}
    (hp : Adds (s.children p).pc) (q : Fin n) (k i : ℤ) (st : Shift) :
    (s.children q).pc ≠ .shift k i st := by
  intro hq
  have hqp : p ≠ q := by
    rintro rfl
    rw [hq] at hp
    exact hp
  exact (h.alone hq hqp).1 hp

end CSE344.TableInvariant
