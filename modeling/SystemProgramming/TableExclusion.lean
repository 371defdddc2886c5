import SystemProgramming.TableIdentity

/-!
# Writers and the other children of a file

The test of the counters and the increment are separate accesses, and a reader
enters without a test. When every increment finds the counters as the test
wants them, a writer is alone in the sections of its file.
-/

set_option autoImplicit false

namespace CSE344.TableExclusion
open CString Tally TableMachine TableInvariant TableSteps TableIdentity TransitionRun

variable {n : ℕ}

/-- At an increment the counters are still as the test of `write_file` and
`download_file` wants them, and a reader enters past no writer. -/
def Tested (s : State n) : Pc → Prop
  | .hold k .readerInc => ¬ 0 < (s.table k).writers
  | .hold k .writerInc => ¬ (0 < (s.table k).readers ∨ 0 < (s.table k).writers)
  | _ => True

instance (s : State n) (pc : Pc) : Decidable (Tested s pc) := by
  unfold Tested
  split <;> infer_instance

/-- A child in the write section of a file is alone in its sections. -/
def Exclusion (s : State n) : Prop :=
  ∀ p q, p ≠ q → (s.children p).call.file = (s.children q).call.file →
    inWrite (s.children p).pc = true →
    inWrite (s.children q).pc = false ∧ inRead (s.children q).pc = false

/-- While the counter of a held entry is not positive, nobody is in the
section that it counts. -/
theorem nobody_reads {s : State n} (h : Consistent s) {p : Fin n} {k : ℤ} {st : Hold}
    (hp : (s.children p).pc = .hold k st) (hz : ¬ 0 < (s.table k).readers) (q : Fin n)
    (hfile : (s.children q).call.file = (s.children p).call.file) :
    inRead (s.children q).pc = false := by
  obtain ⟨hk, hkn, hname⟩ := h.named p k st hp
  by_contra hq
  have hpos := tally_pos (inSection inRead (s.table k).name) s.children q
    (by simpa [inSection, hname, hfile] using hq)
  rw [← (h.counted k hk hkn).1] at hpos
  omega

theorem nobody_writes {s : State n} (h : Consistent s) {p : Fin n} {k : ℤ} {st : Hold}
    (hp : (s.children p).pc = .hold k st) (hz : ¬ 0 < (s.table k).writers) (q : Fin n)
    (hfile : (s.children q).call.file = (s.children p).call.file) :
    inWrite (s.children q).pc = false := by
  obtain ⟨hk, hkn, hname⟩ := h.named p k st hp
  by_contra hq
  have hpos := tally_pos (inSection inWrite (s.table k).name) s.children q
    (by simpa [inSection, hname, hfile] using hq)
  rw [← (h.counted k hk hkn).2] at hpos
  omega

/-- An increment that finds the counters as tested keeps writers alone. -/
theorem access_exclusion {s t : State n} (h : Consistent s) (hex : Exclusion s) (a : Act n)
    (hg : Tested s (s.children a.child).pc) (hstep : access a s = some t) : Exclusion t := by
  obtain ⟨pc, hchildren, henters⟩ := access_moves hstep
  intro p q hpq
  rw [hchildren, goto_call, goto_call]
  intro hfile hp
  by_cases hpa : p = a.child
  · subst hpa
    rw [goto_self] at hp
    rw [goto_other s pc hpq.symm]
    rcases henters.write hp with hold | ⟨k, hk⟩
    · exact hex _ q hpq hfile hold
    · rw [hk] at hg
      exact ⟨nobody_writes h hk (fun hw => hg (.inr hw)) q hfile.symm,
        nobody_reads h hk (fun hr => hg (.inl hr)) q hfile.symm⟩
  rw [goto_other s pc hpa] at hp
  by_cases hqa : q = a.child
  · subst hqa
    obtain ⟨hw, hr⟩ := hex p _ hpq hfile hp
    rw [goto_self]
    constructor
    · by_contra hin
      rcases henters.write (by simpa using hin) with hold | ⟨k, hk⟩
      · rw [hw] at hold
        cases hold
      · rw [hk] at hg
        have := nobody_writes h hk (fun hw => hg (.inr hw)) p hfile
        rw [hp] at this
        cases this
    · by_contra hin
      rcases henters.read (by simpa using hin) with hold | ⟨k, hk⟩
      · rw [hr] at hold
        cases hold
      · rw [hk] at hg
        have := nobody_writes h hk hg p hfile
        rw [hp] at this
        cases this
  · rw [goto_other s pc hqa]
    exact hex p q hpq hfile hp

theorem step_exclusion {s t : State n} (h : Consistent s) (hex : Exclusion s) (a : Act n)
    (hg : Tested s (s.children a.child).pc) (hstep : step a s = some t) : Exclusion t := by
  obtain ⟨-, ⟨-, rfl⟩ | ⟨-, haccess⟩⟩ := step_cases hstep
  · simpa [Exclusion] using hex
  · exact access_exclusion h hex a hg haccess

def Guarded (a : Act n) (s : State n) : Prop := Steady a s ∧ Tested s (s.children a.child).pc

instance (a : Act n) (s : State n) : Decidable (Guarded a s) := inferInstanceAs (Decidable (_ ∧ _))

/-- In a run whose increments find the counters as tested, writers are
exclusive. -/
theorem writers_exclusive (l : Listing) (rest : ℤ → Entry) (opens : Fin n → ℤ → Bool)
    (calls : Fin n → Call) (as : List (Act n)) (t : State n)
    (hmeets : Meets step Guarded as (start l rest opens calls))
    (hrun : run step as (start l rest opens calls) = some t) : Exclusion t :=
  (guarded_invariant step Guarded (fun s => Consistent s ∧ Exclusion s)
    (fun a _ _ h hg hs => ⟨step_inv h.1 a hg.1 hs, step_exclusion h.1 h.2 a hg.2 hs⟩) as _ t
    ⟨start_inv l rest opens calls, fun _ _ _ _ hp => by cases hp⟩ hmeets hrun).2

def rivals : Fin 4 → Call
  | 0 => ⟨.writeFile, ascii "b", 0⟩
  | 1 => ⟨.writeFile, ascii "b", 0⟩
  | 2 => ⟨.readFile, ascii "b", 0⟩
  | 3 => ⟨.downloadFile, ascii "c", 0⟩

def rivalStart : State 4 := start someFiles (fun _ => ⟨[], 0, 0, 0, 0⟩) (fun _ => usual) rivals

theorem writers_exclusive_two_files : ∃ t,
    run step (plain 0 7 ++ plain 1 6 ++ plain 3 9) rivalStart = some t ∧
      inWrite (t.children 0).pc = true ∧ inWrite (t.children 3).pc = true ∧
      (t.children 1).pc = .hold 1 .testReaders ∧ Exclusion t := by
  have hends : (run step (plain 0 7 ++ plain 1 6 ++ plain 3 9) rivalStart).any (fun t =>
      inWrite (t.children 0).pc = true ∧ inWrite (t.children 3).pc = true ∧
        (t.children 1).pc = .hold 1 .testReaders) = true := by
    decide
  obtain ⟨t, ht, hat⟩ := (Option.any_eq_true _ _).mp hends
  obtain ⟨hfirst, hlast, hwait⟩ := of_decide_eq_true hat
  exact ⟨t, ht, hfirst, hlast, hwait,
    writers_exclusive someFiles _ _ rivals _ t (by decide) ht⟩

/-- Both writers test before either increments, and the reader does not test. -/
theorem three_in_sections : ∃ t,
    run step (plain 0 6 ++ plain 1 7 ++ plain 0 1 ++ plain 2 5) rivalStart = some t ∧
      (∀ p, p ≠ 3 → (t.children p).call.file = ascii "b") ∧
      inWrite (t.children 0).pc = true ∧ inWrite (t.children 1).pc = true ∧
      inRead (t.children 2).pc = true ∧ ¬ Exclusion t := by
  have hends : (run step (plain 0 6 ++ plain 1 7 ++ plain 0 1 ++ plain 2 5) rivalStart).any
      (fun t => (∀ p, p ≠ 3 → (t.children p).call.file = ascii "b") ∧
        inWrite (t.children 0).pc = true ∧ inWrite (t.children 1).pc = true ∧
        inRead (t.children 2).pc = true) = true := by
    decide
  obtain ⟨t, ht, hat⟩ := (Option.any_eq_true _ _).mp hends
  obtain ⟨hfile, hfirst, hsecond, hreads⟩ := of_decide_eq_true hat
  refine ⟨t, ht, hfile, hfirst, hsecond, hreads, fun hex => ?_⟩
  have hsame : (t.children 0).call.file = (t.children 1).call.file := by
    rw [hfile 0 (by decide), hfile 1 (by decide)]
  have halone := (hex 0 1 (by decide) hsame hfirst).1
  rw [hsecond] at halone
  cases halone

end CSE344.TableExclusion
