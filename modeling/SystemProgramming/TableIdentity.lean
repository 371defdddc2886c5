import SystemProgramming.TableSteps

/-!
# Which entry an index means

A child looks its file up once and then works with the index. The index keeps
its meaning when no child shifts the table under it and no lookup or upload
falls into a shift; then the counters of each entry are the numbers of
children in the sections of its file, as long as none of them crashes there.
-/

set_option autoImplicit false

namespace CSE344.TableIdentity
open CString Tally TableMachine TableInvariant TableSteps TransitionRun

variable {n : ℕ}

theorem start_live (l : Listing) (rest : ℤ → Entry) (opens : Fin n → ℤ → Bool)
    (calls : Fin n → Call) {i : ℤ} (h0 : 0 ≤ i)
    (hi : i < l.names.length) : ∃ hlt : i.toNat < l.names.length,
      (start l rest opens calls).table i = l.entry l.names[i.toNat] := by
  have hlt : i.toNat < l.names.length := by omega
  refine ⟨hlt, ?_⟩
  simp only [start]
  rw [if_neg (by omega), List.getElem?_eq_getElem hlt, Option.elim_some]

theorem start_inv (l : Listing) (rest : ℤ → Entry) (opens : Fin n → ℤ → Bool)
    (calls : Fin n → Call) :
    Consistent (start l rest opens calls) where
  looking p i hp := by
    rcases hp with hp | hp <;> cases hp
    exact le_refl 0
  named p k st hp := by cases hp
  counted a h0 ha := by
    obtain ⟨hlt, he⟩ := start_live l rest opens calls h0 ha
    have hnone (sec : Pc → Bool) (file : Bytes) (hs : sec (.look 0) = false) :
        tally (inSection sec file) (start l rest opens calls).children = 0 :=
      tally_zero _ _ (fun p => by simp [start, inSection, hs])
    unfold Counted
    rw [he, hnone inRead _ rfl, hnone inWrite _ rfl]
    exact ⟨rfl, rfl⟩
  distinct a b h0 hab hb heq := by
    obtain ⟨hlta, hea⟩ := start_live l rest opens calls h0 (lt_trans hab hb)
    obtain ⟨hltb, heb⟩ := start_live l rest opens calls (by omega) hb
    rw [hea, heb] at heq
    have hsame : l.names[a.toNat] = l.names[b.toNat] := heq
    have := l.distinct.getElem_inj_iff.mp hsame
    omega
  shifting p k i st hp := by cases hp
  adding p k st hp := by cases hp

/-- The children that are in a section of a file and have not crashed. -/
def inside (sec : Pc → Bool) (file : Bytes) (c : Child) : Bool := c.alive && inSection sec file c

/-- Every index in use names the file of the call, and the counters of every
live entry are the numbers of children in the sections of its file; so they
are 0 when all have left. -/
def ActsOnNamed (s : State n) : Prop :=
  (∀ p k st, (s.children p).pc = .hold k st →
    0 ≤ k ∧ k < s.numFiles ∧ (s.table k).name = (s.children p).call.file) ∧
  (∀ a, 0 ≤ a → a < s.numFiles →
    (s.table a).readers = tally (inside inRead (s.table a).name) s.children ∧
      (s.table a).writers = tally (inside inWrite (s.table a).name) s.children) ∧
  ∀ a, 0 ≤ a → a < s.numFiles →
    (∀ p, inside inRead (s.table a).name (s.children p) = false ∧
      inside inWrite (s.table a).name (s.children p) = false) →
    (s.table a).readers = 0 ∧ (s.table a).writers = 0

/-- The step is steady and no crash. -/
def Sound (a : Act n) (s : State n) : Prop :=
  Steady a s ∧ ¬ (s.children a.child).Crashes s.table

instance (a : Act n) (s : State n) : Decidable (Sound a s) := inferInstanceAs (Decidable (_ ∧ _))

def Alive (s : State n) : Prop := ∀ p, (s.children p).alive = true

theorem sound_alive {a : Act n} {s t : State n} (h : Alive s) (hg : Sound a s)
    (hstep : step a s = some t) : Alive t := by
  intro p
  obtain ⟨-, ⟨hcrash, -⟩ | ⟨-, haccess⟩⟩ := step_cases hstep
  · exact absurd hcrash hg.2
  · obtain ⟨pc, hchildren, -⟩ := access_moves haccess
    rw [hchildren, goto_alive]
    exact h p

theorem Alive.tally {s : State n} (h : Alive s) (sec : Pc → Bool) (file : Bytes) :
    tally (inside sec file) s.children = tally (inSection sec file) s.children :=
  tally_congr (fun p => by rw [inside, h p, Bool.true_and])

/-- In a run of sound steps every operation acts on the file it named. -/
theorem operations_act_on_named (l : Listing) (rest : ℤ → Entry) (opens : Fin n → ℤ → Bool)
    (calls : Fin n → Call) (as : List (Act n)) (t : State n)
    (hmeets : Meets step Sound as (start l rest opens calls))
    (hrun : run step as (start l rest opens calls) = some t) : ActsOnNamed t := by
  obtain ⟨h, halive⟩ := guarded_invariant step Sound (fun s => Consistent s ∧ Alive s)
    (fun a s u h hg hs => ⟨step_inv h.1 a hg.1 hs, sound_alive h.2 hg hs⟩)
    as _ t ⟨start_inv l rest opens calls, fun _ => rfl⟩ hmeets hrun
  have hcounted (a : ℤ) (ha : 0 ≤ a) (han : a < t.numFiles) :
      (t.table a).readers = tally (inside inRead (t.table a).name) t.children ∧
        (t.table a).writers = tally (inside inWrite (t.table a).name) t.children := by
    rw [halive.tally, halive.tally]
    exact h.counted a ha han
  refine ⟨h.named, hcounted, fun a ha han hleft => ?_⟩
  obtain ⟨hr, hw⟩ := hcounted a ha han
  rw [hr, hw]
  exact ⟨tally_zero _ _ (fun p => (hleft p).1), tally_zero _ _ (fun p => (hleft p).2)⟩

/-- Steps of one child in which every `open` and `read` returns 0. -/
def plain (p : Fin n) (m : ℕ) : List (Act n) := List.replicate m ⟨p, 0⟩

def someFiles : Listing where
  names := [ascii "a", ascii "b", ascii "c"]
  distinct := by decide
  size _ := 0
  fd _ := 3

def someCalls : Fin 4 → Call
  | 0 => ⟨.writeFile, ascii "b", 0⟩
  | 1 => ⟨.downloadFile, ascii "a", 0⟩
  | 2 => ⟨.uploadFile, ascii "d", 0⟩
  | 3 => ⟨.readFile, ascii "b", 0⟩

/-- The descriptors of a child of a server that has a file open as 3, while its
own FIFO is 4. -/
def usual (fd : ℤ) : Bool := decide (0 ≤ fd ∧ fd ≤ 4)

def someStart : State 4 :=
  start someFiles (fun _ => ⟨[], 0, 0, 0, 0⟩) (fun _ => usual) someCalls

def overlapping : List (Act 4) :=
  plain 0 7 ++ plain 1 5 ++ plain 0 3 ++ plain 1 12 ++ plain 2 10 ++ plain 3 3

theorem operations_act_on_named_overlapping : ∃ t, run step overlapping someStart = some t ∧
    (t.children 2).pc = .add 2 .receive ∧ (t.children 3).pc = .hold 0 .readFd ∧ ActsOnNamed t := by
  have hends : (run step overlapping someStart).any (fun t =>
      (t.children 2).pc = .add 2 .receive ∧ (t.children 3).pc = .hold 0 .readFd) = true := by
    decide
  obtain ⟨t, ht, hat⟩ := (Option.any_eq_true _ _).mp hends
  obtain ⟨hadd, hread⟩ := of_decide_eq_true hat
  exact ⟨t, ht, hadd, hread,
    operations_act_on_named someFiles _ _ someCalls overlapping t (by decide) ht⟩

def underShift : List (Act 4) := plain 0 6 ++ plain 1 17 ++ plain 0 1

def uploadThenLine : Fin 2 → Call
  | 0 => ⟨.uploadFile, ascii "d", 0⟩
  | 1 => ⟨.readFile, ascii "d", 1⟩

def first : Fin 2 := ⟨0, Nat.zero_lt_two⟩

def second : Fin 2 := ⟨1, Nat.one_lt_two⟩

/-- The upload has its file as 5, a number that the reader has not open. -/
def throughUpload : List (Act 2) :=
  plain first 9 ++ [⟨first, 5⟩] ++ plain first 4 ++ plain second 10

/-- The entries move while child 0 waits: it looked `b` up, and the counter
that it increments is that of `c`. And a reader that crashes stays counted. -/
theorem named_missed :
    (∃ t, run step underShift someStart = some t ∧
      (t.children 0).pc = .hold 1 .seekFd ∧ (t.table 1).name = ascii "c" ∧
      (t.table 1).writers = 1 ∧ ¬ ActsOnNamed t) ∧
    ∃ t, run step throughUpload
        (start someFiles (fun _ => ⟨[], 0, 0, 0, 0⟩) (fun _ => usual) uploadThenLine) = some t ∧
      (∀ p, inside inRead (ascii "d") (t.children p) = false) ∧
      (t.table 3).name = ascii "d" ∧ (t.table 3).readers = 1 ∧ ¬ ActsOnNamed t := by
  constructor
  · have hends : (run step underShift someStart).any (fun t =>
        (t.children 0).pc = .hold 1 .seekFd ∧ (t.children 0).call.file = ascii "b" ∧
          (t.table 1).name = ascii "c" ∧ (t.table 1).writers = 1) = true := by
      decide
    obtain ⟨t, ht, hat⟩ := (Option.any_eq_true _ _).mp hends
    obtain ⟨hpc, hfile, hname, hw⟩ := of_decide_eq_true hat
    refine ⟨t, ht, hpc, hname, hw, fun h => ?_⟩
    have hsame := (h.1 0 1 .seekFd hpc).2.2
    rw [hname, hfile] at hsame
    exact absurd hsame (by decide)
  · have hends : (run step throughUpload
        (start someFiles (fun _ => ⟨[], 0, 0, 0, 0⟩) (fun _ => usual) uploadThenLine)).any (fun t =>
          (∀ p, inside inRead (ascii "d") (t.children p) = false) ∧ 3 < t.numFiles ∧
            (t.table 3).name = ascii "d" ∧ (t.table 3).readers = 1) = true := by
      decide
    obtain ⟨t, ht, hat⟩ := (Option.any_eq_true _ _).mp hends
    obtain ⟨hnobody, hlive, hname, hr⟩ := of_decide_eq_true hat
    refine ⟨t, ht, hnobody, hname, hr, fun h => ?_⟩
    have hcount := (h.2.1 3 (by decide) hlive).1
    rw [hname, tally_zero _ _ hnobody, hr] at hcount
    cases hcount

end CSE344.TableIdentity
