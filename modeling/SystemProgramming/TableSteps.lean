import SystemProgramming.TableInvariant

/-!
# Every steady step keeps the invariant of the table

One lemma for each kind of access: through a held index, of a lookup, of a
shift, of an upload.
-/

set_option autoImplicit false

namespace CSE344.TableSteps
open CString Tally TableMachine TableInvariant

variable {n : ℕ}

/-- What one access with an index does to the entry and to the sections. -/
structure HoldSpec (k : ℤ) (e : Entry) (st : Hold) (r : Entry × Pc) : Prop where
  name : r.1.name = e.name
  readers : r.1.readers = e.readers + (one (inRead r.2) - one (inRead (.hold k st)))
  writers : r.1.writers = e.writers + (one (inWrite r.2) - one (inWrite (.hold k st)))
  next : (∃ st', r.2 = .hold k st') ∨ r.2 = .done ∨ r.2 = .shift k k .test ∧ st = .unlinkName

theorem holdStep_spec (c : Call) (v k : ℤ) (e : Entry) (st : Hold) :
    HoldSpec k e st (holdStep c v k e st) := by
  cases st
  case writerInc =>
    have henter : inWrite (.hold k c.enter) = true ∧ inRead (.hold k c.enter) = false := by
      unfold Call.enter
      split_ifs <;> exact ⟨rfl, rfl⟩
    refine ⟨rfl, ?_, ?_, .inl ⟨_, rfl⟩⟩
    · simp only [holdStep, henter.2]
      simp [inRead, one]
    · simp only [holdStep, henter.1]
      simp [inWrite, one]
  case writerDec =>
    have hleave : inWrite (c.leave k) = false ∧ inRead (c.leave k) = false := by
      unfold Call.leave
      split_ifs <;> exact ⟨rfl, rfl⟩
    refine ⟨rfl, ?_, ?_, ?_⟩
    · simp only [holdStep, hleave.2]
      simp [inRead, one]
    · simp only [holdStep, hleave.1]
      simp [inWrite, one]
      omega
    · have hnext : (holdStep c v k e .writerDec).2 = c.leave k := rfl
      rw [hnext, Call.leave]
      split_ifs
      · exact .inl ⟨_, rfl⟩
      · exact .inr (.inl rfl)
  case testReaders =>
    refine ⟨rfl, ?_, ?_, .inl ⟨_, rfl⟩⟩ <;> simp only [holdStep] <;> split_ifs <;>
      simp [inRead, inWrite]
  case testWriters =>
    refine ⟨rfl, ?_, ?_, .inl ⟨_, rfl⟩⟩ <;> simp only [holdStep] <;> split_ifs <;>
      simp [inRead, inWrite]
  case fetchFd =>
    refine ⟨rfl, ?_, ?_, .inl ⟨_, rfl⟩⟩ <;> simp only [holdStep] <;> split_ifs <;>
      simp [inRead, inWrite]
  case unlinkName => exact ⟨rfl, by simp [holdStep, inRead], by simp [holdStep, inWrite],
    .inr (.inr ⟨rfl, rfl⟩)⟩
  case readerDec => exact ⟨rfl, by simp [holdStep, inRead, one]; omega,
    by simp [holdStep, inWrite], .inr (.inl rfl)⟩
  all_goals exact ⟨rfl, by simp [holdStep, inRead, one], by simp [holdStep, inWrite],
    .inl ⟨_, rfl⟩⟩

theorem HoldSpec.not_adds {k : ℤ} {e : Entry} {st : Hold} {r : Entry × Pc}
    (h : HoldSpec k e st r) : ¬ Adds r.2 := by
  rcases h.next with ⟨st', hn⟩ | hn | ⟨hn, -⟩ <;> rw [hn] <;> exact id

theorem HoldSpec.not_beyond {k j : ℤ} {e : Entry} {st : Hold} {r : Entry × Pc}
    (h : HoldSpec k e st r) (hkj : k < j) : ¬ Beyond j r.2 := by
  rcases h.next with ⟨st', hn⟩ | hn | ⟨hn, -⟩ <;> rw [hn] <;> simp [Beyond, hkj]

section Held

variable {s : State n} (h : Consistent s) {p : Fin n} {k : ℤ} {st : Hold} {r : Entry × Pc}
  (hp : (s.children p).pc = .hold k st) (hr : HoldSpec k (s.table k) st r)

include hr in
theorem hold_names (a : ℤ) : ((s.store k r.1).table a).name = (s.table a).name := by
  by_cases ha : a = k
  · subst ha
    simp [State.store, hr.name]
  · simp [State.store, ha]

include h hp hr

theorem hold_counted {a : ℤ} (ha : 0 ≤ a) (han : a < s.numFiles) :
    Counted ((s.store k r.1).goto p r.2) ((s.store k r.1).table a) := by
  have hfile := (h.named p k st hp).2.2
  have hc := h.counted a ha han
  have hsec (sec : Pc → Bool) (file : Bytes) : tally (inSection sec file)
      ((s.store k r.1).goto p r.2).children = tally (inSection sec file) s.children +
        if (s.children p).call.file = file then one (sec r.2) - one (sec (.hold k st))
        else 0 := by
    rw [tally_goto, ← hp]
    rfl
  unfold Counted
  rw [hold_names hr a, hsec, hsec]
  by_cases hak : a = k
  · subst hak
    rw [if_pos hfile.symm, if_pos hfile.symm, ← hc.1, ← hc.2]
    simp only [State.store, Function.update_self]
    exact ⟨hr.readers, hr.writers⟩
  · have hne := h.unique hp ha han hak
    rw [hfile] at hne
    rw [if_neg (Ne.symm hne), if_neg (Ne.symm hne), add_zero, add_zero]
    simp only [State.store, Function.update_of_ne hak]
    exact hc

theorem hold_shifting {q : Fin n} {j i : ℤ} {sh : Shift} (hq : (s.children q).pc = .shift j i sh) :
    0 ≤ j ∧ j ≤ i ∧ i < s.numFiles ∧ Shifted ((s.store k r.1).goto p r.2) i sh ∧
      ∀ q', q' ≠ q → ¬ Beyond j (((s.store k r.1).goto p r.2).children q').pc := by
  obtain ⟨hj, hji, hin, hsh, hbey⟩ := h.shifting q j i sh hq
  have hkj := h.hold_below hp hq
  refine ⟨hj, hji, hin, ?_, others_goto (¬ Beyond j ·) (fun _ => hr.not_beyond hkj) hbey⟩
  cases sh with
  | store e =>
    refine ⟨hsh.1, hsh.2.trans ?_⟩
    simp only [goto_table, State.store]
    rw [Function.update_of_ne (by omega)]
  | _ => exact hsh

theorem hold_adding {q : Fin n} {j : ℤ} {ad : Add} (hq : (s.children q).pc = .add j ad) :
    j = s.numFiles ∧ Filled (s.children q).call.file ((s.store k r.1).table j) ad ∧
      (∀ i, 0 ≤ i → i < s.numFiles →
        ((s.store k r.1).table i).name ≠ (s.children q).call.file) ∧
      ∀ q', q' ≠ q → ¬ Adds (((s.store k r.1).goto p r.2).children q').pc := by
  have hkn := (h.named p k st hp).2.1
  obtain ⟨rfl, hfill, habs, hadd⟩ := h.adding q j ad hq
  refine ⟨rfl, ?_, fun i hi hin => by rw [hold_names hr i]; exact habs i hi hin,
    others_goto (¬ Adds ·) (fun _ => hr.not_adds) hadd⟩
  simp only [State.store]
  rwa [Function.update_of_ne (by omega)]

/-- An access through a held index. -/
theorem hold_inv (hg : st = .unlinkName → ∀ q, q ≠ p → ¬ Beyond k (s.children q).pc) :
    Consistent ((s.store k r.1).goto p r.2) := by
  obtain ⟨hk, hkn, hfile⟩ := h.named p k st hp
  constructor
  case looking =>
    refine looking_goto h.looking (fun i hn => ?_)
    rcases hr.next with ⟨st', he⟩ | he | ⟨he, -⟩ <;> rw [he] at hn <;> simp at hn
  case named =>
    intro q j st' hq
    rw [goto_call, goto_table, hold_names hr j]
    rcases goto_pc hq with ⟨rfl, hn⟩ | ⟨-, hq⟩
    · rcases hr.next with ⟨st'', he⟩ | he | ⟨he, -⟩ <;> rw [he] at hn <;> cases hn
      exact ⟨hk, hkn, hfile⟩
    · exact h.named q j st' hq
  case counted => exact fun a ha han => hold_counted h hp hr ha han
  case distinct =>
    intro a b ha hab hbn heq
    rw [goto_table, hold_names hr a, hold_names hr b] at heq
    obtain ⟨q, j, sh, hq, hj⟩ := h.distinct a b ha hab hbn heq
    have hqp : q ≠ p := by
      rintro rfl
      rw [hp] at hq
      cases hq
    exact ⟨q, j, sh, by rw [goto_other _ _ hqp, store_children, hq], hj⟩
  case shifting =>
    intro q j i sh hq
    rcases goto_pc hq with ⟨rfl, hn⟩ | ⟨-, hq⟩
    · rcases hr.next with ⟨st', he⟩ | he | ⟨he, hst⟩ <;> rw [he] at hn <;> cases hn
      exact ⟨hk, le_refl k, hkn, trivial,
        others_goto (¬ Beyond k ·) (fun hne => absurd rfl hne) (hg hst)⟩
    · exact hold_shifting h hp hr hq
  case adding =>
    intro q j ad hq
    rcases goto_pc hq with ⟨rfl, hn⟩ | ⟨-, hq⟩
    · exact absurd hn (not_adding hr.not_adds j ad)
    · rw [goto_call]
      exact hold_adding h hp hr hq

end Held

theorem goto_inv {s : State n} (h : Consistent s) (p : Fin n) (pc : Pc)
    (hr : inRead pc = false ∧ inRead (s.children p).pc = false)
    (hw : inWrite pc = false ∧ inWrite (s.children p).pc = false)
    (hlook : ∀ i, pc = .look i ∨ pc = .compare i → 0 ≤ i)
    (hhold : ∀ k st, pc = .hold k st →
      0 ≤ k ∧ k < s.numFiles ∧ (s.table k).name = (s.children p).call.file)
    (hshift : ∀ k i st, pc = .shift k i st → Shifted s i st ∧ ∃ st',
      (s.children p).pc = .shift k i st')
    (hadd : ∀ k st, pc = .add k st → k = s.numFiles ∧ st = .setName ∧
      (∀ i, 0 ≤ i → i < s.numFiles → (s.table i).name ≠ (s.children p).call.file) ∧
      ∀ q, q ≠ p → ¬ Adds (s.children q).pc)
    (hkeep : ∀ k i st, (s.children p).pc = .shift k i st → ∃ st', pc = .shift k i st')
    (hbeyond : ∀ q k i st, q ≠ p → (s.children q).pc = .shift k i st → ¬ Beyond k pc)
    (hadds : ∀ q, q ≠ p → Adds (s.children q).pc → ¬ Adds pc) : Consistent (s.goto p pc) := by
  constructor
  case looking =>
    exact looking_goto h.looking hlook
  case named =>
    intro q k st hq
    rw [goto_call]
    rcases goto_pc hq with ⟨rfl, hn⟩ | ⟨-, hq⟩
    · exact hhold k st hn
    · exact h.named q k st hq
  case counted =>
    intro a ha han
    unfold Counted
    rw [tally_outside _ s p hr.1 hr.2, tally_outside _ s p hw.1 hw.2]
    exact h.counted a ha han
  case distinct =>
    intro a b ha hab hbn heq
    obtain ⟨q, k, st, hq, hk⟩ := h.distinct a b ha hab hbn heq
    by_cases hqp : q = p
    · subst hqp
      obtain ⟨st', hst'⟩ := hkeep k b st hq
      exact ⟨q, k, st', by rw [goto_self]; exact hst', hk⟩
    · exact ⟨q, k, st, by rw [goto_other s pc hqp, hq], hk⟩
  case shifting =>
    intro q k i st hq
    rcases goto_pc hq with ⟨rfl, hn⟩ | ⟨hqp, hq⟩
    · obtain ⟨hsh, st', hst'⟩ := hshift k i st hn
      obtain ⟨hk, hki, hin, -, hbey⟩ := h.shifting q k i st' hst'
      exact ⟨hk, hki, hin, hsh, others_goto (¬ Beyond k ·) (fun hne => absurd rfl hne) hbey⟩
    · obtain ⟨hk, hki, hin, hsh, hbey⟩ := h.shifting q k i st hq
      exact ⟨hk, hki, hin, hsh,
        others_goto (¬ Beyond k ·) (fun _ => hbeyond q k i st hqp hq) hbey⟩
  case adding =>
    intro q k st hq
    rw [goto_call]
    rcases goto_pc hq with ⟨rfl, hn⟩ | ⟨hqp, hq⟩
    · obtain ⟨hk, rfl, habs, hnone⟩ := hadd k st hn
      exact ⟨hk, trivial, habs, others_goto (¬ Adds ·) (fun hne => absurd rfl hne) hnone⟩
    · obtain ⟨hk, hfill, habs, hnone⟩ := h.adding q k st hq
      exact ⟨hk, hfill, habs,
        others_goto (¬ Adds ·) (fun _ => hadds q hqp (by rw [hq]; trivial)) hnone⟩

section Alone

variable {s : State n} {p : Fin n} {pc : Pc}

theorem nobody_adding (hpc : ¬ Adds pc) (hnone : ∀ q, q ≠ p → ¬ Adds (s.children q).pc)
    (q : Fin n) (j : ℤ) (st : Add) : ((s.goto p pc).children q).pc ≠ .add j st := by
  intro hq
  rcases goto_pc hq with ⟨-, hn⟩ | ⟨hqp, hq⟩
  · exact not_adding hpc j st hn
  · exact not_adding (hnone q hqp) j st hq

theorem nobody_shifting (hpc : ∀ j i st, pc ≠ .shift j i st)
    (hnone : ∀ q, q ≠ p → ∀ j i st, (s.children q).pc ≠ .shift j i st)
    (q : Fin n) (j i : ℤ) (st : Shift) : ((s.goto p pc).children q).pc ≠ .shift j i st := by
  intro hq
  rcases goto_pc hq with ⟨-, hn⟩ | ⟨hqp, hq⟩
  · exact hpc j i st hn
  · exact hnone q hqp j i st hq

end Alone

theorem store_inv {s : State n} (h : Consistent s) (p : Fin n) {k i : ℤ} {e : Entry}
    (hp : (s.children p).pc = .shift k i (.store e)) :
    Consistent ((s.store i e).goto p (.shift k (i+1) .test)) := by
  obtain ⟨hk, hki, hin, ⟨hnext, rfl⟩, hbey⟩ := h.shifting p k i _ hp
  have htable (a : ℤ) : ((s.store i (s.table (i+1))).goto p (.shift k (i+1) .test)).table a =
      if a = i then s.table (i+1) else s.table a := by
    by_cases ha : a = i <;> simp [State.store, ha]
  constructor
  case looking =>
    exact looking_goto h.looking (fun _ hn => by simp at hn)
  case named =>
    intro q j st hq
    rcases goto_pc hq with ⟨-, hn⟩ | ⟨hqp, hq⟩
    · cases hn
    · have hj := (h.alone hp hqp).2.1 j st hq
      rw [htable, if_neg (by omega), goto_call]
      exact h.named q j st hq
  case counted =>
    intro a ha han
    unfold Counted
    rw [htable, tally_outside _ _ p rfl (by rw [store_children, hp]; rfl),
      tally_outside _ _ p rfl (by rw [store_children, hp]; rfl)]
    split_ifs with hai
    · exact h.counted (i+1) (by omega) hnext
    · exact h.counted a ha han
  case distinct =>
    intro a b ha hab hbn heq
    rw [htable, htable] at heq
    -- the doubled name moves with the shift
    have hole {c d : ℤ} (hc : 0 ≤ c) (hcd : c < d) (hdn : d < s.numFiles)
        (hne : d ≠ i) : (s.table c).name ≠ (s.table d).name :=
      fun heq => hne (h.doubled hp hc hcd hdn heq)
    split_ifs at heq with hai hbi hbi
    · omega
    · subst hai
      by_cases hb : b = a+1
      · subst hb
        exact ⟨p, k, .test, by rw [goto_self], by omega⟩
      · exact absurd heq (hole (by omega) (by omega) hbn hbi)
    · exact absurd heq (hole ha (by omega) hnext (by omega))
    · exact absurd heq (hole ha hab hbn hbi)
  case shifting =>
    intro q j i' st hq
    rcases goto_pc hq with ⟨rfl, hn⟩ | ⟨hqp, hq⟩
    · cases hn
      exact ⟨hk, by omega, hnext, trivial,
        others_goto (¬ Beyond k ·) (fun hne => absurd rfl hne) hbey⟩
    · exact absurd hq ((h.alone hp hqp).2.2 j i' st)
  case adding =>
    intro q j st hq
    exact absurd hq (nobody_adding id (fun q hqp => (h.alone hp hqp).1) q j st)

/-- The end of a shift drops the doubled entry. -/
theorem dec_inv {s : State n} (h : Consistent s) (p : Fin n) {k i : ℤ}
    (hp : (s.children p).pc = .shift k i .numDec) :
    Consistent ({ s with numFiles := s.numFiles-1 }.goto p .done) := by
  obtain ⟨hk, hki, hin, hlast, hbey⟩ := h.shifting p k i _ hp
  rw [Shifted] at hlast
  constructor
  case looking =>
    exact looking_goto h.looking (fun _ hn => by simp at hn)
  case named =>
    intro q j st hq
    rcases goto_pc hq with ⟨-, hn⟩ | ⟨hqp, hq⟩
    · cases hn
    · have hj := (h.alone hp hqp).2.1 j st hq
      obtain ⟨hj0, -, hjf⟩ := h.named q j st hq
      rw [goto_call, goto_numFiles]
      exact ⟨hj0, by dsimp only; omega, hjf⟩
  case counted =>
    intro a ha han
    rw [goto_numFiles] at han
    dsimp only at han
    unfold Counted
    rw [tally_outside _ _ p rfl (by rw [hp]; rfl), tally_outside _ _ p rfl (by rw [hp]; rfl)]
    exact h.counted a ha (by omega)
  case distinct =>
    intro a b ha hab hbn heq
    rw [goto_numFiles] at hbn
    dsimp only at hbn
    have hb := h.doubled hp ha hab (by omega) heq
    omega
  case shifting =>
    intro q j i' st hq
    refine absurd hq (nobody_shifting ?_ (fun q hqp => (h.alone hp hqp).2.2) q j i' st)
    intro j i' st hn
    cases hn
  case adding =>
    intro q j st hq
    exact absurd hq (nobody_adding id (fun q hqp => (h.alone hp hqp).1) q j st)

theorem addStep_filled (c : Call) (v : ℤ) (e : Entry) (st : Add) (h : Filled c.file e st) :
    Filled c.file (addStep c v e st).1 (addStep c v e st).2 := by
  cases st
  case setName => rfl
  case setFd => exact h
  case setReaders => exact ⟨h, rfl⟩
  case setWriters => exact ⟨h.1, h.2, rfl⟩
  case receive =>
    unfold addStep
    split_ifs <;> exact h
  all_goals exact h

theorem add_inv {s : State n} (h : Consistent s) (p : Fin n) {k : ℤ} {st : Add} (e : Entry)
    (st' : Add) (hp : (s.children p).pc = .add k st)
    (hfill : Filled (s.children p).call.file e st') :
    Consistent ((s.store k e).goto p (.add k st')) := by
  obtain ⟨hkn, -, habs, hnone⟩ := h.adding p k st hp
  have hadds : Adds (s.children p).pc := by rw [hp]; trivial
  have hlive {a : ℤ} (ha : a < s.numFiles) :
      ((s.store k e).goto p (.add k st')).table a = s.table a := by
    rw [goto_table, State.store]
    exact Function.update_of_ne (by omega) _ _
  constructor
  case looking =>
    exact looking_goto h.looking (fun _ hn => by simp at hn)
  case named =>
    intro q j sh hq
    rcases goto_pc hq with ⟨-, hn⟩ | ⟨-, hq⟩
    · cases hn
    · obtain ⟨hj, hjn, hjf⟩ := h.named q j sh hq
      exact ⟨hj, hjn, by rw [hlive hjn, goto_call]; exact hjf⟩
  case counted =>
    intro a ha han
    unfold Counted
    rw [hlive han, tally_outside _ _ p rfl (by rw [store_children, hp]; rfl),
      tally_outside _ _ p rfl (by rw [store_children, hp]; rfl)]
    exact h.counted a ha han
  case distinct =>
    intro a b ha hab hbn heq
    rw [hlive (by rw [goto_numFiles] at hbn; exact lt_trans hab hbn), hlive hbn] at heq
    obtain ⟨q, j, sh, hq, -⟩ := h.distinct a b ha hab hbn heq
    exact absurd hq (h.no_shift hadds q j b sh)
  case shifting =>
    intro q j i sh hq
    refine absurd hq (nobody_shifting ?_ (fun q _ => h.no_shift hadds q) q j i sh)
    intro j i sh hn
    cases hn
  case adding =>
    intro q j sh hq
    rcases goto_pc hq with ⟨rfl, hn⟩ | ⟨hqp, hq⟩
    · cases hn
      rw [goto_call, goto_table, State.store]
      refine ⟨hkn, ?_, fun i hi hin => ?_, others_goto (¬ Adds ·) (fun hne => absurd rfl hne) hnone⟩
      · dsimp only
        rwa [Function.update_self]
      · dsimp only
        rw [Function.update_of_ne (by rw [goto_numFiles] at hin; dsimp only at hin; omega)]
        exact habs i hi hin
    · exact absurd hq (not_adding (hnone q hqp) j sh)

theorem inc_inv {s : State n} (h : Consistent s) (p : Fin n) {k : ℤ}
    (hp : (s.children p).pc = .add k .numInc) :
    Consistent ({ s with numFiles := s.numFiles+1 }.goto p .done) := by
  obtain ⟨rfl, ⟨hname, hreaders, hwriters⟩, habs, hnone⟩ := h.adding p k _ hp
  have hadds : Adds (s.children p).pc := by rw [hp]; trivial
  -- nobody is in a section of the file that was just added
  have hempty (sec : Pc → Bool) (hs : ∀ pc, sec pc = true → ∃ j st, pc = .hold j st) :
      tally (inSection sec (s.children p).call.file) s.children = 0 := by
    refine tally_zero _ _ (fun q => ?_)
    by_contra hq
    simp only [inSection, Bool.and_eq_true, decide_eq_true_eq, Bool.not_eq_false] at hq
    obtain ⟨j, st, hj⟩ := hs _ hq.2
    obtain ⟨hj0, hjn, hjf⟩ := h.named q j st hj
    exact habs j hj0 hjn (hjf.trans hq.1)
  constructor
  case looking =>
    exact looking_goto h.looking (fun _ hn => by simp at hn)
  case named =>
    intro q j st hq
    rcases goto_pc hq with ⟨-, hn⟩ | ⟨-, hq⟩
    · cases hn
    · obtain ⟨hj, hjn, hjf⟩ := h.named q j st hq
      rw [goto_call, goto_numFiles]
      exact ⟨hj, by dsimp only; omega, hjf⟩
  case counted =>
    intro a ha han
    rw [goto_numFiles] at han
    dsimp only at han
    unfold Counted
    rw [tally_outside _ _ p rfl (by rw [hp]; rfl), tally_outside _ _ p rfl (by rw [hp]; rfl)]
    by_cases hak : a = s.numFiles
    · subst hak
      rw [goto_table]
      dsimp only
      rw [hname, hempty inRead (fun pc => inRead_hold), hempty inWrite (fun pc => inWrite_hold)]
      exact ⟨hreaders, hwriters⟩
    · exact h.counted a ha (by omega)
  case distinct =>
    intro a b ha hab hbn heq
    rw [goto_numFiles] at hbn
    dsimp only at hbn
    rw [goto_table] at heq
    dsimp only at heq
    by_cases hbk : b = s.numFiles
    · subst hbk
      exact absurd (heq.trans hname) (habs a ha hab)
    · obtain ⟨q, j, sh, hq, -⟩ := h.distinct a b ha hab (by omega) heq
      exact absurd hq (h.no_shift hadds q j b sh)
  case shifting =>
    intro q j i sh hq
    refine absurd hq (nobody_shifting ?_ (fun q _ => h.no_shift hadds q) q j i sh)
    intro j i sh hn
    cases hn
  case adding =>
    intro q j sh hq
    exact absurd hq (nobody_adding id hnone q j sh)

theorem look_inv {s : State n} (h : Consistent s) (p : Fin n) {i : ℤ} (pc : Pc)
    (hp : (s.children p).pc = .look i ∨ (s.children p).pc = .compare i)
    (hpc : (∃ j, 0 ≤ j ∧ (pc = .look j ∨ pc = .compare j)) ∨ pc = .pick ∨ pc = .done) :
    Consistent (s.goto p pc) := by
  apply goto_inv h p pc
  · constructor
    · rcases hpc with ⟨j, -, rfl | rfl⟩ | rfl | rfl <;> rfl
    · rcases hp with hp | hp <;> rw [hp] <;> rfl
  · constructor
    · rcases hpc with ⟨j, -, rfl | rfl⟩ | rfl | rfl <;> rfl
    · rcases hp with hp | hp <;> rw [hp] <;> rfl
  · intro k hk
    rcases hpc with ⟨j, hj, rfl | rfl⟩ | rfl | rfl <;> simp at hk <;> omega
  · rintro k st rfl
    simp at hpc
  · rintro k j st rfl
    simp at hpc
  · rintro k st rfl
    simp at hpc
  · intro k j st hs
    rcases hp with hp | hp <;> rw [hp] at hs <;> cases hs
  · intro q k j st _ _ hb
    rcases hpc with ⟨j, -, rfl | rfl⟩ | rfl | rfl <;> exact hb
  · intro q _ _ hadd
    rcases hpc with ⟨j, -, rfl | rfl⟩ | rfl | rfl <;> exact hadd

theorem found_inv {s : State n} (h : Consistent s) (p : Fin n) {i : ℤ} {st : Hold}
    (hp : (s.children p).pc = .compare i) (hst : st = .readerInc ∨ st = .testReaders)
    (hname : (s.table i).name = (s.children p).call.file) (hi : i < s.numFiles)
    (hfree : ∀ q, ¬ Shifts i (s.children q).pc) : Consistent (s.goto p (.hold i st)) := by
  have hi0 := h.looking p i (.inr hp)
  apply goto_inv h p (.hold i st)
  · rw [hp]
    rcases hst with rfl | rfl <;> exact ⟨rfl, rfl⟩
  · rw [hp]
    rcases hst with rfl | rfl <;> exact ⟨rfl, rfl⟩
  · intro k hk
    simp at hk
  · rintro k st' hk
    cases hk
    exact ⟨hi0, hi, hname⟩
  · intro k j st' hk
    cases hk
  · intro k st' hk
    cases hk
  · intro k j st' hk
    rw [hp] at hk
    cases hk
  · intro q k j st' _ hq hb
    have := hfree q
    rw [hq] at this
    exact this hb
  · exact fun _ _ _ hadd => hadd

theorem shift_inv {s : State n} (h : Consistent s) (p : Fin n) {k i : ℤ} {st : Shift}
    (hp : (s.children p).pc = .shift k i st) : Consistent (shiftStep p k i s st) := by
  obtain ⟨-, -, hin, hsh, -⟩ := h.shifting p k i st hp
  have move (st' : Shift) (hst' : Shifted s i st') : Consistent (s.goto p (.shift k i st')) := by
    apply goto_inv h p (.shift k i st')
    · rw [hp]
      exact ⟨rfl, rfl⟩
    · rw [hp]
      exact ⟨rfl, rfl⟩
    · intro j hj
      simp at hj
    · intro j st'' hj
      cases hj
    · intro j i' st'' hj
      cases hj
      exact ⟨hst', st, hp⟩
    · intro j st'' hj
      cases hj
    · intro j i' st'' hj
      rw [hp] at hj
      cases hj
      exact ⟨st', rfl⟩
    · exact fun q j i' st'' hq hj => absurd hj ((h.alone hp hq).2.2 j i' st'')
    · exact fun q hq hadd => absurd hadd (h.alone hp hq).1
  cases st with
  | test =>
    unfold shiftStep
    split_ifs with hlast
    · exact move .load (by rw [Shifted]; omega)
    · exact move .numDec (by rw [Shifted]; omega)
  | load => exact move (.store (s.table (i+1))) ⟨hsh, rfl⟩
  | store e => exact store_inv h p hp
  | numDec => exact dec_inv h p hp

theorem pick_inv {s : State n} (h : Consistent s) (p : Fin n) (hp : (s.children p).pc = .pick)
    (hfree : ∀ q, ¬ Adds (s.children q).pc ∧ ¬ Shifts s.numFiles (s.children q).pc)
    (habs : ∀ i, 0 ≤ i → i < s.numFiles → (s.table i).name ≠ (s.children p).call.file) :
    Consistent (s.goto p (.add s.numFiles .setName)) := by
  apply goto_inv h p _
  · rw [hp]
    exact ⟨rfl, rfl⟩
  · rw [hp]
    exact ⟨rfl, rfl⟩
  · intro j hj
    simp at hj
  · intro j st hj
    cases hj
  · intro j i st hj
    cases hj
  · intro j st hj
    cases hj
    exact ⟨rfl, rfl, habs, fun q _ => (hfree q).1⟩
  · intro j i st hj
    rw [hp] at hj
    cases hj
  · intro q j i st _ hq
    obtain ⟨-, hji, hin, -⟩ := h.shifting q j i st hq
    have := (hfree q).2
    rw [hq, Shifts] at this
    omega
  · exact fun q _ hadd => absurd hadd (hfree q).1

/-- A move of a child enters a section only by the increment of its counter. -/
structure Enters (old new : Pc) : Prop where
  read : inRead new = true → inRead old = true ∨ ∃ k, old = .hold k .readerInc
  write : inWrite new = true → inWrite old = true ∨ ∃ k, old = .hold k .writerInc

theorem Enters.of_outside {old new : Pc} (hr : inRead new = false) (hw : inWrite new = false) :
    Enters old new :=
  ⟨fun h => absurd h (by simp [hr]), fun h => absurd h (by simp [hw])⟩

theorem missing_enters (c : Call) (old : Pc) : Enters old c.missing := by
  unfold Call.missing
  split_ifs <;> exact .of_outside rfl rfl

theorem found_enters (c : Call) (i : ℤ) (old : Pc) : Enters old (c.found i) := by
  unfold Call.found
  cases c.operation <;> exact .of_outside rfl rfl

theorem leave_enters (c : Call) (k : ℤ) (old : Pc) : Enters old (c.leave k) := by
  unfold Call.leave
  split_ifs <;> exact .of_outside rfl rfl

theorem holdStep_enters (c : Call) (v k : ℤ) (e : Entry) (st : Hold) :
    Enters (.hold k st) (holdStep c v k e st).2 := by
  cases st with
  | readerInc => exact ⟨fun _ => .inr ⟨k, rfl⟩, nofun⟩
  | readFd => exact ⟨fun _ => .inl rfl, nofun⟩
  | writerInc =>
    refine ⟨fun h => ?_, fun _ => .inr ⟨k, rfl⟩⟩
    unfold holdStep Call.enter at h
    split_ifs at h <;> cases h
  | writerDec => exact leave_enters c k _
  | testReaders =>
    unfold holdStep
    split_ifs <;> exact .of_outside rfl rfl
  | testWriters =>
    unfold holdStep
    split_ifs <;> exact .of_outside rfl rfl
  | fetchFd =>
    unfold holdStep
    split_ifs <;> exact ⟨nofun, fun _ => .inl rfl⟩
  | readerDec => exact .of_outside rfl rfl
  | closeFd => exact .of_outside rfl rfl
  | unlinkName => exact .of_outside rfl rfl
  | _ => exact ⟨nofun, fun _ => .inl rfl⟩

theorem access_moves {a : Act n} {s t : State n} (hstep : access a s = some t) :
    ∃ pc, t.children = (s.goto a.child pc).children ∧ Enters (s.children a.child).pc pc := by
  unfold access at hstep
  dsimp only at hstep
  cases hpc : (s.children a.child).pc <;> rw [hpc] at hstep
  case look i =>
    cases hstep
    refine ⟨_, rfl, ?_⟩
    split_ifs
    · exact .of_outside rfl rfl
    · exact missing_enters _ _
  case compare i =>
    cases hstep
    refine ⟨_, rfl, ?_⟩
    split_ifs
    · exact found_enters _ _ _
    · exact .of_outside rfl rfl
  case hold k st =>
    cases hstep
    exact ⟨_, rfl, holdStep_enters _ _ _ _ _⟩
  case shift k i st =>
    cases hstep
    cases st <;> exact ⟨_, rfl, .of_outside rfl rfl⟩
  case pick =>
    cases hstep
    exact ⟨_, rfl, .of_outside rfl rfl⟩
  case add k st => cases st <;> cases hstep <;> exact ⟨_, rfl, .of_outside rfl rfl⟩
  case done => cases hstep

theorem access_inv {s t : State n} (h : Consistent s) (a : Act n) (hg : Steady a s)
    (hstep : access a s = some t) : Consistent t := by
  obtain ⟨p, v⟩ := a
  simp only [access] at hstep
  simp only [Steady] at hg
  cases hp : (s.children p).pc <;> rw [hp] at hstep hg
  case look i =>
    cases hstep
    have hi := h.looking p i (.inl hp)
    refine look_inv h p _ (.inl hp) ?_
    split_ifs
    · exact .inl ⟨i, hi, .inr rfl⟩
    · unfold Call.missing
      split_ifs
      · exact .inr (.inl rfl)
      · exact .inr (.inr rfl)
  case compare i =>
    cases hstep
    have hi := h.looking p i (.inr hp)
    split_ifs with hname
    · unfold Call.found
      cases hop : (s.children p).call.operation <;> rw [hop] at hg
      case uploadFile => exact look_inv h p _ (.inr hp) (.inr (.inr rfl))
      case readFile =>
        obtain ⟨hin, hfree⟩ := hg (by decide) hname
        exact found_inv h p hp (.inl rfl) hname hin hfree
      all_goals
        obtain ⟨hin, hfree⟩ := hg (by decide) hname
        exact found_inv h p hp (.inr rfl) hname hin hfree
    · exact look_inv h p _ (.inr hp) (.inl ⟨i+1, by omega, .inl rfl⟩)
  case hold k st =>
    cases hstep
    refine hold_inv h hp (holdStep_spec _ v k _ st) ?_
    rintro rfl
    exact hg
  case shift k i st =>
    cases hstep
    exact shift_inv h p hp
  case pick =>
    cases hstep
    exact pick_inv h p hp hg.1 hg.2
  case add k st =>
    have hfill := (h.adding p k st hp).2.1
    cases st
    case numInc =>
      cases hstep
      exact inc_inv h p hp
    all_goals
      cases hstep
      exact add_inv h p _ _ hp (addStep_filled _ v _ _ hfill)
  case done => cases hstep

theorem step_inv {s t : State n} (h : Consistent s) (a : Act n) (hg : Steady a s)
    (hstep : step a s = some t) : Consistent t := by
  obtain ⟨-, ⟨-, rfl⟩ | ⟨-, haccess⟩⟩ := step_cases hstep
  · exact h.kill a.child
  · exact access_inv h a hg haccess

end CSE344.TableSteps
