import SystemProgramming.AppendMeMore
import SystemProgramming.Rounds

/-!
# The lengths that concurrent runs of appendMeMore can leave

A file can get as short as the longest run with `x`, or all those without
together, make it, and as long as all runs together; each length between the two
comes out under some schedule. The calls go in rounds: all who take part seek,
then they write, and of those who append by themselves one at most.
-/

set_option autoImplicit false

namespace CSE344.AppendLengths
open CString FileBytes TransitionRun AppendMeMore Rounds

variable {k : ℕ} {cfg : Config k} {initial : Bytes} {m e : ℕ} {c : Fin k → ℕ}
  {g : Finset (Fin k)} {s : State k}

/-- The processes without `x`, whose writes never fall on one another. -/
def Appending (cfg : Config k) (p : Fin k) : Prop := cfg.mode p = .append

instance (cfg : Config k) : DecidablePred (Appending cfg) :=
  fun p => inferInstanceAs (Decidable (cfg.mode p = .append))

/-- Behind the initial bytes there are `m` letters and `c` are still to be
written, by those of `g` first at the letter `e`. -/
structure Poised (cfg : Config k) (initial : Bytes) (m : ℕ) (c : Fin k → ℕ) (g : Finset (Fin k))
    (e : ℕ) (s : State k) : Prop where
  file : s.file = initial ++ List.replicate m letter
  nonneg : ∀ p, 0 ≤ (s.procs p).i
  left : ∀ p, (s.procs p).i+c p = cfg.numBytes p
  sought : ∀ p, (s.procs p).sought = true ↔ p ∈ g
  offset : ∀ p ∈ g, (s.procs p).offset = initial.length+e

theorem poised_init (cfg : Config k) (initial : Bytes) :
    Poised cfg initial 0 cfg.numBytes ∅ 0 (init initial) where
  file := by simp [init]
  nonneg _ := le_refl _
  left p := by simp [init]
  sought p := by simp [init]
  offset p hp := by simp at hp

theorem Poised.lt (h : Poised cfg initial m c g e s) {p : Fin k} (hp : 0 < c p) :
    (s.procs p).i < cfg.numBytes p := by
  have := h.left p
  omega

theorem Poised.length (h : Poised cfg initial m c g e s) : s.file.length = initial.length+m := by
  rw [h.file, List.length_append, List.length_replicate]

theorem Poised.lseek (h : Poised cfg initial m c g m s) {p : Fin k} (hx : cfg.mode p = .x)
    (hc : 0 < c p) (hp : p ∉ g) :
    ∃ t, step cfg (.lseek p) s = some t ∧ Poised cfg initial m c (insert p g) m t := by
  have hsought : (s.procs p).sought = false := by
    rw [← Bool.not_eq_true, h.sought p]
    exact hp
  refine ⟨_, if_pos ⟨h.lt hc, hx, hsought⟩, h.file, fun r => ?_, fun r => ?_, fun r => ?_,
    fun r hr => ?_⟩ <;> by_cases hrp : r = p
  · simpa [State.set, hrp] using h.nonneg p
  · simpa [State.set, hrp] using h.nonneg r
  · simpa [State.set, hrp] using h.left p
  · simpa [State.set, hrp] using h.left r
  · simp [State.set, hrp]
  · simpa [State.set, hrp] using h.sought r
  · simp [State.set, hrp, h.length]
  · have hr := (Finset.mem_insert.mp hr).resolve_left hrp
    simpa [State.set, hrp] using h.offset r hr

theorem Poised.write (hn : ∀ p, cfg.numBytes p < 2^31) (h : Poised cfg initial m c g e s)
    {p : Fin k} (hc : 0 < c p) {j : ℕ} (hj : j ≤ m) :
    Poised cfg initial (max m (j+1)) (without c {p}) (g.erase p) e
      (writeOne p (initial.length+j) s) := by
  have hinc := increment_eq (h.nonneg p) (h.lt hc) (hn p)
  refine ⟨?_, fun r => ?_, fun r => ?_, fun r => ?_, fun r hr => ?_⟩
  · show writeAt _ _ s.file = _
    rw [h.file, writeAt_grown initial m j hj]
  all_goals by_cases hrp : r = p
  · have := h.nonneg p
    simp only [writeOne, hrp, Function.update_self, hinc]
    omega
  · simpa [writeOne, hrp] using h.nonneg r
  · have := h.left p
    simp only [writeOne, hrp, Function.update_self, hinc,
      without_of_mem (Finset.mem_singleton_self p)]
    omega
  · have hr : r ∉ ({p} : Finset (Fin k)) := by simpa using hrp
    simpa [writeOne, hrp, without_of_notMem hr] using h.left r
  · simp [writeOne, hrp]
  · simpa [writeOne, hrp] using h.sought r
  · simp [hrp] at hr
  · simpa [writeOne, hrp] using h.offset r (Finset.mem_of_mem_erase hr)

theorem Poised.write_x (hn : ∀ p, cfg.numBytes p < 2^31) (h : Poised cfg initial m c g e s)
    (he : e ≤ m) {p : Fin k} (hx : cfg.mode p = .x) (hc : 0 < c p) (hp : p ∈ g) :
    ∃ t, step cfg (.write p) s = some t ∧
      Poised cfg initial (max m (e+1)) (without c {p}) (g.erase p) e t := by
  refine ⟨_, ?_, h.write hn hc he⟩
  rw [step, if_pos (h.lt hc), hx]
  dsimp only
  rw [if_pos ((h.sought p).mpr hp), h.offset p hp]

theorem Poised.write_append (hn : ∀ p, cfg.numBytes p < 2^31) (h : Poised cfg initial m c g e s)
    {p : Fin k} (happend : cfg.mode p = .append) (hc : 0 < c p) (hp : p ∉ g) :
    ∃ t, step cfg (.write p) s = some t ∧
      Poised cfg initial (m+1) (without c {p}) g e t := by
  have hwrite := h.write hn hc (le_refl m)
  rw [Finset.erase_eq_of_notMem hp, Nat.max_eq_right (Nat.le_succ m)] at hwrite
  refine ⟨_, ?_, hwrite⟩
  rw [step, if_pos (h.lt hc), happend, h.length]

theorem seeks_run (x : Finset (Fin k)) (hx : ∀ p ∈ x, cfg.mode p = .x ∧ 0 < c p)
    (h : Poised cfg initial m c ∅ e s) :
    ∃ as t, run (step cfg) as s = some t ∧ Poised cfg initial m c x m t := by
  induction x using Finset.induction_on with
  | empty =>
    exact ⟨[], s, rfl, h.file, h.nonneg, h.left, h.sought, fun p hp => absurd hp (by simp)⟩
  | insert p x hp ih =>
    obtain ⟨as, t, hrun, ht⟩ := ih (fun q hq => hx q (Finset.mem_insert_of_mem hq))
    obtain ⟨hmode, hc⟩ := hx p (Finset.mem_insert_self p x)
    obtain ⟨u, hu, hpoised⟩ := ht.lseek hmode hc hp
    exact ⟨as ++ [.lseek p], u, (run_append_iff _ _ _ _ _).mpr ⟨t, hrun, by simp [run, hu]⟩,
      hpoised⟩

theorem writes_run (hn : ∀ p, cfg.numBytes p < 2^31) (x : Finset (Fin k)) (he : e ≤ m)
    (hx : ∀ p ∈ x, cfg.mode p = .x ∧ 0 < c p) (h : Poised cfg initial m c x e s) :
    ∃ as t, run (step cfg) as s = some t ∧
      Poised cfg initial (if x = ∅ then m else max m (e+1)) (without c x) ∅ e t := by
  induction x using Finset.induction_on generalizing m c s with
  | empty =>
    have hc : without c ∅ = c := funext (fun p => without_of_notMem (by simp))
    exact ⟨[], s, rfl, by rwa [if_pos rfl, hc]⟩
  | insert p x hp ih =>
    obtain ⟨hmode, hc⟩ := hx p (Finset.mem_insert_self p x)
    obtain ⟨t, ht, hpoised⟩ := h.write_x hn he hmode hc (Finset.mem_insert_self p x)
    rw [Finset.erase_insert hp] at hpoised
    have hrest : ∀ q ∈ x, cfg.mode q = .x ∧ 0 < without c {p} q := by
      intro q hq
      obtain ⟨hmode, hc⟩ := hx q (Finset.mem_insert_of_mem hq)
      have hqp : q ∉ ({p} : Finset (Fin k)) := by
        rw [Finset.mem_singleton]
        rintro rfl
        exact hp hq
      exact ⟨hmode, by rwa [without_of_notMem hqp]⟩
    obtain ⟨as, u, hrun, hu⟩ := ih (he.trans (le_max_left _ _)) hrest hpoised
    refine ⟨.write p::as, u, (run_cons_iff _ _ _ _ _).mpr ⟨t, ht, hrun⟩, ?_⟩
    rw [without_without c (Finset.disjoint_singleton_left.mpr hp), Finset.singleton_union, max_assoc,
      max_self, ite_self] at hu
    rwa [if_neg (Finset.insert_ne_empty p x)]

theorem round_run (hn : ∀ p, cfg.numBytes p < 2^31) (hround : IsRound (Appending cfg) g)
    (hg : ∀ p ∈ g, 0 < c p) (h : Poised cfg initial m c ∅ e s) :
    ∃ as t, run (step cfg) as s = some t ∧
      Poised cfg initial (m+1) (without c g) ∅ m t := by
  obtain ⟨x, hmem⟩ : ∃ x : Finset (Fin k), ∀ p, p ∈ x ↔ p ∈ g ∧ cfg.mode p = .x :=
    ⟨{p ∈ g | cfg.mode p = .x}, fun p => by simp⟩
  have hx : ∀ p ∈ x, cfg.mode p = .x ∧ 0 < c p := fun p hp =>
    ⟨((hmem p).mp hp).2, hg p ((hmem p).mp hp).1⟩
  obtain ⟨as, t, hrun, ht⟩ := seeks_run x hx h
  by_cases happend : ∃ a ∈ g, Appending cfg a
  · obtain ⟨a, hag, ha⟩ := happend
    have hax : a ∉ x := by
      intro h
      have := ((hmem a).mp h).2
      rw [show cfg.mode a = .append from ha] at this
      cases this
    have hunion : {a} ∪ x = g := by
      ext p
      rw [Finset.mem_union, Finset.mem_singleton, hmem]
      refine ⟨fun hp => hp.elim (fun h => h ▸ hag) And.left, fun hp => ?_⟩
      cases hmode : cfg.mode p with
      | append => exact .inl (hround.single p hp a hag hmode ha)
      | x => exact .inr ⟨hp, rfl⟩
    obtain ⟨u, hu, hpoised⟩ := ht.write_append hn ha (hg a hag) hax
    have hx' : ∀ p ∈ x, cfg.mode p = .x ∧ 0 < without c {a} p := by
      intro p hp
      have hpa : p ∉ ({a} : Finset (Fin k)) := by
        rw [Finset.mem_singleton]
        rintro rfl
        exact hax hp
      rw [without_of_notMem hpa]
      exact hx p hp
    obtain ⟨bs, v, hbs, hv⟩ := writes_run hn x (Nat.le_succ m) hx' hpoised
    refine ⟨as ++ .write a::bs, v, (run_append_iff _ _ _ _ _).mpr ⟨t, hrun,
      (run_cons_iff _ _ _ _ _).mpr ⟨u, hu, hbs⟩⟩, ?_⟩
    rwa [without_without c (Finset.disjoint_singleton_left.mpr hax), hunion, max_self,
      ite_self] at hv
  · push Not at happend
    have hxg : x = g := by
      ext p
      rw [hmem]
      refine ⟨And.left, fun hp => ⟨hp, ?_⟩⟩
      cases hmode : cfg.mode p with
      | append => exact absurd hmode (happend p hp)
      | x => rfl
    obtain ⟨bs, v, hbs, hv⟩ := writes_run hn x (le_refl m) hx ht
    refine ⟨as ++ bs, v, (run_append_iff _ _ _ _ _).mpr ⟨t, hrun, hbs⟩, ?_⟩
    rwa [hxg, if_neg hround.nonempty.ne_empty, Nat.max_eq_right (Nat.le_succ m)] at hv

theorem rounds_run (hn : ∀ p, cfg.numBytes p < 2^31) (n : ℕ) (hfew : fewest (Appending cfg) c ≤ n)
    (hmany : n ≤ ∑ p, c p) (h : Poised cfg initial m c ∅ e s) :
    ∃ as t e', run (step cfg) as s = some t ∧ Poised cfg initial (m+n) (fun _ => 0) ∅ e' t := by
  induction n generalizing m e c s with
  | zero =>
    have hc : c = fun _ => 0 := funext (fun p => Nat.le_zero.mp ((fewest_le_iff.mp hfew).2 p))
    exact ⟨[], s, e, rfl, hc ▸ h⟩
  | succ n ih =>
    obtain ⟨g, hround, hg, hfew, hmany⟩ := exists_round hfew hmany
    obtain ⟨as, t, hrun, ht⟩ := round_run hn hround hg h
    obtain ⟨bs, u, e', hbs, hu⟩ := ih hfew hmany ht
    refine ⟨as ++ bs, u, e', (run_append_iff _ _ _ _ _).mpr ⟨t, hrun, hbs⟩, ?_⟩
    rwa [show m+(n+1) = m+1+n by omega]

/-- Every letter of those who append is a letter of the file. -/
structure Separate (cfg : Config k) (m : ℕ) (s : State k) : Prop where
  appended : ∑ p with Appending cfg p, (s.procs p).i ≤ m
  seekers : ∀ p, (s.procs p).sought = true → ¬ Appending cfg p

theorem separate_init (cfg : Config k) (initial : Bytes) : Separate cfg 0 (init initial) where
  appended := by simp [init]
  seekers p h := by cases h

theorem separate_step (hn : ∀ p, cfg.numBytes p < 2^31) (h : Grown cfg initial m s)
    (hs : Separate cfg m s) {a : Act k} {t : State k} (ht : step cfg a s = some t) :
    ∃ m', Grown cfg initial m' t ∧ Separate cfg m' t := by
  obtain ⟨p, hx, rfl⟩ | ⟨p, j, hlt, hij, hj, rfl, hend⟩ := h.step_cases ht
  · refine ⟨m, h.lseek p, ?_, fun r hr => ?_⟩
    · refine (Finset.sum_congr rfl (fun r _ => ?_)).trans_le hs.appended
      by_cases hrp : r = p <;> simp [State.set, hrp]
    · by_cases hrp : r = p
      · rw [hrp, Appending, hx]
        exact Mode.noConfusion
      · exact hs.seekers r (by simpa [State.set, hrp] using hr)
  · refine ⟨_, h.write p j (hn p) hlt hij hj, ?_, fun r hr => ?_⟩
    · have hcount (r : Fin k) : ((writeOne p (initial.length+j) s).procs r).i =
          (s.procs r).i + if r = p then 1 else 0 := by
        by_cases hrp : r = p
        · simp [writeOne, hrp, increment_eq (h.count_nonneg p) hlt (hn p)]
        · simp [writeOne, hrp]
      have happended := hs.appended
      rw [Finset.sum_congr rfl (fun r _ => hcount r), Finset.sum_add_distrib, Finset.sum_ite_eq']
      -- only one who appends adds to the sum, and he writes behind all letters
      rcases hend with ⟨-, rfl⟩ | ⟨hsought, -⟩
      · split_ifs <;> omega
      · rw [if_neg (fun hp => hs.seekers p hsought ((Finset.mem_filter_univ p).mp hp))]
        omega
    · by_cases hrp : r = p
      · simp [writeOne, hrp] at hr
      · exact hs.seekers r (by simpa [writeOne, hrp] using hr)

/-- The letters that are left of all that is written when the processes are done
are from `fewest` to all of them, and every number of these is what is left under
some schedule. -/
theorem lengths_exact (cfg : Config k) (initial : Bytes) (hn : ∀ p, cfg.numBytes p < 2^31)
    (length : ℕ) :
    (∃ as t, run (step cfg) as (init initial) = some t ∧ Finished cfg t ∧
        t.file.length = initial.length+length) ↔
      fewest (Appending cfg) cfg.numBytes ≤ length ∧ length ≤ ∑ p, cfg.numBytes p := by
  constructor
  · rintro ⟨as, t, h, hf, hlength⟩
    obtain ⟨m, hgrown, hseparate⟩ := run_invariant (step cfg)
      (fun s => ∃ m, Grown cfg initial m s ∧ Separate cfg m s)
      (fun a s u ⟨m, hs, hseparate⟩ hu => separate_step hn hs hseparate hu) as (init initial) t
      ⟨0, grown_init cfg initial, separate_init cfg initial⟩ h
    obtain rfl : m = length := by
      have := hgrown.length
      omega
    have htotal := hgrown.total hf
    have hbound := hgrown.total_le
    have happended := hseparate.appended
    rw [Finset.sum_congr rfl (fun p _ => hgrown.finished hf p), ← Nat.cast_sum] at happended
    refine ⟨fewest_le_iff.mpr ⟨by omega, fun p => ?_⟩, by omega⟩
    have := hgrown.count_room p
    have := hgrown.finished hf p
    omega
  · rintro ⟨hfew, hmany⟩
    obtain ⟨as, t, e, hrun, ht⟩ := rounds_run hn length hfew hmany (poised_init cfg initial)
    refine ⟨as, t, hrun, fun p => ?_, by rw [ht.length, Nat.zero_add]⟩
    have := ht.left p
    omega

/-- One process with `x` and one without it, two letters each: two of the four can
be lost. -/
def mixed : Config 2 where
  mode
    | 0 => .append
    | 1 => .x
  numBytes _ := 2

theorem lengths_exact_mixed : ∃ as t, run (step mixed) as (init [120]) = some t ∧
    Finished mixed t ∧ t.file.length = 1+2 :=
  (lengths_exact mixed [120] (by decide) 2).mpr (by decide)

end CSE344.AppendLengths
