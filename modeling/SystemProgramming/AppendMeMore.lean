import Mathlib.Algebra.BigOperators.Ring.Finset
import Mathlib.Algebra.Order.BigOperators.Group.Finset
import Mathlib.Data.Fintype.BigOperators
import Mathlib.Data.Int.DivMod
import Mathlib.Order.Lattice.Nat
import SystemProgramming.FileBytes
import SystemProgramming.TransitionRun

/-!
# Concurrent runs of appendMeMore

Each process loops over one byte at a time: with `O_APPEND` one `write` that
takes the end of the file itself, otherwise an `lseek` to the end and then a
`write` at the offset found there. A system call is one step. Offsets are kept
per process, the file is shared.
-/

set_option autoImplicit false

namespace CSE344.AppendMeMore
open CString FileBytes TransitionRun

/-- `argc == 3`, and the `x` argument. -/
inductive Mode where
  | append
  | x
  deriving DecidableEq, Repr

structure Config (k : ℕ) where
  mode : Fin k → Mode
  numBytes : Fin k → ℕ

/-- The loop variable, the file offset, and whether `lseek` was just called. -/
structure Proc where
  i : ℤ
  offset : ℕ
  sought : Bool
  deriving DecidableEq, Repr

structure State (k : ℕ) where
  file : Bytes
  procs : Fin k → Proc

def init {k : ℕ} (file : Bytes) : State k := ⟨file, fun _ => ⟨0, 0, false⟩⟩

/-- The byte written, an `i`. -/
def letter : UInt8 := 105

/-- `i++` on an `int`. -/
def increment (i : ℤ) : ℤ := (i+1).bmod (2^32)

inductive Act (k : ℕ) where
  | lseek (p : Fin k)
  | write (p : Fin k)
  deriving DecidableEq, Repr

variable {k : ℕ}

def State.set (s : State k) (p : Fin k) (q : Proc) : State k :=
  { s with procs := Function.update s.procs p q }

/-- The write of one turn of the loop, at the offset that the process then has. -/
def writeOne (p : Fin k) (offset : ℕ) (s : State k) : State k :=
  { file := writeAt offset [letter] s.file
    procs := Function.update s.procs p ⟨increment (s.procs p).i, offset+1, false⟩ }

def step (cfg : Config k) : Act k → State k → Option (State k)
  | .lseek p, s =>
    if (s.procs p).i < cfg.numBytes p ∧ cfg.mode p = .x ∧ (s.procs p).sought = false then
      some (s.set p { s.procs p with offset := s.file.length, sought := true })
    else none
  | .write p, s =>
    if (s.procs p).i < cfg.numBytes p then
      match cfg.mode p with
      | .append => some (writeOne p s.file.length s)
      | .x => if (s.procs p).sought then some (writeOne p (s.procs p).offset s) else none
    else none

def Finished (cfg : Config k) (s : State k) : Prop := ∀ p, ¬ (s.procs p).i < cfg.numBytes p

section Write

theorem writeAt_grown (initial : Bytes) (m j : ℕ) (h : j ≤ m) :
    writeAt (initial.length+j) [letter] (initial ++ List.replicate m letter) =
      initial ++ List.replicate (max m (j+1)) letter := by
  have htake : (initial ++ List.replicate m letter).take (initial.length+j) =
      initial ++ List.replicate j letter := by
    rw [List.take_length_add_append, List.take_replicate, Nat.min_eq_left h]
  have hdrop : (initial ++ List.replicate m letter).drop (initial.length+j+1) =
      List.replicate (m-(j+1)) letter := by
    rw [Nat.add_assoc, List.drop_length_add_append, List.drop_replicate]
  have hgap : initial.length+j-(initial ++ List.replicate m letter).length = 0 := by
    rw [List.length_append, List.length_replicate]
    omega
  have hsplit : max m (j+1) = j+(m-(j+1)+1) := by omega
  rw [writeAt, List.length_singleton, htake, hdrop, hgap, hsplit, List.replicate_add,
    List.replicate_succ]
  simp

end Write

/-- The file is the initial one and `m` letters; every process has made room
for what it wrote, and its next write falls behind that. -/
structure Grown (cfg : Config k) (initial : Bytes) (m : ℕ) (s : State k) : Prop where
  file_eq : s.file = initial ++ List.replicate m letter
  count_nonneg : ∀ p, 0 ≤ (s.procs p).i
  count_le : ∀ p, (s.procs p).i ≤ cfg.numBytes p
  count_room : ∀ p, (s.procs p).i ≤ m
  sought_offset : ∀ p, (s.procs p).sought = true →
    initial.length+(s.procs p).i ≤ (s.procs p).offset ∧
      (s.procs p).offset ≤ initial.length+m
  total_le : (m:ℤ) ≤ ∑ p, (s.procs p).i

theorem increment_eq {i : ℤ} {n : ℕ} (h0 : 0 ≤ i) (h : i < n) (hn : n < 2^31) :
    increment i = i+1 := by
  rw [increment]
  apply Int.bmod_eq_of_le <;> omega

theorem total_update (f : Fin k → Proc) (p : Fin k) (q : Proc) :
    ∑ r, (Function.update f p q r).i = ∑ r, (f r).i - (f p).i + q.i := by
  have hone (y : Proc) : ∑ r, (Function.update f p y r).i =
      y.i + ∑ r ∈ Finset.univ \ {p}, (f r).i := by
    rw [← Finset.sum_update_of_mem (Finset.mem_univ p)]
    apply Finset.sum_congr rfl
    intro r _
    by_cases h : r = p
    · subst h
      simp
    · simp [h]
  have hself := hone (f p)
  rw [Function.update_eq_self] at hself
  rw [hone q, hself]
  omega

section Steps

variable {cfg : Config k} {initial : Bytes} {m : ℕ} {s : State k}

theorem grown_init (cfg : Config k) (initial : Bytes) : Grown cfg initial 0 (init initial) where
  file_eq := by simp [init]
  count_nonneg _ := le_refl _
  count_le p := Int.natCast_nonneg _
  count_room _ := le_refl _
  sought_offset p h := by cases h
  total_le := by simp [init]

theorem Grown.length (h : Grown cfg initial m s) : s.file.length = initial.length+m := by
  rw [h.file_eq, List.length_append, List.length_replicate]

theorem Grown.lseek (h : Grown cfg initial m s) (p : Fin k) :
    Grown cfg initial m (s.set p { s.procs p with offset := s.file.length, sought := true }) := by
  have hi (r : Fin k) : (Function.update s.procs p
      { s.procs p with offset := s.file.length, sought := true } r).i = (s.procs r).i := by
    by_cases hr : r = p
    · subst hr
      simp
    · simp [hr]
  refine ⟨h.file_eq, fun r => ?_, fun r => ?_, fun r => ?_, fun r hr => ?_, ?_⟩
  · exact (hi r).symm ▸ h.count_nonneg r
  · exact (hi r).symm ▸ h.count_le r
  · exact (hi r).symm ▸ h.count_room r
  · by_cases hrp : r = p
    · subst hrp
      have := h.count_room r
      simp only [State.set, Function.update_self, h.length]
      omega
    · simp only [State.set, Function.update_of_ne hrp] at hr ⊢
      exact h.sought_offset r hr
  · calc (m:ℤ) ≤ ∑ r, (s.procs r).i := h.total_le
      _ = _ := Finset.sum_congr rfl (fun r _ => (hi r).symm)

theorem Grown.write (h : Grown cfg initial m s) (p : Fin k) (j : ℕ)
    (hn : cfg.numBytes p < 2^31) (hlt : (s.procs p).i < cfg.numBytes p)
    (hij : (s.procs p).i ≤ j) (hj : j ≤ m) :
    Grown cfg initial (max m (j+1)) (writeOne p (initial.length+j) s) := by
  have h0 := h.count_nonneg p
  have hinc := increment_eq h0 hlt hn
  refine ⟨?_, fun r => ?_, fun r => ?_, fun r => ?_, fun r hr => ?_, ?_⟩
  · show writeAt _ _ s.file = _
    rw [h.file_eq, writeAt_grown initial m j hj]
  · by_cases hr : r = p
    · subst hr
      simp only [writeOne, Function.update_self, hinc]
      omega
    · simpa only [writeOne, Function.update_of_ne hr] using h.count_nonneg r
  · by_cases hr : r = p
    · subst hr
      simp only [writeOne, Function.update_self, hinc]
      omega
    · simpa only [writeOne, Function.update_of_ne hr] using h.count_le r
  · by_cases hr : r = p
    · subst hr
      simp only [writeOne, Function.update_self, hinc]
      omega
    · have := h.count_room r
      simp only [writeOne, Function.update_of_ne hr]
      omega
  · by_cases hrp : r = p
    · subst hrp
      simp [writeOne] at hr
    · simp only [writeOne, Function.update_of_ne hrp] at hr ⊢
      have := h.sought_offset r hr
      omega
  · have htotal := h.total_le
    simp only [writeOne, total_update, hinc]
    omega

theorem Grown.step_cases (h : Grown cfg initial m s) {a : Act k} {t : State k}
    (hs : step cfg a s = some t) :
    (∃ p, cfg.mode p = .x ∧
        t = s.set p { s.procs p with offset := s.file.length, sought := true }) ∨
    ∃ (p : Fin k) (j : ℕ), (s.procs p).i < cfg.numBytes p ∧ (s.procs p).i ≤ j ∧ j ≤ m ∧
      t = writeOne p (initial.length+j) s ∧
      (cfg.mode p = .append ∧ j = m ∨ (s.procs p).sought = true ∧
        (s.procs p).offset = initial.length+j) := by
  cases a with
  | lseek p =>
    simp only [step, Option.ite_none_right_eq_some] at hs
    obtain ⟨⟨-, hx, -⟩, hs⟩ := hs
    exact .inl ⟨p, hx, by simpa using hs.symm⟩
  | write p =>
    right
    simp only [step, Option.ite_none_right_eq_some] at hs
    obtain ⟨hlt, hs⟩ := hs
    cases hm : cfg.mode p with
    | append =>
      have := h.count_room p
      refine ⟨p, m, hlt, by omega, le_refl _, ?_, .inl ⟨hm, rfl⟩⟩
      rw [← h.length]
      simpa [hm] using hs.symm
    | x =>
      simp only [hm, Option.ite_none_right_eq_some] at hs
      obtain ⟨hsought, hs⟩ := hs
      obtain ⟨hlow, hhigh⟩ := h.sought_offset p hsought
      have hoff : initial.length+((s.procs p).offset-initial.length) = (s.procs p).offset := by
        have := h.count_nonneg p
        omega
      refine ⟨p, (s.procs p).offset-initial.length, hlt, ?_, ?_, ?_, .inr ⟨hsought, hoff.symm⟩⟩
      · omega
      · omega
      · rw [hoff]
        simpa using hs.symm

theorem Grown.step (hn : ∀ p, cfg.numBytes p < 2^31) (h : Grown cfg initial m s) {a : Act k}
    {t : State k} (hs : step cfg a s = some t) : ∃ m', Grown cfg initial m' t := by
  obtain ⟨p, -, rfl⟩ | ⟨p, j, hlt, hij, hj, rfl, -⟩ := h.step_cases hs
  · exact ⟨m, h.lseek p⟩
  · exact ⟨_, h.write p j (hn p) hlt hij hj⟩

/-- Nothing was overwritten, and whoever has sought stands at the end. -/
structure Packed (cfg : Config k) (initial : Bytes) (m : ℕ) (s : State k) : Prop where
  total_eq : (m:ℤ) = ∑ p, (s.procs p).i
  sought_end : ∀ p, (s.procs p).sought = true →
    cfg.mode p = .x ∧ (s.procs p).offset = initial.length+m

/-- With `O_APPEND` throughout, or a single process, a write only adds. -/
theorem Packed.step (hlone : (∀ p, cfg.mode p = .append) ∨ k = 1)
    (hn : ∀ p, cfg.numBytes p < 2^31) (h : Grown cfg initial m s) (hp : Packed cfg initial m s)
    {a : Act k} {t : State k} (hs : AppendMeMore.step cfg a s = some t) :
    ∃ m', Grown cfg initial m' t ∧ Packed cfg initial m' t := by
  obtain ⟨p, hx, rfl⟩ | ⟨p, j, hlt, hij, hj, rfl, hend⟩ := h.step_cases hs
  · refine ⟨m, h.lseek p, ⟨?_, fun r hr => ?_⟩⟩
    · simp only [State.set, total_update, hp.total_eq]
      omega
    · by_cases hrp : r = p
      · subst hrp
        exact ⟨hx, by simp only [State.set, Function.update_self, h.length]⟩
      · simp only [State.set, Function.update_of_ne hrp] at hr ⊢
        exact hp.sought_end r hr
  · have hjm : j = m := by
      rcases hend with ⟨-, hjm⟩ | ⟨hsought, hoff⟩
      · exact hjm
      · have := (hp.sought_end p hsought).2
        omega
    subst hjm
    refine ⟨_, h.write p j (hn p) hlt hij (le_refl _), ⟨?_, fun r hr => ?_⟩⟩
    · have := hp.total_eq
      simp only [writeOne, total_update, increment_eq (h.count_nonneg p) hlt (hn p)]
      omega
    · by_cases hrp : r = p
      · subst hrp
        simp [writeOne] at hr
      · simp only [writeOne, Function.update_of_ne hrp] at hr
        rcases hlone with happ | hone
        · simpa [happ r] using (hp.sought_end r hr).1
        · exact absurd (Fin.ext (by omega)) hrp

end Steps

theorem Grown.finished {cfg : Config k} {initial : Bytes} {m : ℕ} {s : State k}
    (h : Grown cfg initial m s) (hf : Finished cfg s) (p : Fin k) :
    (s.procs p).i = cfg.numBytes p := by
  have := h.count_le p
  have := hf p
  omega

theorem Grown.total {cfg : Config k} {initial : Bytes} {m : ℕ} {s : State k}
    (h : Grown cfg initial m s) (hf : Finished cfg s) :
    ∑ p, (s.procs p).i = ((∑ p, cfg.numBytes p : ℕ) : ℤ) := by
  rw [Nat.cast_sum]
  exact Finset.sum_congr rfl (fun p _ => h.finished hf p)

end CSE344.AppendMeMore
