import Mathlib.Data.Nat.Basic
import Mathlib.Order.WellFounded
import SystemProgramming.TransitionRun

/-!
# Runs that use up a rank

A rank that falls at every step bounds the length of all runs, whatever the
schedule, and in a well-founded order it still rules out a run without end. Some
labels may be free: they come from outside, and each raises the rank by one at
most and is paid for twice. Where only some of the steps can be counted on, a
rank that these can always lower leads to a goal.
-/

set_option autoImplicit false

namespace CSE344.RankedRun
open TransitionRun

variable {σ α : Type*}

/-- Allowed steps can lead to the goal. -/
def CanReach (step : α → σ → Option σ) (allowed : α → Prop) (Goal : σ → Prop) (s : σ) : Prop :=
  ∃ as t, (∀ a ∈ as, allowed a) ∧ run step as s = some t ∧ Goal t

theorem CanReach.now (step : α → σ → Option σ) (allowed : α → Prop) {Goal : σ → Prop} {s : σ}
    (h : Goal s) : CanReach step allowed Goal s := ⟨[], s, by simp, rfl, h⟩

theorem CanReach.step {step : α → σ → Option σ} {allowed : α → Prop} {Goal : σ → Prop} {s t : σ}
    {a : α} (ha : allowed a) (h : step a s = some t) (r : CanReach step allowed Goal t) :
    CanReach step allowed Goal s := by
  obtain ⟨as, u, has, hu, hgoal⟩ := r
  refine ⟨a::as, u, ?_, (run_cons_iff step a as s u).mpr ⟨t, h, hu⟩, hgoal⟩
  simpa [ha] using has

/-- A schedule under which the system never comes to rest. -/
def Endless (step : α → σ → Option σ) (s : σ) : Prop :=
  ∃ (labels : ℕ → α) (states : ℕ → σ), states 0 = s ∧
    ∀ k, step (labels k) (states k) = some (states (k+1))

/-- A rank in a well-founded order that every step lowers leaves no such schedule. -/
theorem not_endless {ω : Type*} (step : α → σ → Option σ) (r : ω → ω → Prop) [IsWellFounded ω r]
    (rank : σ → ω) (hfalls : ∀ a s t, step a s = some t → r (rank t) (rank s)) (s : σ) :
    ¬ Endless step s := by
  rintro ⟨labels, states, -, hsteps⟩
  obtain ⟨k, hk⟩ := WellFounded.not_rel_apply_succ (r := r) (fun k => rank (states k))
  exact hk (hfalls _ _ _ (hsteps k))

/-- In the states of `P` a step lowers the rank unless its label is free. -/
structure Ranked (step : α → σ → Option σ) (P : σ → Prop) (free : α → Bool) (rank : σ → ℕ) :
    Prop where
  falls : ∀ a s t, P s → step a s = some t → free a = false → rank t < rank s
  rises : ∀ a s t, P s → step a s = some t → free a = true → rank t ≤ rank s+1

variable {step : α → σ → Option σ} {P : σ → Prop} {free : α → Bool} {rank : σ → ℕ}

theorem Ranked.length_le (hr : Ranked step P free rank)
    (hkeep : ∀ a s t, P s → step a s = some t → P t) (as : List α) (s t : σ) (hs : P s)
    (h : run step as s = some t) : as.length+rank t ≤ rank s+2*as.countP free := by
  induction as generalizing s with
  | nil =>
    obtain rfl : s = t := by simpa using h
    simp
  | cons a as ih =>
    obtain ⟨u, hu, ht⟩ := (run_cons_iff step a as s t).mp h
    have hrest := ih u (hkeep a s u hs hu) ht
    rw [List.length_cons, List.countP_cons]
    cases hfree : free a with
    | false =>
      have := hr.falls a s u hs hu hfree
      simp only [Bool.false_eq_true, if_false]
      omega
    | true =>
      have := hr.rises a s u hs hu hfree
      simp only [if_true]
      omega

/-- If some allowed step goes down wherever the goal is not, every state of `P`
has a run of allowed steps to the goal. -/
theorem reaches_of_falls (step : α → σ → Option σ) (allowed : α → Prop) (P Goal : σ → Prop)
    (rank : σ → ℕ) (hmove : ∀ s, P s → ¬ Goal s →
      ∃ a t, allowed a ∧ step a s = some t ∧ P t ∧ rank t < rank s) (s : σ) (hs : P s) :
    CanReach step allowed Goal s := by
  induction hn : rank s using Nat.strong_induction_on generalizing s with
  | _ n ih =>
    by_cases hg : Goal s
    · exact .now step allowed hg
    · obtain ⟨a, u, ha, hu, hpu, hlt⟩ := hmove s hs hg
      exact (ih (rank u) (hn ▸ hlt) u hpu rfl).step ha hu

end CSE344.RankedRun
