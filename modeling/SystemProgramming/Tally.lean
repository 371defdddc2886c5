import Mathlib.Algebra.BigOperators.Ring.Finset
import Mathlib.Data.Fintype.BigOperators
import Mathlib.Data.Int.Cast.Lemmas

/-!
# Counting the parties in a section

The number of indices whose entry satisfies a predicate, and how it changes
when one entry does.
-/

set_option autoImplicit false

namespace CSE344.Tally

variable {ι α : Type*} [Fintype ι]

def tally (P : α → Bool) (f : ι → α) : ℤ :=
  ((Finset.univ.filter (fun i => P (f i) = true)).card : ℤ)

def one (b : Bool) : ℤ := if b then 1 else 0

theorem tally_eq_sum (P : α → Bool) (f : ι → α) : tally P f = ∑ i, one (P (f i)) :=
  Finset.natCast_card_filter _ _

theorem tally_update [DecidableEq ι] (P : α → Bool) (f : ι → α) (i : ι) (x : α) :
    tally P (Function.update f i x) = tally P f - one (P (f i)) + one (P x) := by
  have hsum (y : α) : tally P (Function.update f i y) =
      one (P y) + ∑ j ∈ Finset.univ \ {i}, one (P (f j)) := by
    rw [tally_eq_sum, ← Finset.sum_update_of_mem (Finset.mem_univ i)]
    refine Finset.sum_congr rfl (fun j _ => ?_)
    by_cases h : j = i
    · subst h
      simp
    · simp [h]
  have hself := hsum (f i)
  rw [Function.update_eq_self] at hself
  rw [hsum x, hself]
  omega

theorem tally_congr {β : Type*} {P : α → Bool} {Q : β → Bool} {f : ι → α} {g : ι → β}
    (h : ∀ i, P (f i) = Q (g i)) : tally P f = tally Q g := by
  simp only [tally, h]

theorem tally_zero (P : α → Bool) (f : ι → α) (h : ∀ i, P (f i) = false) : tally P f = 0 := by
  rw [tally_eq_sum]
  exact Finset.sum_eq_zero (fun i _ => by rw [h i]; rfl)

theorem tally_pos (P : α → Bool) (f : ι → α) (i : ι) (h : P (f i) = true) : 1 ≤ tally P f := by
  have : 0 < (Finset.univ.filter (fun i => P (f i) = true)).card :=
    Finset.card_pos.mpr ⟨i, by simp [h]⟩
  unfold tally
  omega

end CSE344.Tally
