import Mathlib.Algebra.BigOperators.Group.Finset.Piecewise
import Mathlib.Algebra.Order.BigOperators.Group.Finset
import Mathlib.Data.Finset.Lattice.Fold
import Mathlib.Order.Lattice.Nat

/-!
# Work in rounds

Everybody has some turns to take. In a round each takes one turn at most, and of
those who want to be alone at most one takes part. The least number of rounds is
that of the busiest, or of those who want to be alone taken together; from there
every number up to all turns one by one will do.
-/

set_option autoImplicit false

namespace CSE344.Rounds

variable {ι : Type*} [DecidableEq ι]

/-- The turns that are left after a round. -/
def without (c : ι → ℕ) (g : Finset ι) (p : ι) : ℕ := if p ∈ g then c p-1 else c p

theorem without_le (c : ι → ℕ) (g : Finset ι) (p : ι) : without c g p ≤ c p := by
  unfold without
  split_ifs <;> omega

theorem without_of_mem {c : ι → ℕ} {g : Finset ι} {p : ι} (hp : p ∈ g) : without c g p = c p-1 :=
  if_pos hp

theorem without_of_notMem {c : ι → ℕ} {g : Finset ι} {p : ι} (hp : p ∉ g) : without c g p = c p :=
  if_neg hp

theorem without_without (c : ι → ℕ) {g h : Finset ι} (hgh : Disjoint g h) :
    without (without c g) h = without c (g ∪ h) := by
  funext p
  by_cases hg : p ∈ g
  · have hh := Finset.disjoint_left.mp hgh hg
    rw [without_of_notMem hh, without_of_mem hg, without_of_mem (Finset.mem_union_left h hg)]
  · by_cases hh : p ∈ h
    · rw [without_of_mem hh, without_of_notMem hg, without_of_mem (Finset.mem_union_right g hh)]
    · have hgh : p ∉ g ∪ h := by simp [hg, hh]
      rw [without_of_notMem hh, without_of_notMem hg, without_of_notMem hgh]

theorem sum_without {c : ι → ℕ} {g : Finset ι} (hg : ∀ p ∈ g, 0 < c p) (s : Finset ι) :
    ∑ p ∈ s, without c g p + (s ∩ g).card = ∑ p ∈ s, c p := by
  have hturn (p : ι) : c p = without c g p + if p ∈ g then 1 else 0 := by
    unfold without
    split_ifs with hp
    · exact (Nat.sub_add_cancel (hg p hp)).symm
    · rfl
  rw [Finset.sum_congr rfl (fun p _ => hturn p), Finset.sum_add_distrib, ← Finset.card_filter,
    Finset.filter_mem_eq_inter]

variable [Fintype ι] (alone : ι → Prop) [DecidablePred alone]

/-- Somebody takes a turn, and of those who want to be alone at most one. -/
structure IsRound (g : Finset ι) : Prop where
  nonempty : g.Nonempty
  single : ∀ p ∈ g, ∀ q ∈ g, alone p → alone q → p = q

def fewest (c : ι → ℕ) : ℕ := max (∑ p with alone p, c p) (Finset.univ.sup c)

variable {alone} {c : ι → ℕ} {g : Finset ι} {n : ℕ}

omit [DecidableEq ι] in
theorem fewest_le_iff : fewest alone c ≤ n ↔ ∑ p with alone p, c p ≤ n ∧ ∀ p, c p ≤ n := by
  simp [fewest]

omit [DecidableEq ι] in
theorem le_of_alone (h : ∑ p with alone p, c p ≤ n) {p : ι} (hp : alone p) : c p ≤ n :=
  (Finset.single_le_sum (fun _ _ => Nat.zero_le _) (by simp [hp])).trans h

/-- Those who want to be alone need every round that is left, and one of them
takes part together with everybody who needs every round. -/
theorem round_full (halone : ∑ p with alone p, c p = n+1) (heach : ∀ p, c p ≤ n+1) :
    ∃ g, IsRound alone g ∧ (∀ p ∈ g, 0 < c p) ∧ fewest alone (without c g) ≤ n ∧
      n ≤ ∑ p, without c g p := by
  obtain ⟨a, ha, hca⟩ : ∃ a, alone a ∧ 0 < c a := by
    have hpos : 0 < ∑ p with alone p, c p := by omega
    obtain ⟨a, ha, hca⟩ := Finset.sum_pos_iff.mp hpos
    exact ⟨a, (Finset.mem_filter.mp ha).2, hca⟩
  obtain ⟨g, hmem⟩ : ∃ g : Finset ι, ∀ p, p ∈ g ↔ p = a ∨ ¬ alone p ∧ c p = n+1 :=
    ⟨insert a ({p | ¬ alone p ∧ c p = n+1} : Finset ι), fun p => by simp⟩
  have hpos : ∀ p ∈ g, 0 < c p := by
    intro p hp
    rcases (hmem p).mp hp with rfl | ⟨-, hp⟩
    · exact hca
    · omega
  have hself (p : ι) (hp : p ∈ g) (hpa : alone p) : p = a :=
    ((hmem p).mp hp).resolve_right (fun h => h.1 hpa)
  have hleft : ∑ p with alone p, without c g p = n := by
    have hone : ({p | alone p} : Finset ι) ∩ g = {a} := by
      ext p
      simp only [Finset.mem_inter, Finset.mem_filter_univ, Finset.mem_singleton]
      exact ⟨fun h => hself p h.2 h.1, fun h => by rw [h]; exact ⟨ha, (hmem a).mpr (.inl rfl)⟩⟩
    have hsum := sum_without hpos ({p | alone p} : Finset ι)
    rw [hone, Finset.card_singleton, halone] at hsum
    omega
  refine ⟨g, ⟨⟨a, (hmem a).mpr (.inl rfl)⟩, fun p hp q hq hpa hqa =>
    (hself p hp hpa).trans (hself q hq hqa).symm⟩, hpos, fewest_le_iff.mpr ⟨hleft.le, fun p => ?_⟩, ?_⟩
  · by_cases hp : alone p
    · exact le_of_alone hleft.le hp
    · have hle := heach p
      unfold without
      split_ifs with hg
      · omega
      · have hne : c p ≠ n+1 := fun h => hg ((hmem p).mpr (.inr ⟨hp, h⟩))
        omega
  · exact hleft.ge.trans (Finset.sum_le_sum_of_subset (Finset.filter_subset _ _))

theorem round_busy (halone : ∑ p with alone p, c p ≤ n) (heach : ∀ p, c p ≤ n+1) {b : ι}
    (hb : c b = n+1) :
    ∃ g, IsRound alone g ∧ (∀ p ∈ g, 0 < c p) ∧ fewest alone (without c g) ≤ n ∧
      n ≤ ∑ p, without c g p := by
  obtain ⟨g, hmem⟩ : ∃ g : Finset ι, ∀ p, p ∈ g ↔ c p = n+1 :=
    ⟨({p | c p = n+1} : Finset ι), fun p => by simp⟩
  have hcrowd (p : ι) (hp : p ∈ g) : ¬ alone p := by
    intro hpa
    have := le_of_alone halone hpa
    have := (hmem p).mp hp
    omega
  have hleft : without c g b = n := by
    rw [without, if_pos ((hmem b).mpr hb), hb, Nat.add_sub_cancel]
  refine ⟨g, ⟨⟨b, (hmem b).mpr hb⟩, fun p hp q _ hpa _ => absurd hpa (hcrowd p hp)⟩, fun p hp => ?_,
    fewest_le_iff.mpr ⟨?_, fun p => ?_⟩, ?_⟩
  · have := (hmem p).mp hp
    omega
  · exact (Finset.sum_le_sum (fun p _ => without_le c g p)).trans halone
  · have hle := heach p
    unfold without
    split_ifs with hg
    · omega
    · have hne : c p ≠ n+1 := fun h => hg ((hmem p).mpr h)
      omega
  · exact hleft.ge.trans (Finset.single_le_sum (fun _ _ => Nat.zero_le _) (Finset.mem_univ b))

theorem round_single (hfew : fewest alone c ≤ n) (hmany : n+1 ≤ ∑ p, c p) :
    ∃ g, IsRound alone g ∧ (∀ p ∈ g, 0 < c p) ∧ fewest alone (without c g) ≤ n ∧
      n ≤ ∑ p, without c g p := by
  obtain ⟨halone, heach⟩ := fewest_le_iff.mp hfew
  obtain ⟨a, -, ha⟩ := Finset.sum_pos_iff.mp (show 0 < ∑ p, c p by omega)
  have hpos : ∀ p ∈ ({a} : Finset ι), 0 < c p := fun p hp => by rwa [Finset.mem_singleton.mp hp]
  refine ⟨{a}, ⟨⟨a, Finset.mem_singleton_self a⟩, fun p hp q hq _ _ => ?_⟩, hpos,
    fewest_le_iff.mpr ⟨?_, fun p => (without_le c _ p).trans (heach p)⟩, ?_⟩
  · rw [Finset.mem_singleton.mp hp, Finset.mem_singleton.mp hq]
  · exact (Finset.sum_le_sum (fun p _ => without_le c _ p)).trans halone
  · have hsum := sum_without hpos Finset.univ
    rw [Finset.univ_inter, Finset.card_singleton] at hsum
    omega

/-- As long as there is time for all that must be done, and work for all the
time, there is a round after which it is so again. -/
theorem exists_round (hfew : fewest alone c ≤ n+1) (hmany : n+1 ≤ ∑ p, c p) :
    ∃ g, IsRound alone g ∧ (∀ p ∈ g, 0 < c p) ∧ fewest alone (without c g) ≤ n ∧
      n ≤ ∑ p, without c g p := by
  obtain ⟨halone, heach⟩ := fewest_le_iff.mp hfew
  by_cases hfull : ∑ p with alone p, c p = n+1
  · exact round_full hfull heach
  · have halone : ∑ p with alone p, c p ≤ n := by omega
    by_cases hbusy : ∃ b, c b = n+1
    · obtain ⟨b, hb⟩ := hbusy
      exact round_busy halone heach hb
    · push Not at hbusy
      refine round_single (fewest_le_iff.mpr ⟨halone, fun p => ?_⟩) hmany
      have := heach p
      have := hbusy p
      omega

end CSE344.Rounds
