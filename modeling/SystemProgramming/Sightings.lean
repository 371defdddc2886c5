import Mathlib.Order.Defs.Unbundled

/-!
# What is seen of something that grows

An observer looks at something now and then. If it only ever grows, what he sees
each time has grown since the last, and has never grown beyond what there is now.
-/

set_option autoImplicit false

namespace CSE344.Sightings

variable {α : Type*} {le : α → α → Prop} {first now : α} {seen : List α}

/-- What has been seen, one after the other, between the first and the present. -/
def Ordered (le : α → α → Prop) (first : α) (seen : List α) (now : α) : Prop :=
  (first::(seen ++ [now])).Pairwise le

theorem ordered_iff : Ordered le first seen now ↔
    (first::seen).Pairwise le ∧ ∀ a ∈ first::seen, le a now := by
  rw [Ordered, ← List.cons_append, List.pairwise_append]
  simp

theorem Ordered.start [Std.Refl le] (first : α) : Ordered le first [] first :=
  ordered_iff.mpr ⟨List.pairwise_singleton le first, fun a ha => by
    rw [List.mem_singleton.mp ha]
    exact Std.Refl.refl first⟩

theorem Ordered.grow [IsTrans α le] (h : Ordered le first seen now) {later : α}
    (hle : le now later) : Ordered le first seen later := by
  obtain ⟨hseen, hnow⟩ := ordered_iff.mp h
  exact ordered_iff.mpr ⟨hseen, fun a ha => IsTrans.trans a now later (hnow a ha) hle⟩

theorem Ordered.look [Std.Refl le] (h : Ordered le first seen now) :
    Ordered le first (seen ++ [now]) now := by
  refine ordered_iff.mpr ⟨h, fun a ha => ?_⟩
  rcases List.mem_append.mp (show a ∈ (first::seen) ++ [now] from ha) with ha | ha
  · exact (ordered_iff.mp h).2 a ha
  · rw [List.mem_singleton.mp ha]
    exact Std.Refl.refl now

end CSE344.Sightings
