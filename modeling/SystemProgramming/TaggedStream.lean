import Mathlib.Data.List.Basic

/-!
# Messages in a byte stream

Bytes carry the label of the message that they belong to. A read takes any
number of bytes from the front; it is whole when they all belong to one
message and the next byte belongs to another. If no two messages in the stream
share a label, whole reads take the messages out one by one.
-/

set_option autoImplicit false

namespace CSE344.TaggedStream

variable {β γ : Type*}

/-- The labels of messages of given lengths. -/
def spread (ms : List (β × ℕ)) : List β := ms.flatMap (fun m => List.replicate m.2 m.1)

def Whole (q : List (β × γ)) (n : ℕ) : Prop :=
  ∃ b, (q.take n).map Prod.fst = List.replicate n b ∧ ∀ x ∈ (q.drop n).head?, x.1 ≠ b

@[simp] theorem spread_nil : spread ([] : List (β × ℕ)) = [] := rfl

theorem spread_cons (m : β × ℕ) (ms : List (β × ℕ)) :
    spread (m::ms) = List.replicate m.2 m.1 ++ spread ms := rfl

theorem spread_append (ms ns : List (β × ℕ)) : spread (ms++ns) = spread ms ++ spread ns :=
  List.flatMap_append

theorem mem_spread {b : β} {ms : List (β × ℕ)} (h : b ∈ spread ms) : b ∈ ms.map Prod.fst := by
  obtain ⟨m, hm, hb⟩ := List.mem_flatMap.mp h
  rw [List.eq_of_mem_replicate hb]
  exact List.mem_map_of_mem hm

theorem spread_eq_nil {ms : List (β × ℕ)} (hpos : ∀ m ∈ ms, 0 < m.2) :
    spread ms = [] ↔ ms = [] := by
  cases ms with
  | nil => simp
  | cons m ms =>
    have := hpos m (by simp)
    simp only [spread_cons, List.append_eq_nil_iff, List.replicate_eq_nil_iff, reduceCtorEq,
      iff_false]
    omega

theorem whole_first {q : List (β × γ)} {n : ℕ} {m : β × ℕ} {ms : List (β × ℕ)}
    (hq : q.map Prod.fst = spread (m::ms)) (hm : 0 < m.2) (hother : m.1 ∉ ms.map Prod.fst)
    (h1 : 1 ≤ n) (hw : Whole q n) :
    n = m.2 ∧ (q.take n).map Prod.fst = List.replicate m.2 m.1 ∧
      (q.drop n).map Prod.fst = spread ms := by
  obtain ⟨b, htake, hnext⟩ := hw
  have hat (i : ℕ) (hi : i < n) : (q.map Prod.fst)[i]? = some b := by
    have := congrArg (·[i]?) htake
    simpa [hi, List.getElem?_replicate] using this
  have hfirst (i : ℕ) (hi : i < m.2) : (q.map Prod.fst)[i]? = some m.1 := by
    rw [hq, spread_cons, List.getElem?_append_left (by simpa using hi)]
    simp [hi]
  have hb : b = m.1 := Option.some.inj ((hat 0 (by omega)).symm.trans (hfirst 0 hm))
  subst hb
  have hlen : n = m.2 := by
    rcases Nat.lt_trichotomy n m.2 with hlt | heq | hgt
    · exfalso
      have hsome := hfirst n hlt
      rw [List.getElem?_map, Option.map_eq_some_iff] at hsome
      obtain ⟨x, hx, hx'⟩ := hsome
      exact hnext x (by simpa [List.head?_drop] using hx) hx'
    · exact heq
    · exfalso
      have hmem := hat m.2 hgt
      rw [hq, spread_cons, List.getElem?_append_right (by simp)] at hmem
      exact hother (mem_spread (List.mem_of_getElem? hmem))
  have hcut : (q.take n).map Prod.fst ++ (q.drop n).map Prod.fst =
      List.replicate m.2 m.1 ++ spread ms := by
    rw [← List.map_append, List.take_append_drop, hq, spread_cons]
  refine ⟨hlen, List.append_inj hcut ?_⟩
  rw [htake, List.length_replicate, List.length_replicate, hlen]

end CSE344.TaggedStream
