import Mathlib.Data.List.Basic

/-!
# Two threads writing requests to one wire

A request is a list of sends, and a send reaches the wire as a whole. The
sends of two threads may be interleaved in any way that keeps each thread's
own order. Every byte carries the tag of its request, so a request stands
together on the wire when its tagged bytes are a contiguous part of it.
-/

set_option autoImplicit false

namespace CSE344.SharedWire

variable {α β τ : Type*}

inductive Interleaves : List α → List α → List α → Prop
  | nil : Interleaves [] [] []
  | left {x : α} {xs ys zs : List α} : Interleaves xs ys zs → Interleaves (x::xs) ys (x::zs)
  | right {y : α} {xs ys zs : List α} : Interleaves xs ys zs → Interleaves xs (y::ys) (y::zs)

theorem Interleaves.append {xs ys zs us vs ws : List α} (h : Interleaves xs ys zs)
    (k : Interleaves us vs ws) : Interleaves (xs++us) (ys++vs) (zs++ws) := by
  induction h with
  | nil => exact k
  | left _ ih => exact .left ih
  | right _ ih => exact .right ih

theorem Interleaves.all_left (xs : List α) : Interleaves xs [] xs := by
  induction xs with
  | nil => exact .nil
  | cons x xs ih => exact .left ih

theorem Interleaves.all_right (ys : List α) : Interleaves [] ys ys := by
  induction ys with
  | nil => exact .nil
  | cons y ys ih => exact .right ih

theorem Interleaves.insert (xs ys zs : List α) : Interleaves (xs++zs) ys (xs++(ys++zs)) := by
  simpa using (all_left xs).append ((all_right ys).append (all_left zs))

theorem Interleaves.swap {xs ys zs : List α} (h : Interleaves xs ys zs) :
    Interleaves ys xs zs := by
  induction h with
  | nil => exact .nil
  | left _ ih => exact .right ih
  | right _ ih => exact .left ih

theorem Interleaves.mem_left {xs ys zs : List α} (h : Interleaves xs ys zs) {x : α}
    (hx : x ∈ xs) : x ∈ zs := by
  induction h with
  | nil => exact hx
  | left _ ih =>
    rcases List.mem_cons.mp hx with rfl | hx
    · exact List.mem_cons_self
    · exact List.mem_cons_of_mem _ (ih hx)
  | right _ ih => exact List.mem_cons_of_mem _ (ih hx)

theorem Interleaves.flatMap_eq {xs ys zs : List α} (h : Interleaves xs ys zs) (f : α → List β)
    (hy : ∀ y ∈ ys, f y = []) : zs.flatMap f = xs.flatMap f := by
  induction h with
  | nil => rfl
  | left _ ih => rw [List.flatMap_cons, List.flatMap_cons, ih hy]
  | right _ ih =>
    rw [List.flatMap_cons, hy _ List.mem_cons_self, List.nil_append,
      ih (fun y hm => hy y (List.mem_cons_of_mem _ hm))]

/-- The sends of a list of requests, tagged from `n` on. -/
def tagged (mk : ℕ → τ) : ℕ → List (List (List β)) → List (τ × List β)
  | _, [] => []
  | n, r::rs => r.map (mk n, ·) ++ tagged mk (n+1) rs

def onWire (send : τ × List β) : List (τ × β) := send.2.map (send.1, ·)

def wire (sends : List (τ × List β)) : List (τ × β) := sends.flatMap onWire

/-- A request with two sends that are not empty. -/
def Multi (r : List (List β)) : Prop := 2 ≤ (r.filter (fun s => !s.isEmpty)).length

def Silent (r : List (List β)) : Prop := ∀ s ∈ r, s = []

/-- Every request of one thread stands together on the wire. -/
def Together (mk : ℕ → τ) (rs : List (List (List β))) (w : List (τ × β)) : Prop :=
  ∀ (i : ℕ) (r : List (List β)), rs[i]? = some r → r.flatten.map (mk i, ·) <:+: w

theorem wire_append (s t : List (τ × List β)) : wire (s++t) = wire s ++ wire t :=
  List.flatMap_append

theorem wire_map (t : τ) (r : List (List β)) :
    wire (r.map (t, ·)) = r.flatten.map (t, ·) := by
  induction r with
  | nil => rfl
  | cons s r ih =>
    rw [List.map_cons, List.flatten_cons, List.map_append, ← ih]
    rfl

theorem tagged_append (mk : ℕ → τ) (n : ℕ) (rs us : List (List (List β))) :
    tagged mk n (rs++us) = tagged mk n rs ++ tagged mk (n+rs.length) us := by
  induction rs generalizing n with
  | nil => rfl
  | cons r rs ih =>
    rw [List.cons_append, tagged, tagged, ih, List.append_assoc, List.length_cons]
    congr 3
    omega

theorem tagged_split (mk : ℕ → τ) {rs : List (List (List β))} {i : ℕ} {r : List (List β)}
    (h : rs[i]? = some r) : tagged mk 0 rs =
      tagged mk 0 (rs.take i) ++ (r.map (mk i, ·) ++ tagged mk (i+1) (rs.drop (i+1))) := by
  obtain ⟨hi, hr⟩ := List.getElem?_eq_some_iff.mp h
  have hsplit : rs = rs.take i ++ r :: rs.drop (i+1) := by
    rw [← hr, List.getElem_cons_drop, List.take_append_drop]
  have hlen : (rs.take i).length = i := List.length_take_of_le (by omega)
  conv_lhs => rw [hsplit, tagged_append, hlen, Nat.zero_add, tagged]

theorem tagged_mem (mk : ℕ → τ) (n : ℕ) (rs : List (List (List β))) {s : τ × List β}
    (h : s ∈ tagged mk n rs) : ∃ j r, n ≤ j ∧ j < n+rs.length ∧ s.1 = mk j ∧ r ∈ rs ∧ s.2 ∈ r := by
  induction rs generalizing n with
  | nil => cases h
  | cons r rs ih =>
    rcases List.mem_append.mp h with h | h
    · obtain ⟨b, hb, rfl⟩ := List.mem_map.mp h
      exact ⟨n, r, Nat.le_refl n, by simp, rfl, by simp, hb⟩
    · obtain ⟨j, q, hj, hlt, htag, hq, hs⟩ := ih (n+1) h
      exact ⟨j, q, by omega, by rw [List.length_cons]; omega, htag, by simp [hq], hs⟩

theorem together_alone (mk : ℕ → τ) (rs : List (List (List β))) :
    Together mk rs (wire (tagged mk 0 rs)) := by
  intro i r h
  rw [tagged_split mk h, wire_append, wire_append, wire_map]
  exact ⟨_, _, by rw [List.append_assoc]⟩

theorem flatten_of_not_multi {r : List (List β)} (h : ¬ Multi r) :
    r.flatten = [] ∨ ∃ s ∈ r, r.flatten = s := by
  unfold Multi at h
  rcases hf : r.filter (fun s => !s.isEmpty) with - | ⟨s, - | ⟨t, rest⟩⟩
  · left
    rw [← List.flatten_filter_not_isEmpty, hf, List.flatten_nil]
  · have hs : s ∈ r.filter (fun s => !s.isEmpty) := by rw [hf]; simp
    right
    exact ⟨s, (List.mem_filter.mp hs).1, by
      rw [← List.flatten_filter_not_isEmpty, hf, List.flatten_singleton]⟩
  · rw [hf] at h
    simp at h

theorem Multi.split {r : List (List β)} (h : Multi r) :
    ∃ a b, r = a++b ∧ a.flatten ≠ [] ∧ b.flatten ≠ [] := by
  unfold Multi at h
  rcases hf : r.filter (fun s => !s.isEmpty) with - | ⟨s, - | ⟨t, rest⟩⟩
  · simp [hf] at h
  · simp [hf] at h
  · obtain ⟨a, b, rfl, -, hs, hb⟩ := List.filter_eq_cons_iff.mp hf
    obtain ⟨c, d, rfl, -, ht, -⟩ := List.filter_eq_cons_iff.mp hb
    refine ⟨a ++ [s], c ++ t::d, by simp, ?_, ?_⟩
    · intro hnil
      have : s = [] := by simp_all
      simp [this] at hs
    · intro hnil
      have : t = [] := by simp_all
      simp [this] at ht

/-- One send is never cut. -/
theorem together_single (mk : ℕ → τ) (rs : List (List (List β))) (sends : List (τ × List β))
    (hmem : ∀ s ∈ tagged mk 0 rs, s ∈ sends) (h : ∀ r ∈ rs, ¬ Multi r) :
    Together mk rs (wire sends) := by
  intro i r hr
  rcases flatten_of_not_multi (h r (List.mem_of_getElem? hr)) with hnil | ⟨s, hs, heq⟩
  · rw [hnil]
    exact List.nil_infix
  · have hin : (mk i, s) ∈ sends := by
      apply hmem
      rw [tagged_split mk hr]
      exact List.mem_append_right _ (List.mem_append_left _ (List.mem_map_of_mem hs))
    obtain ⟨a, b, rfl⟩ := List.append_of_mem hin
    rw [heq, wire_append]
    exact ⟨wire a, wire b, by simp [wire, onWire]⟩

theorem together_of (mk : ℕ → τ) (rs : List (List (List β))) (others sends : List (τ × List β))
    (h : Interleaves (tagged mk 0 rs) others sends)
    (hc : (∃ r ∈ rs, Multi r) → ∀ s ∈ others, s.2 = []) : Together mk rs (wire sends) := by
  by_cases hm : ∃ r ∈ rs, Multi r
  · have hw : wire sends = wire (tagged mk 0 rs) :=
      h.flatMap_eq onWire (fun s hs => by rw [onWire, hc hm s hs, List.map_nil])
    rw [hw]
    exact together_alone mk rs
  · push Not at hm
    exact together_single mk rs sends (fun s hs => h.mem_left hs) hm

theorem prefix_before {p : α → Bool} {r a t : List α} {y : α} (h : r <+: a ++ y::t)
    (hr : ∀ x ∈ r, p x = true) (hy : p y = false) : r <+: a := by
  rcases List.prefix_or_prefix_of_prefix h (List.prefix_append a (y::t)) with hra | ⟨r', rfl⟩
  · exact hra
  · rw [List.prefix_append_right_inj] at h
    cases r' with
    | nil => simp
    | cons z r' =>
      obtain ⟨rfl, -⟩ := List.cons_prefix_cons.mp h
      have := hr z (by simp)
      rw [hy] at this
      cases this

theorem infix_after {p : α → Bool} {r o b : List α} (h : r <:+: o ++ b)
    (hr : ∀ x ∈ r, p x = true) (ho : ∀ x ∈ o, p x = false) : r <:+: b := by
  induction o with
  | nil => exact h
  | cons y o ih =>
    rcases List.infix_cons_iff.mp h with hpre | hrest
    · have hnil := prefix_before (a := []) hpre hr (ho y (by simp))
      rw [List.prefix_nil.mp hnil]
      exact List.nil_infix
    · exact ih hrest (fun x hx => ho x (by simp [hx]))

theorem infix_beside {p : α → Bool} {r a o b : List α} (h : r <:+: a ++ (o ++ b))
    (hr : ∀ x ∈ r, p x = true) (hne : o ≠ []) (ho : ∀ x ∈ o, p x = false) :
    r <:+: a ∨ r <:+: b := by
  induction a with
  | nil => exact .inr (infix_after h hr ho)
  | cons x a ih =>
    rcases List.infix_cons_iff.mp h with hpre | hrest
    · obtain ⟨y, o', rfl⟩ := List.exists_cons_of_ne_nil hne
      exact .inl (prefix_before (a := x::a) hpre hr (ho y (by simp))).isInfix
    · rcases ih hrest with ha | hb
      · exact .inl (List.infix_cons ha)
      · exact .inr hb

theorem wire_tagged_tag (mk : ℕ → τ) (n : ℕ) (rs : List (List (List β))) {x : τ × β}
    (h : x ∈ wire (tagged mk n rs)) : ∃ j, n ≤ j ∧ j < n+rs.length ∧ x.1 = mk j := by
  obtain ⟨s, hs, hx⟩ := List.mem_flatMap.mp h
  obtain ⟨b, -, rfl⟩ := List.mem_map.mp hx
  obtain ⟨j, -, hj, hlt, htag, -⟩ := tagged_mem mk n rs hs
  exact ⟨j, hj, hlt, htag⟩

theorem countP_eq_zero_of_tag [DecidableEq τ] (t : τ) {w : List (τ × β)}
    (h : ∀ x ∈ w, x.1 ≠ t) : w.countP (fun x => x.1 = t) = 0 :=
  List.countP_eq_zero.mpr (fun x hx => by simpa using h x hx)

theorem countP_eq_length_of_tag [DecidableEq τ] (t : τ) (bytes : List β) :
    (bytes.map (t, ·)).countP (fun x => x.1 = t) = bytes.length := by
  rw [List.countP_map, List.countP_eq_length.mpr (by simp)]

/-- When a request has two sends that are not empty, a send of the other
thread may fall between them. -/
theorem not_together [DecidableEq τ] (mk : ℕ → τ) (hmk : Function.Injective mk)
    (rs : List (List (List β))) (others : List (τ × List β))
    (htags : ∀ s ∈ others, ∀ i, s.1 ≠ mk i) {r : List (List β)} (hr : r ∈ rs) (hm : Multi r)
    {s : τ × List β} (hs : s ∈ others) (hne : s.2 ≠ []) :
    ∃ sends, Interleaves (tagged mk 0 rs) others sends ∧ ¬ Together mk rs (wire sends) := by
  obtain ⟨i, hi⟩ := List.getElem?_of_mem hr
  obtain ⟨a, b, rfl, ha, hb⟩ := hm.split
  have hilt : i < rs.length := (List.getElem?_eq_some_iff.mp hi).1
  refine ⟨(tagged mk 0 (rs.take i) ++ a.map (mk i, ·)) ++
    (others ++ (b.map (mk i, ·) ++ tagged mk (i+1) (rs.drop (i+1)))), ?_, fun h => ?_⟩
  · have hsplit : tagged mk 0 rs = (tagged mk 0 (rs.take i) ++ a.map (mk i, ·)) ++
        (b.map (mk i, ·) ++ tagged mk (i+1) (rs.drop (i+1))) := by
      rw [tagged_split mk hi, List.map_append]
      simp only [List.append_assoc]
    rw [hsplit]
    exact .insert _ _ _
  · have hin := h i _ hi
    simp only [wire_append, wire_map] at hin
    have hbefore : (wire (tagged mk 0 (rs.take i))).countP (fun x => x.1 = mk i) = 0 := by
      refine countP_eq_zero_of_tag (mk i) (fun x hx heq => ?_)
      obtain ⟨j, -, hj, hx⟩ := wire_tagged_tag mk 0 _ hx
      have := hmk (hx.symm.trans heq)
      rw [List.length_take_of_le (by omega)] at hj
      omega
    have hafter : (wire (tagged mk (i+1) (rs.drop (i+1)))).countP (fun x => x.1 = mk i) = 0 := by
      refine countP_eq_zero_of_tag (mk i) (fun x hx heq => ?_)
      obtain ⟨j, hj, -, hx⟩ := wire_tagged_tag mk (i+1) _ hx
      have := hmk (hx.symm.trans heq)
      omega
    have hlena := List.length_pos_iff.mpr ha
    have hlenb := List.length_pos_iff.mpr hb
    rcases infix_beside (p := fun x => decide (x.1 = mk i)) hin (by
        intro x hx
        obtain ⟨y, -, rfl⟩ := List.mem_map.mp hx
        simp) (by
        obtain ⟨c, d, rfl⟩ := List.append_of_mem hs
        simp [wire, onWire, hne]) (by
        intro x hx
        obtain ⟨t, ht, hxt⟩ := List.mem_flatMap.mp hx
        obtain ⟨y, -, rfl⟩ := List.mem_map.mp hxt
        simpa using htags t ht i) with hside | hside
    all_goals
      have hle := hside.sublist.countP_le (p := fun x => decide (x.1 = mk i))
      rw [countP_eq_length_of_tag, List.countP_append, countP_eq_length_of_tag, List.flatten_append,
        List.length_append] at hle
      omega

/-- Two threads never mix their requests exactly when neither can fall into
a request of the other. -/
theorem together_iff [DecidableEq τ] (mk mk' : ℕ → τ) (hmk : Function.Injective mk)
    (hmk' : Function.Injective mk') (hne : ∀ i j, mk i ≠ mk' j) (rs us : List (List (List β))) :
    (∀ sends, Interleaves (tagged mk 0 rs) (tagged mk' 0 us) sends →
      Together mk rs (wire sends) ∧ Together mk' us (wire sends)) ↔
    ((∃ r ∈ rs, Multi r) → ∀ u ∈ us, Silent u) ∧ ((∃ u ∈ us, Multi u) → ∀ r ∈ rs, Silent r) := by
  have silent_of (mk : ℕ → τ) (rs : List (List (List β))) :
      (∀ s ∈ tagged mk 0 rs, s.2 = []) ↔ ∀ r ∈ rs, Silent r := by
    constructor
    · intro h r hr s hs
      obtain ⟨i, hi⟩ := List.getElem?_of_mem hr
      apply h (mk i, s)
      rw [tagged_split mk hi]
      exact List.mem_append_right _ (List.mem_append_left _ (List.mem_map_of_mem hs))
    · intro h s hs
      obtain ⟨-, r, -, -, -, hr, hm⟩ := tagged_mem mk 0 rs hs
      exact h r hr s.2 hm
  have tags (mk mk' : ℕ → τ) (hne : ∀ i j, mk i ≠ mk' j) (us : List (List (List β))) :
      ∀ s ∈ tagged mk' 0 us, ∀ i, s.1 ≠ mk i := by
    intro s hs i
    obtain ⟨j, -, -, -, htag, -⟩ := tagged_mem mk' 0 us hs
    rw [htag]
    exact (hne i j).symm
  constructor
  · intro h
    constructor
    · rintro ⟨r, hr, hm⟩
      rw [← silent_of mk']
      intro s hs
      by_contra hs0
      obtain ⟨sends, hint, hnot⟩ := not_together mk hmk rs _ (tags mk mk' hne us) hr hm hs hs0
      exact hnot (h sends hint).1
    · rintro ⟨u, hu, hm⟩
      rw [← silent_of mk]
      intro s hs
      by_contra hs0
      obtain ⟨sends, hint, hnot⟩ := not_together mk' hmk' us _
        (tags mk' mk (fun i j => (hne j i).symm) rs) hu hm hs hs0
      exact hnot (h sends hint.swap).2
  · rintro ⟨hrs, hus⟩ sends hint
    rw [← silent_of mk'] at hrs
    rw [← silent_of mk] at hus
    exact ⟨together_of mk rs _ sends hint hrs, together_of mk' us _ sends hint.swap hus⟩

end CSE344.SharedWire
