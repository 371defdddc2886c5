import Mathlib.Data.Int.ModEq
import Mathlib.Tactic.Linarith

/-!
# Queues in a circular array

A front index, a rear index and a count over an array of `cap` cells. Indices
advance by C's truncating remainder and start anywhere in the array. The
abstract queue is the list of the live cells, read from the front with
wrap-around; cells that are not live are unrestricted.
-/

set_option autoImplicit false

namespace CSE344.RingQueue

variable {α : Type*}

def advance (cap i : ℤ) : ℤ := (i+1).tmod cap

def contents (cap : ℤ) (cells : ℤ → α) (front : ℤ) (count : ℕ) : List α :=
  (List.range count).map (fun k : ℕ => cells ((front+(k:ℤ))%cap))

structure Valid (cap front rear count : ℤ) : Prop where
  front_nonneg : 0 ≤ front
  front_lt : front < cap
  count_nonneg : 0 ≤ count
  count_le : count ≤ cap
  rear_eq : rear = (front+count)%cap

def Live (cap front count i : ℤ) : Prop := ∃ k, 0 ≤ k ∧ k < count ∧ i = (front+k)%cap

theorem advance_eq (cap i : ℤ) (hi : 0 ≤ i) : advance cap i = (i+1)%cap :=
  Int.tmod_eq_emod_of_nonneg (by omega)

theorem Valid.cap_pos {cap f r c : ℤ} (h : Valid cap f r c) : 0 < cap := by
  have := h.front_nonneg
  have := h.front_lt
  omega

theorem Valid.rear_bounds {cap f r c : ℤ} (h : Valid cap f r c) : 0 ≤ r ∧ r < cap := by
  rw [h.rear_eq]
  exact ⟨Int.emod_nonneg _ (ne_of_gt h.cap_pos), Int.emod_lt_of_pos _ h.cap_pos⟩

theorem valid_empty (cap : ℤ) (hcap : 0 < cap) : Valid cap 0 0 0 :=
  ⟨le_refl _, hcap, le_refl _, le_of_lt hcap, by simp⟩

theorem valid_push {cap f r c : ℤ} (h : Valid cap f r c) (hc : c < cap) :
    Valid cap f (advance cap r) (c+1) where
  front_nonneg := h.front_nonneg
  front_lt := h.front_lt
  count_nonneg := by have := h.count_nonneg; omega
  count_le := hc
  rear_eq := by
    rw [advance_eq cap r h.rear_bounds.1, h.rear_eq, Int.emod_add_emod, add_assoc]

theorem valid_pop {cap f r c : ℤ} (h : Valid cap f r c) (hc : 0 < c) :
    Valid cap (advance cap f) r (c-1) where
  front_nonneg := by
    rw [advance_eq cap f h.front_nonneg]
    exact Int.emod_nonneg _ (ne_of_gt h.cap_pos)
  front_lt := by
    rw [advance_eq cap f h.front_nonneg]
    exact Int.emod_lt_of_pos _ h.cap_pos
  count_nonneg := by omega
  count_le := by have := h.count_le; omega
  rear_eq := by
    rw [advance_eq cap f h.front_nonneg, h.rear_eq, Int.emod_add_emod]
    congr 1
    omega

theorem index_injective (cap f j k : ℤ) (hj : 0 ≤ j ∧ j < cap) (hk : 0 ≤ k ∧ k < cap)
    (h : (f+j)%cap = (f+k)%cap) : j = k := by
  have hd : cap ∣ (f+j)-(f+k) := Int.ModEq.dvd (show (f+k) ≡ (f+j) [ZMOD cap] from h.symm)
  obtain ⟨q, hq⟩ := hd
  have hq' : j-k = cap*q := by omega
  rcases lt_trichotomy q 0 with hn | rfl | hp
  · nlinarith
  · omega
  · nlinarith

/-- The cell a push writes holds no queued value. -/
theorem rear_not_live {cap f r c : ℤ} (h : Valid cap f r c) (hc : c < cap) :
    ¬ Live cap f c r := by
  rintro ⟨k, hk, hkc, hr⟩
  rw [h.rear_eq] at hr
  have := index_injective cap f c k ⟨h.count_nonneg, hc⟩ ⟨hk, by omega⟩ hr
  omega

theorem contents_congr (cap f : ℤ) (n : ℕ) (cells cells' : ℤ → α)
    (h : ∀ i, Live cap f n i → cells i = cells' i) :
    contents cap cells f n = contents cap cells' f n := by
  apply List.map_congr_left
  intro k hk
  exact h _ ⟨k, by omega, by exact_mod_cast List.mem_range.mp hk, rfl⟩

theorem contents_push {cap f r c : ℤ} (h : Valid cap f r c) (hc : c < cap)
    (cells : ℤ → α) (x : α) :
    contents cap (Function.update cells r x) f (c+1).toNat =
      contents cap cells f c.toNat ++ [x] := by
  have hc0 := h.count_nonneg
  have hn : (c+1).toNat = c.toNat+1 := by omega
  have hlast : (f+(c.toNat:ℤ))%cap = r := by rw [h.rear_eq]; congr 1; omega
  have hkeep : contents cap (Function.update cells r x) f c.toNat =
      contents cap cells f c.toNat := by
    apply contents_congr
    intro i hi
    apply Function.update_of_ne
    rintro rfl
    exact rear_not_live h hc (by simpa [Int.toNat_of_nonneg hc0] using hi)
  rw [hn, contents, List.range_succ, List.map_append, ← contents, hkeep]
  rw [List.map_singleton, hlast, Function.update_self]

theorem contents_pop {cap f r c : ℤ} (h : Valid cap f r c) (hc : 0 < c) (cells : ℤ → α) :
    contents cap cells f c.toNat =
      cells f :: contents cap cells (advance cap f) (c-1).toNat := by
  have hn : c.toNat = (c-1).toNat+1 := by omega
  have hf : (f+((0:ℕ):ℤ))%cap = f := by
    rw [Nat.cast_zero, add_zero, Int.emod_eq_of_lt h.front_nonneg h.front_lt]
  rw [hn, contents, List.range_succ_eq_map, List.map_cons, List.map_map, hf, contents]
  congr 1
  apply List.map_congr_left
  intro k _
  rw [advance_eq cap f h.front_nonneg, Int.emod_add_emod]
  simp only [Function.comp_apply, Nat.cast_succ]
  congr 2
  omega

@[simp] theorem contents_zero (cap : ℤ) (cells : ℤ → α) (f : ℤ) : contents cap cells f 0 = [] :=
  rfl

/-- Each cell holds a value that was put there, whatever has been overwritten
since. -/
def Written (cap : ℕ) (cells : ℤ → α) (xs : List α) : Prop :=
  ∀ j : ℕ, j < xs.length → ∃ d : ℕ, xs[j+cap*d]? = some (cells ((j:ℤ)%cap))

theorem written_nil (cap : ℕ) (cells : ℤ → α) : Written cap cells [] := fun _ hj => by
  simp at hj

theorem written_push {cap : ℕ} {cells : ℤ → α} {xs : List α} (h : Written cap cells xs) (x : α) :
    Written cap (Function.update cells ((xs.length:ℤ)%cap) x) (xs ++ [x]) := by
  intro j hj
  by_cases hcell : (j:ℤ)%cap = (xs.length:ℤ)%cap
  · have hle : j ≤ xs.length := by
      rw [List.length_append, List.length_singleton] at hj
      omega
    have hmod : xs.length%cap = j%cap := by exact_mod_cast hcell.symm
    obtain ⟨d, hd⟩ := Nat.dvd_of_mod_eq_zero (Nat.sub_mod_eq_zero_of_mod_eq hmod)
    refine ⟨d, ?_⟩
    rw [hcell, Function.update_self, ← hd, Nat.add_sub_cancel' hle, List.getElem?_concat_length]
  · have hlt : j < xs.length := by
      rw [List.length_append, List.length_singleton] at hj
      have hne : j ≠ xs.length := by
        rintro rfl
        exact hcell rfl
      omega
    obtain ⟨d, hd⟩ := h j hlt
    refine ⟨d, ?_⟩
    rw [Function.update_of_ne hcell, List.getElem?_append_left (List.getElem?_eq_some_iff.mp hd).1]
    exact hd

end CSE344.RingQueue
