import Mathlib.Logic.Function.Basic
import SystemProgramming.TransitionRun

/-!
# One at a time

A system of parties is serialisable when what each of them has done so far,
with the answers it got, could have been done one after another: there is one
order of all events that keeps every party's own order and replays to the same
shared state.
-/

set_option autoImplicit false

namespace CSE344.SerialOrder
open TransitionRun

variable {ι ε σ : Type*} [DecidableEq ι]

/-- The events of one party in an order of all events. -/
def history (order : List (ι × ε)) (i : ι) : List ε :=
  (order.filter (fun e => e.1 = i)).map Prod.snd

def Serialisable (exec : ε → σ → Option σ) (s₀ : σ) (logs : ι → List ε) (s : σ) : Prop :=
  ∃ order : List (ι × ε), run (fun e => exec e.2) order s₀ = some s ∧ history order = logs

theorem history_append (order : List (ι × ε)) (i : ι) (e : ε) :
    history (order ++ [(i, e)]) = Function.update (history order) i (history order i ++ [e]) := by
  funext j
  by_cases h : i = j
  · subst h
    simp [history]
  · rw [Function.update_of_ne (Ne.symm h)]
    simp [history, h]

theorem Serialisable.start (exec : ε → σ → Option σ) (s₀ : σ) :
    Serialisable exec s₀ (fun _ : ι => []) s₀ := ⟨[], rfl, rfl⟩

/-- An event that happens on the serial state goes to the end of the order. -/
theorem Serialisable.append {exec : ε → σ → Option σ} {s₀ s t : σ} {logs : ι → List ε}
    (h : Serialisable exec s₀ logs s) (i : ι) {e : ε} (he : exec e s = some t) :
    Serialisable exec s₀ (Function.update logs i (logs i ++ [e])) t := by
  obtain ⟨order, hrun, rfl⟩ := h
  refine ⟨order ++ [(i, e)], (run_append_iff _ _ _ _ _).mpr ⟨s, hrun, ?_⟩, history_append order i e⟩
  exact (run_cons_iff _ _ _ _ _).mpr ⟨t, he, rfl⟩

theorem history_cons (order : List (ι × ε)) (i j : ι) (e : ε) :
    history ((i, e)::order) j = if i = j then e :: history order j else history order j := by
  by_cases h : i = j <;> simp [history, h]

theorem order_of_two {order : List (Fin 2 × ε)} {d e : ε} (hd : history order 0 = [d])
    (he : history order 1 = [e]) : order = [(0, d), (1, e)] ∨ order = [(1, e), (0, d)] := by
  have empty (rest : List (Fin 2 × ε)) (h₀ : history rest 0 = []) (h₁ : history rest 1 = []) :
      rest = [] := by
    rcases rest with - | ⟨⟨i, a⟩, rest⟩
    · rfl
    · rw [history_cons] at h₀ h₁
      rcases (by omega : i = 0 ∨ i = 1) with rfl | rfl
      · simp at h₀
      · simp at h₁
  have single (i : Fin 2) (a : ε) (rest : List (Fin 2 × ε)) (hi : history rest i = [a])
      (hother : ∀ j, j ≠ i → history rest j = []) : rest = [(i, a)] := by
    rcases rest with - | ⟨⟨j, b⟩, rest⟩
    · cases hi
    · by_cases hj : j = i
      · subst hj
        simp only [history_cons, if_true, List.cons.injEq] at hi
        obtain ⟨rfl, hi⟩ := hi
        have hrest (k : Fin 2) : history rest k = [] := by
          by_cases hk : k = j
          · rw [hk, hi]
          · simpa [history_cons, Ne.symm hk] using hother k hk
        rw [empty rest (hrest 0) (hrest 1)]
      · have := hother j hj
        rw [history_cons, if_pos rfl] at this
        cases this
  rcases order with - | ⟨⟨i, a⟩, rest⟩
  · cases hd
  · rcases (by omega : i = 0 ∨ i = 1) with rfl | rfl
    · simp only [history_cons, if_true, List.cons.injEq] at hd
      obtain ⟨rfl, hd⟩ := hd
      rw [history_cons, if_neg (by decide)] at he
      left
      rw [single 1 e rest he (fun j hj => by rw [(by omega : j = 0), hd])]
    · simp only [history_cons, if_true, List.cons.injEq] at he
      obtain ⟨rfl, he⟩ := he
      rw [history_cons, if_neg (by decide)] at hd
      right
      rw [single 0 d rest hd (fun j hj => by rw [(by omega : j = 1), he])]

end CSE344.SerialOrder
