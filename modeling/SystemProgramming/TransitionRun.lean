import Mathlib.Data.Int.Order.Basic
import Mathlib.Data.List.Basic

/-!
# Finite runs of labelled transitions

A system is a partial step function. The label carries every choice the
environment makes (which party moves, what a call returns, who is woken),
and `none` says that the label is not enabled. An interleaving is a list of
labels, so a statement about every schedule is a statement about every list.
-/

set_option autoImplicit false

namespace CSE344.TransitionRun

variable {σ α : Type*}

def run (step : α → σ → Option σ) : List α → σ → Option σ
  | [], s => some s
  | a::as, s => (step a s).bind (run step as)

@[simp] theorem run_nil (step : α → σ → Option σ) (s : σ) : run step [] s = some s := rfl

theorem run_cons_iff (step : α → σ → Option σ) (a : α) (as : List α) (s t : σ) :
    run step (a::as) s = some t ↔ ∃ u, step a s = some u ∧ run step as u = some t := by
  simp [run, Option.bind_eq_some_iff]

theorem run_append_iff (step : α → σ → Option σ) (as bs : List α) (s t : σ) :
    run step (as++bs) s = some t ↔ ∃ u, run step as s = some u ∧ run step bs u = some t := by
  induction as generalizing s with
  | nil => simp
  | cons a as ih =>
    simp only [List.cons_append, run_cons_iff, ih]
    constructor
    · rintro ⟨u, hu, v, hv, ht⟩
      exact ⟨v, ⟨u, hu, hv⟩, ht⟩
    · rintro ⟨v, ⟨u, hu, hv⟩, ht⟩
      exact ⟨u, hu, v, hv, ht⟩

/-- A step with a guard. -/
theorem guarded_iff {p : Prop} [Decidable p] {s t : σ} :
    (if p then some s else none) = some t ↔ p ∧ s = t := by
  simp only [Option.ite_none_right_eq_some, Option.some.injEq]

def Reaches (step : α → σ → Option σ) (s t : σ) : Prop := ∃ as, run step as s = some t

theorem Reaches.refl (step : α → σ → Option σ) (s : σ) : Reaches step s s := ⟨[], rfl⟩

theorem Reaches.step {step : α → σ → Option σ} {s t u : σ} {a : α}
    (h : step a s = some t) (r : Reaches step t u) : Reaches step s u := by
  obtain ⟨as, has⟩ := r
  exact ⟨a::as, (run_cons_iff step a as s u).mpr ⟨t, h, has⟩⟩

theorem Reaches.trans {step : α → σ → Option σ} {s t u : σ}
    (h : Reaches step s t) (r : Reaches step t u) : Reaches step s u := by
  obtain ⟨as, has⟩ := h
  obtain ⟨bs, hbs⟩ := r
  exact ⟨as++bs, (run_append_iff step as bs s u).mpr ⟨t, has, hbs⟩⟩

/-- What every step keeps, every run keeps. -/
theorem run_invariant (step : α → σ → Option σ) (P : σ → Prop)
    (hstep : ∀ a s t, P s → step a s = some t → P t)
    (as : List α) (s t : σ) (hs : P s) (h : run step as s = some t) : P t := by
  induction as generalizing s with
  | nil =>
    obtain rfl : s = t := by simpa using h
    exact hs
  | cons a as ih =>
    obtain ⟨u, hu, ht⟩ := (run_cons_iff step a as s t).mp h
    exact ih u (hstep a s u hs hu) ht

theorem run_view {τ : Type*} (step : α → σ → Option σ) (step' : α → τ → Option τ) (view : σ → τ)
    (hstep : ∀ a s t, step a s = some t → step' a (view s) = some (view t))
    (as : List α) (s t : σ) (h : run step as s = some t) :
    run step' as (view s) = some (view t) := by
  induction as generalizing s with
  | nil =>
    obtain rfl : s = t := by simpa using h
    rfl
  | cons a as ih =>
    obtain ⟨u, hu, ht⟩ := (run_cons_iff step a as s t).mp h
    exact (run_cons_iff step' a as _ _).mpr ⟨view u, hstep a s u hu, ih u ht⟩

/-- What one party does: its labels are steps of a system of its own, and the
others' labels leave that one as it is. -/
theorem run_project {τ β : Type*} (step : α → σ → Option σ) (step' : β → τ → Option τ)
    (own : α → Option β) (R : σ → τ → Prop)
    (hown : ∀ a b s s' t, R s t → own a = some b → step a s = some s' →
      ∃ t', step' b t = some t' ∧ R s' t')
    (hother : ∀ a s s' t, R s t → own a = none → step a s = some s' → R s' t)
    (as : List α) (s s' : σ) (t : τ) (hr : R s t) (h : run step as s = some s') :
    ∃ t', run step' (as.filterMap own) t = some t' ∧ R s' t' := by
  induction as generalizing s t with
  | nil =>
    obtain rfl : s = s' := by simpa using h
    exact ⟨t, rfl, hr⟩
  | cons a as ih =>
    obtain ⟨u, hu, hrest⟩ := (run_cons_iff step a as s s').mp h
    cases hb : own a with
    | none =>
      rw [List.filterMap_cons_none hb]
      exact ih u t (hother a s u t hr hb hu) hrest
    | some b =>
      obtain ⟨v, hv, hrv⟩ := hown a b s u t hr hb hu
      obtain ⟨t', ht', hr'⟩ := ih u v hrv hrest
      rw [List.filterMap_cons_some hb]
      exact ⟨t', (run_cons_iff step' b _ t t').mpr ⟨v, hv, ht'⟩, hr'⟩

/-- Every label of the run is taken in a state where `C` allows it. -/
def Meets (step : α → σ → Option σ) (C : α → σ → Prop) : List α → σ → Prop
  | [], _ => True
  | a::as, s => C a s ∧ match step a s with
    | none => True
    | some t => Meets step C as t

instance Meets.decidable (step : α → σ → Option σ) (C : α → σ → Prop)
    [hC : ∀ a s, Decidable (C a s)] : ∀ as s, Decidable (Meets step C as s)
  | [], _ => isTrue trivial
  | a::as, s => match h : step a s with
    | none => decidable_of_iff (C a s) (by simp [Meets, h])
    | some t =>
      have := Meets.decidable step C as t
      decidable_of_iff (C a s ∧ Meets step C as t) (by simp [Meets, h])

theorem Meets.tail {step : α → σ → Option σ} {C : α → σ → Prop} {a : α} {as : List α}
    {s t : σ} (hc : Meets step C (a::as) s) (h : step a s = some t) : Meets step C as t := by
  simpa [h] using hc.2

theorem Meets.cons {step : α → σ → Option σ} {C : α → σ → Prop} {a : α} {as : List α}
    {s t : σ} (ha : C a s) (h : step a s = some t) (hc : Meets step C as t) :
    Meets step C (a::as) s := ⟨ha, by rw [h]; exact hc⟩

theorem meets_of_labels (step : α → σ → Option σ) (C : α → σ → Prop) (as : List α)
    (h : ∀ a ∈ as, ∀ s, C a s) (s : σ) : Meets step C as s := by
  induction as generalizing s with
  | nil => trivial
  | cons a as ih =>
    refine ⟨h a (by simp) s, ?_⟩
    split
    · trivial
    · exact ih (fun b hb => h b (by simp [hb])) _

theorem meets_of_notMem (step : α → σ → Option σ) (l : α) (as : List α) (h : l ∉ as) (s : σ) :
    Meets step (fun a _ => a ≠ l) as s := by
  refine meets_of_labels step _ as (fun a ha _ => ?_) s
  rintro rfl
  exact h ha

theorem meets_labels_iff (step : α → σ → Option σ) (p : α → Prop) (as : List α) (s t : σ)
    (h : run step as s = some t) : Meets step (fun a _ => p a) as s ↔ ∀ a ∈ as, p a := by
  induction as generalizing s with
  | nil => simp [Meets]
  | cons a as ih =>
    obtain ⟨u, hu, ht⟩ := (run_cons_iff step a as s t).mp h
    simp [Meets, hu, ih u ht]

/-- Conditions that agree wherever an invariant holds are met by the same runs,
also if only the steps that one of them allows keep the invariant. -/
theorem meets_congr_guarded (step : α → σ → Option σ) (C D : α → σ → Prop) (P : σ → Prop)
    (hstep : ∀ a s t, P s → D a s → step a s = some t → P t)
    (hiff : ∀ a s, P s → (C a s ↔ D a s)) (as : List α) (s : σ) (hs : P s) :
    Meets step C as s ↔ Meets step D as s := by
  induction as generalizing s with
  | nil => rfl
  | cons a as ih =>
    unfold Meets
    cases h : step a s with
    | none => simp only [hiff a s hs]
    | some t =>
      rw [hiff a s hs]
      apply and_congr_right
      intro hd
      exact ih t (hstep a s t hs hd h)

theorem meets_congr (step : α → σ → Option σ) (C D : α → σ → Prop) (P : σ → Prop)
    (hstep : ∀ a s t, P s → step a s = some t → P t) (hiff : ∀ a s, P s → (C a s ↔ D a s))
    (as : List α) (s : σ) (hs : P s) : Meets step C as s ↔ Meets step D as s :=
  meets_congr_guarded step C D P (fun a s t hs _ h => hstep a s t hs h) hiff as s hs

/-- The invariant rule for runs whose steps all meet a condition. -/
theorem guarded_invariant (step : α → σ → Option σ) (C : α → σ → Prop) (P : σ → Prop)
    (hstep : ∀ a s t, P s → C a s → step a s = some t → P t)
    (as : List α) (s t : σ) (hs : P s) (hc : Meets step C as s)
    (h : run step as s = some t) : P t := by
  induction as generalizing s with
  | nil =>
    obtain rfl : s = t := by simpa using h
    exact hs
  | cons a as ih =>
    obtain ⟨u, hu, ht⟩ := (run_cons_iff step a as s t).mp h
    exact ih u (hstep a s u hs hc.1 hu) (hc.tail hu) ht

/-- What a step with the label `l` sets up and all steps keep holds at the end
of a run that takes such a step. -/
theorem run_after_label (step : α → σ → Option σ) (l : α) (P Q : σ → Prop)
    (hinv : ∀ a s t, P s → step a s = some t → P t) (hset : ∀ s t, P s → step l s = some t → Q t)
    (hkeep : ∀ a s t, P s → Q s → step a s = some t → Q t)
    (as : List α) (hl : l ∈ as) (s t : σ) (hs : P s) (h : run step as s = some t) : Q t := by
  obtain ⟨before, after, rfl⟩ := List.append_of_mem hl
  obtain ⟨u, hu, hrest⟩ := (run_append_iff step before _ s t).mp h
  obtain ⟨v, hv, ht⟩ := (run_cons_iff step l after u t).mp hrest
  have hpu := run_invariant step P hinv before s u hs hu
  exact (run_invariant step (fun w => P w ∧ Q w)
    (fun a w x hw hx => ⟨hinv a w x hw.1 hx, hkeep a w x hw.1 hw.2 hx⟩) after v t
    ⟨hinv l u v hpu hv, hset u v hpu hv⟩ ht).2

/-- Every state of the run has the property, the first and the last included. -/
def Throughout (step : α → σ → Option σ) (P : σ → Prop) : List α → σ → Prop
  | [], s => P s
  | a::as, s => P s ∧ match step a s with
    | none => True
    | some t => Throughout step P as t

theorem Throughout.last {step : α → σ → Option σ} {P : σ → Prop} {as : List α} {s t : σ}
    (hp : Throughout step P as s) (h : run step as s = some t) : P t := by
  induction as generalizing s with
  | nil =>
    obtain rfl : s = t := by simpa using h
    exact hp
  | cons a as ih =>
    obtain ⟨u, hu, ht⟩ := (run_cons_iff step a as s t).mp h
    have hp := hp.2
    rw [hu] at hp
    exact ih hp ht

theorem Throughout.meets {step : α → σ → Option σ} {P : σ → Prop} {as : List α} {s : σ}
    (hp : Throughout step P as s) : Meets step (fun _ s => P s) as s := by
  induction as generalizing s with
  | nil => trivial
  | cons a as ih =>
    refine ⟨hp.1, ?_⟩
    have hrest := hp.2
    cases h : step a s with
    | none => trivial
    | some t =>
      rw [h] at hrest
      exact ih hrest

theorem throughout_of_guarded (step : α → σ → Option σ) (C : α → σ → Prop) (P Q : σ → Prop)
    (hstep : ∀ a s t, Q s → C a s → step a s = some t → Q t) (himp : ∀ s, Q s → P s)
    (as : List α) (s : σ) (hs : Q s) (hc : Meets step C as s) : Throughout step P as s := by
  induction as generalizing s with
  | nil => exact himp s hs
  | cons a as ih =>
    refine ⟨himp s hs, ?_⟩
    cases h : step a s with
    | none => trivial
    | some t => exact ih t (hstep a s t hs hc.1 h) (hc.tail h)

/-- A property that a step keeps if and only if a condition holds before it. -/
theorem throughout_iff_meets (step : α → σ → Option σ) (C : α → σ → Prop) (P Q : σ → Prop)
    (hkeep : ∀ a s t, P s → Q s → step a s = some t → (P t ↔ C a s))
    (hinv : ∀ a s t, P s → Q s → C a s → step a s = some t → Q t)
    (as : List α) (s t : σ) (hp : P s) (hq : Q s) (h : run step as s = some t) :
    Throughout step P as s ↔ Meets step C as s := by
  induction as generalizing s with
  | nil => exact ⟨fun _ => trivial, fun _ => hp⟩
  | cons a as ih =>
    obtain ⟨u, hu, ht⟩ := (run_cons_iff step a as s t).mp h
    simp only [Throughout, Meets, hu]
    constructor
    · rintro ⟨-, hth⟩
      have hpu : P u := by
        cases as with
        | nil => exact hth
        | cons b bs => exact hth.1
      have hc := (hkeep a s u hp hq hu).mp hpu
      exact ⟨hc, (ih u hpu (hinv a s u hp hq hc hu) ht).mp hth⟩
    · rintro ⟨hc, hm⟩
      have hpu := (hkeep a s u hp hq hu).mpr hc
      exact ⟨hp, (ih u hpu (hinv a s u hp hq hc hu) ht).mpr hm⟩

/-- A measure that a step keeps where `C` allows it and raises elsewhere tells
at the end of a run whether every label was allowed. -/
theorem meets_iff_of_drift (step : α → σ → Option σ) (C : α → σ → Prop) (f : σ → ℤ)
    (hkeep : ∀ a s t, C a s → step a s = some t → f t = f s)
    (hrise : ∀ a s t, ¬ C a s → step a s = some t → f s < f t)
    (as : List α) (s t : σ) (h : run step as s = some t) :
    f s ≤ f t ∧ (f t = f s ↔ Meets step C as s) := by
  induction as generalizing s with
  | nil =>
    obtain rfl : s = t := by simpa using h
    exact ⟨le_refl _, by simp [Meets]⟩
  | cons a as ih =>
    obtain ⟨u, hu, ht⟩ := (run_cons_iff step a as s t).mp h
    obtain ⟨hle, hiff⟩ := ih u ht
    simp only [Meets, hu]
    by_cases hc : C a s
    · rw [← hkeep a s u hc hu, hiff]
      exact ⟨hle, by simp [hc]⟩
    · have := hrise a s u hc hu
      refine ⟨by omega, ⟨fun heq => by omega, fun hm => absurd hm.1 hc⟩⟩

section Outputs

variable {β : Type*}

/-- What the steps of a run put out, in order. -/
def outputs (step : α → σ → Option σ) (out : α → σ → List β) : List α → σ → List β
  | [], _ => []
  | a::as, s => out a s ++ match step a s with
    | none => []
    | some t => outputs step out as t

/-- If every step pays a part of what the state owes, so does the run. -/
theorem outputs_owed (step : α → σ → Option σ) (out : α → σ → List β) (C : α → σ → Prop)
    (owed : σ → List β)
    (hstep : ∀ a s t, C a s → step a s = some t → out a s ++ owed t = owed s)
    (as : List α) (s t : σ) (hc : Meets step C as s) (h : run step as s = some t) :
    outputs step out as s ++ owed t = owed s := by
  induction as generalizing s with
  | nil =>
    obtain rfl : s = t := by simpa using h
    rfl
  | cons a as ih =>
    obtain ⟨u, hu, ht⟩ := (run_cons_iff step a as s t).mp h
    simp only [outputs, hu]
    rw [List.append_assoc, ih u (hc.tail hu) ht, hstep a s u hc.1 hu]

theorem outputs_forall (step : α → σ → Option σ) (out : α → σ → List β) (P : β → Prop)
    (as : List α) (s : σ) :
    (∀ b ∈ outputs step out as s, P b) ↔ Meets step (fun a s => ∀ b ∈ out a s, P b) as s := by
  induction as generalizing s with
  | nil => simp [outputs, Meets]
  | cons a as ih =>
    simp only [outputs, Meets, List.forall_mem_append]
    cases step a s with
    | none => simp
    | some t => simp only [ih t]

end Outputs

section Answers

variable {τ β : Type*}

/-- A list of calls, each of which gives an answer. -/
def answers (call : α → σ → σ × β) : List α → σ → σ × List β
  | [], s => (s, [])
  | a::as, s =>
    let r := call a s
    let rest := answers call as r.1
    (rest.1, r.2 :: rest.2)

/-- Two systems whose states stay related and whose answers agree at every
call agree on every list of calls. -/
theorem answers_refine (f : α → σ → σ × β) (g : α → τ → τ × β) (R : σ → τ → Prop)
    (hcall : ∀ a s t, R s t → R (f a s).1 (g a t).1 ∧ (f a s).2 = (g a t).2)
    (as : List α) (s : σ) (t : τ) (h : R s t) :
    R (answers f as s).1 (answers g as t).1 ∧ (answers f as s).2 = (answers g as t).2 := by
  induction as generalizing s t with
  | nil => exact ⟨h, rfl⟩
  | cons a as ih =>
    obtain ⟨hnext, hanswer⟩ := hcall a s t h
    obtain ⟨hlast, hanswers⟩ := ih _ _ hnext
    refine ⟨hlast, ?_⟩
    rw [answers, answers, hanswer, hanswers]

end Answers

end CSE344.TransitionRun
