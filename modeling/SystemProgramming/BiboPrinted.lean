import SystemProgramming.BiboReplies

/-!
# What the HW4 client prints with a reply

`response` is neither cleared nor terminated after a `recv`, and `%s` prints up
to the first NUL byte. What stands behind the received bytes is what earlier
and longer receives left there, or what the array held at first.
-/

set_option autoImplicit false

namespace CSE344.BiboPrinted
open CString BiboServer TransitionRun BiboReplies

/-- Some text received so far reaches the `i`-th byte of the array. -/
def Reached (ps : List Printed) (i : ℕ) : Prop := ∃ p ∈ ps, i < p.answered.length

/-- Nothing is printed but what the `recv` gave. -/
def Clean (p : Printed) : Prop := p.text.length = p.answered.length

/-- Nothing longer came before, and the array held a NUL at that place. -/
def Bare (init : Bytes) (before : List Printed) (p : Printed) : Prop :=
  ¬ Reached before p.answered.length ∧ init[p.answered.length]? = some 0

structure Layered (init : Bytes) (s : Session) : Prop where
  strings : ∀ x ∈ s.toClient, x.2 ≠ 0
  room : s.clientResponse.length = bufferSize
  old : ∀ i, ¬ Reached s.printed i → s.clientResponse[i]? = init[i]?
  new : ∀ i, Reached s.printed i → s.clientResponse[i]? ≠ some 0
  printed : ∀ (k : ℕ) (p : Printed), s.printed[k]? = some p → p.answered.length < bufferSize →
    (Clean p ↔ Bare init (s.printed.take k) p)

theorem reached_append (ps : List Printed) (p : Printed) (i : ℕ) :
    Reached (ps ++ [p]) i ↔ Reached ps i ∨ i < p.answered.length := by
  simp [Reached, or_and_right, exists_or]

theorem layered_start (pid : UInt32) (commands : List CStr) (init : Bytes)
    (hinit : init.length = bufferSize) (files : Bytes → Option Bytes) (response : Bytes) :
    Layered init (start pid commands init files response) where
  strings x hx := by cases hx
  room := hinit
  old i _ := rfl
  new i h := by
    obtain ⟨p, hp, -⟩ := h
    cases hp
  printed k p h := by cases h

instance Clean.decidable (p : Printed) : Decidable (Clean p) :=
  inferInstanceAs (Decidable (_ = _))

theorem clean_iff {data old : Bytes} (hdata : 0 ∉ data) (hlen : data.length < old.length) :
    (cstr (data ++ old.drop data.length)).length = data.length ↔ old[data.length]? = some 0 := by
  obtain ⟨b, hb⟩ : ∃ b, old[data.length]? = some b := ⟨_, List.getElem?_eq_getElem hlen⟩
  have hdrop : old.drop data.length = b :: old.drop (data.length+1) := by
    rw [List.drop_eq_getElem_cons hlen]
    rw [List.getElem?_eq_getElem hlen, Option.some.injEq] at hb
    rw [hb]
  rw [cstr_append hdata, hdrop, hb, Option.some.injEq, List.length_append, cstr]
  by_cases h0 : b = 0
  · simp [h0]
  · simp [h0]

section Steps

variable {init : Bytes} {cfg : Config} {s t : Session}

theorem overlay_get (data old : Bytes) (i : ℕ) :
    (data ++ old.drop data.length)[i]? = if i < data.length then data[i]? else old[i]? := by
  split_ifs with h
  · rw [List.getElem?_append_left h]
  · rw [List.getElem?_append_right (by omega), List.getElem?_drop]
    congr 1
    omega

theorem clientRecv_layered {n : ℕ} (hs : Layered init s)
    (h : step cfg (.clientRecv n) s = some t) : Layered init t := by
  obtain ⟨⟨-, -, hroom, hn⟩, rfl⟩ := guarded_iff.mp h
  obtain ⟨data, hdata⟩ : ∃ data, data = (s.toClient.take n).map Prod.snd := ⟨_, rfl⟩
  have hlen : data.length = n := by rw [hdata, List.length_map, List.length_take]; omega
  have hanswered : ((s.toClient.take n).map Prod.fst).length = n := by
    rw [List.length_map, List.length_take]
    omega
  have hnul : 0 ∉ data := by
    rw [hdata]
    intro h0
    obtain ⟨x, hx, hx0⟩ := List.mem_map.mp h0
    exact hs.strings x (List.mem_of_mem_take hx) hx0
  have hold := hs.room
  refine ⟨fun x hx => hs.strings x (List.mem_of_mem_drop hx), ?_, ?_, ?_, ?_⟩
  · rw [← hdata, List.length_append, List.length_drop, hlen, hold]
    omega
  · intro i hi
    rw [reached_append, not_or] at hi
    simp only [hanswered] at hi
    rw [← hdata, ← hlen, overlay_get, if_neg (by omega)]
    exact hs.old i hi.1
  · intro i hi
    rw [reached_append] at hi
    simp only [hanswered] at hi
    rw [← hdata, ← hlen, overlay_get]
    split_ifs with hlt
    · intro h0
      exact hnul (List.mem_of_getElem? h0)
    · exact hs.new i (hi.resolve_right (by omega))
  · intro k p hp hshort
    rcases Nat.lt_or_ge k s.printed.length with hk | hk
    · rw [List.getElem?_append_left hk] at hp
      rw [List.take_append_of_le_length (by omega)]
      exact hs.printed k p hp hshort
    · rw [List.getElem?_append_right hk] at hp
      obtain ⟨hzero, rfl⟩ : k-s.printed.length = 0 ∧ p = _ := by
        rw [List.getElem?_singleton] at hp
        split_ifs at hp with hz
        exact ⟨hz, (Option.some.inj hp).symm⟩
      rw [show k = s.printed.length by omega, List.take_left']
      · simp only [Clean, Bare, hanswered] at hshort ⊢
        rw [← hdata, ← hlen, clean_iff hnul (by omega)]
        by_cases hreach : Reached s.printed data.length
        · simp [hreach, hs.new _ hreach]
        · simp [hreach, hs.old _ hreach]
      · rfl

theorem serverRecv_layered {n : ℕ} {openOk : Bool} (hs : Layered init s)
    (h : step cfg (.serverRecv n openOk) s = some t) : Layered init t := by
  simp only [step] at h
  split at h
  · cases h
  split_ifs at h
  split at h
  · cases h
    exact ⟨hs.strings, hs.room, hs.old, hs.new, hs.printed⟩
  · rename_i u reply hhandle
    cases h
    refine ⟨fun x hx => ?_, hs.room, hs.old, hs.new, hs.printed⟩
    rcases List.mem_append.mp hx with hx | hx
    · exact hs.strings x hx
    · obtain ⟨b, hb, rfl⟩ := List.mem_map.mp hx
      obtain ⟨v, -, hreply⟩ := Option.bind_eq_some_iff.mp hhandle
      obtain ⟨r, hr, heq⟩ := Option.map_eq_some_iff.mp hreply
      cases heq
      simp only [stringAt, Option.ite_none_right_eq_some, Option.some.injEq] at hr
      rintro rfl
      exact noNul_cstr _ (hr.2 ▸ hb)

theorem layered_step (a : Act) (s t : Session) (hs : Layered init s)
    (h : step cfg a s = some t) : Layered init t := by
  cases a with
  | send =>
    simp only [step] at h
    split at h <;> cases h
    exact ⟨hs.strings, hs.room, hs.old, hs.new, hs.printed⟩
  | clientRecv n => exact clientRecv_layered hs h
  | clientEof =>
    simp only [step] at h
    split_ifs at h
    cases h
    exact ⟨hs.strings, hs.room, hs.old, hs.new, hs.printed⟩
  | serverRecv n openOk => exact serverRecv_layered hs h

end Steps

/-- However the stream is cut, a text shorter than the array is printed alone
if and only if no text before it was longer and the array first held a NUL
right behind it. -/
theorem printed_clean_iff (pid : UInt32) (commands : List CStr) (cfg : Config) (init : Bytes)
    (hinit : init.length = bufferSize) (files : Bytes → Option Bytes) (response : Bytes)
    (as : List Act) (s : Session)
    (h : run (step cfg) as (start pid commands init files response) = some s)
    (k : ℕ) (p : Printed) (hp : s.printed[k]? = some p) (hshort : p.answered.length < bufferSize) :
    Clean p ↔ Bare init (s.printed.take k) p :=
  (run_invariant (step cfg) (Layered init) layered_step as _ s
    (layered_start pid commands init hinit files response) h).printed k p hp hshort

def listHelp : List CStr := [literal "list", literal "help"]

def listHelpRun : List Act :=
  [.serverRecv 4 true, .send, .clientRecv 15, .serverRecv 4 true, .send, .clientRecv 1]

/-- One byte received after a text of fifteen is printed with the fourteen behind it. -/
theorem printed_clean_iff_list_help : ∃ s,
    run (step ⟨ascii "srv", none⟩) listHelpRun
        (start 1234 listHelp (List.replicate 1024 0) (fun _ => none) []) = some s ∧
      ∃ p, s.printed[1]? = some p ∧ ¬ Clean p ∧
        ¬ Bare (List.replicate 1024 0) (s.printed.take 1) p := by
  refine ⟨_, rfl, ⟨1, _, _⟩, rfl, by decide, fun hbare => ?_⟩
  have hclean := (printed_clean_iff 1234 listHelp ⟨ascii "srv", none⟩ (List.replicate 1024 0)
    (List.length_replicate) (fun _ => none) [] listHelpRun _ rfl 1 _ rfl (by decide)).mpr hbare
  exact absurd hclean (by decide)

end CSE344.BiboPrinted
