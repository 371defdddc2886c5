import Mathlib.Algebra.Ring.Nat
import SystemProgramming.CString

/-!
# Reading lines and filling fixed buffers

`fgets` with room for `n` bytes takes at most `n-1` bytes and stops after a
newline. A store past the end of a fixed buffer is `none`.
-/

set_option autoImplicit false

namespace CSE344.Stdio
open CString

def newline : UInt8 := 10

def fgets (n : ℕ) (content : Bytes) : Option (Bytes × Bytes) :=
  if content = [] then none
  else
    let len := min (n-1) ((content.takeWhile (· ≠ newline)).length+1)
    some (content.take len, content.drop len)

/-- What a loop of at most `turns` calls of `fgets` reads. -/
def fgetsLoop (n : ℕ) : ℕ → Bytes → List Bytes
  | 0, _ => []
  | turns+1, content =>
    match fgets n content with
    | none => []
    | some (line, rest) => line :: fgetsLoop n turns rest

def fgetsAll (n : ℕ) (content : Bytes) : List Bytes := fgetsLoop n content.length content

/-- The lines of a file, each with its newline; the last may be without. -/
def lines : Bytes → List Bytes
  | [] => []
  | b::bs =>
    if b = newline then [b] :: lines bs
    else match lines bs with
      | [] => [[b]]
      | l::ls => (b::l) :: ls

/-- `strcpy` into a buffer of `n` bytes that holds `m`. -/
def strcpy (n : ℕ) (s m : Bytes) : Option Bytes :=
  if s.length < n then some (s ++ 0 :: m.drop (s.length+1)) else none

def strcat (n : ℕ) (s m : Bytes) : Option Bytes := strcpy n (cstr m ++ s) m

def atoi (s : Bytes) : ℤ := (strtol s).bmod (2^32)

theorem fgets_append {n : ℕ} {content line rest : Bytes} (h : fgets n content = some (line, rest)) :
    line ++ rest = content := by
  simp only [fgets, Option.ite_none_left_eq_some, Option.some.injEq, Prod.mk.injEq] at h
  obtain ⟨-, rfl, rfl⟩ := h
  exact List.take_append_drop _ _

theorem fgets_length {n : ℕ} (hn : 2 ≤ n) {content line rest : Bytes}
    (h : fgets n content = some (line, rest)) : line ≠ [] := by
  simp only [fgets, Option.ite_none_left_eq_some, Option.some.injEq, Prod.mk.injEq] at h
  obtain ⟨hne, rfl, -⟩ := h
  have := List.length_pos_iff.mpr hne
  rw [← List.length_pos_iff, List.length_take]
  omega

theorem fgets_room {n : ℕ} {content line rest : Bytes} (h : fgets n content = some (line, rest)) :
    line.length ≤ n-1 := by
  simp only [fgets, Option.ite_none_left_eq_some, Option.some.injEq, Prod.mk.injEq] at h
  obtain ⟨-, rfl, -⟩ := h
  rw [List.length_take]
  omega

theorem fgets_none {n : ℕ} {content : Bytes} (h : fgets n content = none) : content = [] := by
  by_contra hne
  simp [fgets, hne] at h

theorem fgetsLoop_turns {n : ℕ} (hn : 2 ≤ n) (turns : ℕ) (content : Bytes)
    (h : content.length ≤ turns) : fgetsLoop n turns content = fgetsAll n content := by
  induction turns using Nat.strong_induction_on generalizing content with
  | _ turns ih =>
    rcases Nat.lt_or_eq_of_le h with hlt | rfl
    · cases turns with
      | zero => omega
      | succ turns =>
        rw [fgetsAll, fgetsLoop]
        cases hlen : content.length with
        | zero =>
          rw [List.length_eq_zero_iff.mp hlen]
          rfl
        | succ k =>
          rw [fgetsLoop]
          cases hf : fgets n content with
          | none => rfl
          | some p =>
            obtain ⟨line, rest⟩ := p
            have hsplit := congrArg List.length (fgets_append hf)
            have hline := List.length_pos_iff.mpr (fgets_length hn hf)
            rw [List.length_append] at hsplit
            dsimp only
            rw [ih turns (by omega) rest (by omega), ih k (by omega) rest (by omega)]
    · rfl

theorem fgetsAll_none {n : ℕ} {content : Bytes} (h : fgets n content = none) :
    fgetsAll n content = [] := by
  rw [fgets_none h]
  rfl

theorem fgetsAll_some {n : ℕ} (hn : 2 ≤ n) {content line rest : Bytes}
    (h : fgets n content = some (line, rest)) : fgetsAll n content = line :: fgetsAll n rest := by
  have hsplit := congrArg List.length (fgets_append h)
  have hline := List.length_pos_iff.mpr (fgets_length hn h)
  rw [List.length_append] at hsplit
  rw [← fgetsLoop_turns hn (content.length+1) content (by omega), fgetsLoop, h]
  dsimp only
  rw [fgetsLoop_turns hn _ _ (by omega)]

theorem fgetsLoop_room (n turns : ℕ) (c : Bytes) : ∀ l ∈ fgetsLoop n turns c, l.length ≤ n-1 := by
  induction turns generalizing c with
  | zero =>
    intro l hl
    cases hl
  | succ turns ih =>
    rw [fgetsLoop]
    cases h : fgets n c with
    | none =>
      intro l hl
      cases hl
    | some p => exact List.forall_mem_cons.mpr ⟨fgets_room h, ih p.2⟩

theorem fgetsAll_flatten {n : ℕ} (hn : 2 ≤ n) (c : Bytes) : (fgetsAll n c).flatten = c := by
  induction hlen : c.length using Nat.strong_induction_on generalizing c with
  | _ k ih =>
    cases h : fgets n c with
    | none =>
      rw [fgetsAll_none h, fgets_none h]
      rfl
    | some p =>
      obtain ⟨line, rest⟩ := p
      have hsplit := fgets_append h
      have hline := List.length_pos_iff.mpr (fgets_length hn h)
      have hlen' := congrArg List.length hsplit
      rw [List.length_append] at hlen'
      rw [fgetsAll_some hn h, List.flatten_cons, ih rest.length (by omega) rest rfl, hsplit]

theorem lines_split {c : Bytes} (hc : c ≠ []) :
    lines c = c.take ((c.takeWhile (· ≠ newline)).length+1) ::
      lines (c.drop ((c.takeWhile (· ≠ newline)).length+1)) := by
  induction c with
  | nil => exact absurd rfl hc
  | cons b bs ih =>
    rw [lines]
    by_cases hb : b = newline
    · rw [if_pos hb, List.takeWhile_cons_of_neg (by simpa using hb)]
      rfl
    · rw [if_neg hb, List.takeWhile_cons_of_pos (by simpa using hb), List.length_cons,
        List.take_succ_cons, List.drop_succ_cons]
      cases bs with
      | nil => rfl
      | cons b' bs => rw [ih (List.cons_ne_nil _ _)]

theorem lines_line {l : Bytes} (hl : newline ∉ l) (c : Bytes) :
    lines (l ++ newline::c) = (l ++ [newline]) :: lines c := by
  induction l with
  | nil => rfl
  | cons b l ih =>
    rw [List.mem_cons, not_or] at hl
    rw [List.cons_append, lines, if_neg (Ne.symm hl.1), ih hl.2]
    rfl

theorem lines_rest {l : Bytes} (hne : l ≠ []) (hl : newline ∉ l) : lines l = [l] := by
  have htake : l.takeWhile (· ≠ newline) = l := by
    rw [List.takeWhile_eq_self_iff]
    intro b hb
    simpa using ne_of_mem_of_not_mem hb hl
  rw [lines_split hne, htake, List.take_of_length_le (by omega),
    List.drop_eq_nil_of_le (by omega)]
  rfl

/-- The content of a file with these lines, each ended by a newline. -/
def ofLines (texts : List Bytes) : Bytes := (texts.map (· ++ [newline])).flatten

theorem ofLines_append (ls ms : List Bytes) : ofLines (ls++ms) = ofLines ls ++ ofLines ms := by
  rw [ofLines, List.map_append, List.flatten_append, ofLines, ofLines]

theorem ofLines_eq_nil {texts : List Bytes} : ofLines texts = [] ↔ texts = [] := by
  constructor
  · intro h
    cases texts with
    | nil => rfl
    | cons l ls => simp [ofLines] at h
  · rintro rfl
    rfl

theorem lines_ofLines_append {texts : List Bytes} (h : ∀ l ∈ texts, newline ∉ l) (c : Bytes) :
    lines (ofLines texts ++ c) = texts.map (· ++ [newline]) ++ lines c := by
  induction texts with
  | nil => rfl
  | cons l ls ih =>
    rw [List.forall_mem_cons] at h
    have hcons : ofLines (l::ls) ++ c = l ++ newline :: (ofLines ls ++ c) := by simp [ofLines]
    rw [hcons, lines_line h.1, ih h.2]
    rfl

theorem lines_ofLines {texts : List Bytes} (h : ∀ l ∈ texts, newline ∉ l) :
    lines (ofLines texts) = texts.map (· ++ [newline]) := by
  have happend := lines_ofLines_append h []
  rwa [List.append_nil, lines, List.append_nil] at happend

theorem fgetsLoop_lines {n : ℕ} (turns : ℕ) (c : Bytes) (h : ∀ l ∈ lines c, l.length < n) :
    fgetsLoop n turns c = (lines c).take turns := by
  induction turns generalizing c with
  | zero => rfl
  | succ turns ih =>
    by_cases hc : c = []
    · rw [hc]
      rfl
    have hsplit := lines_split hc
    rw [hsplit, List.forall_mem_cons] at h
    obtain ⟨hline, hrest⟩ := h
    rw [fgetsLoop, fgets, if_neg hc, hsplit, List.take_succ_cons]
    dsimp only
    generalize (c.takeWhile (· ≠ newline)).length+1 = m at hline hrest ⊢
    rw [List.length_take] at hline
    -- the line ends by itself or with the file before the room does
    by_cases hm : m ≤ n-1
    · rw [Nat.min_eq_right hm, ih _ hrest]
    · have hshort : c.length ≤ n-1 := by omega
      have hnil : c.drop m = [] := List.drop_eq_nil_of_le (by omega)
      rw [hnil] at hrest ⊢
      rw [Nat.min_eq_left (by omega), List.take_of_length_le hshort,
        List.take_of_length_le (by omega), List.drop_eq_nil_of_le hshort, ih _ hrest]

section Count

theorem lines_cons_length {b : UInt8} (hb : b ≠ newline) (c : Bytes) :
    (lines (b::c)).length = max 1 (lines c).length := by
  rw [lines, if_neg hb]
  cases lines c with
  | nil => rfl
  | cons l ls =>
    rw [List.length_cons, List.length_cons]
    omega

theorem lines_append_length (x y : Bytes) :
    (lines (x++y)).length ≤ (lines x).length+(lines y).length := by
  induction x with
  | nil => simp
  | cons b x ih =>
    by_cases hb : b = newline
    · rw [List.cons_append, lines, lines, if_pos hb, if_pos hb, List.length_cons, List.length_cons]
      omega
    · rw [List.cons_append, lines_cons_length hb, lines_cons_length hb]
      omega

theorem lines_glue_length {x : Bytes} (hx : newline ∉ x) (y : Bytes) :
    (lines (x++y)).length ≤ max 1 (lines y).length := by
  induction x with
  | nil => exact le_max_right _ _
  | cons b x ih =>
    rw [List.mem_cons, not_or] at hx
    rw [List.cons_append, lines_cons_length (Ne.symm hx.1)]
    have hrest := ih hx.2
    omega

theorem lines_flatten_length {ps : List Bytes} (h : ∀ p ∈ ps, (lines p).length ≤ 1) :
    (lines ps.flatten).length ≤ ps.length := by
  induction ps with
  | nil => exact Nat.le_refl 0
  | cons p ps ih =>
    rw [List.forall_mem_cons] at h
    have hsplit := lines_append_length p ps.flatten
    have hrest := ih h.2
    rw [List.flatten_cons, List.length_cons]
    omega

theorem lines_length_le (c : Bytes) : (lines c).length ≤ c.length := by
  induction c with
  | nil => exact Nat.le_refl 0
  | cons b c ih =>
    have hsplit : (lines (b::c)).length ≤ (lines [b]).length+(lines c).length :=
      lines_append_length [b] c
    have hone : (lines [b]).length = 1 := by
      rw [lines]
      split_ifs <;> rfl
    rw [List.length_cons]
    omega

theorem fgetsAll_lines {n : ℕ} {c : Bytes} (h : ∀ l ∈ lines c, l.length < n) :
    fgetsAll n c = lines c := by
  rw [fgetsAll, fgetsLoop_lines _ _ h, List.take_of_length_le (lines_length_le c)]

end Count

/-- A stream that has read `lines` and stands at `pos`. -/
def Scan (n : ℕ) (content : Bytes) (pos : ℕ) (lines : List Bytes) : Prop :=
  pos = lines.flatten.length ∧ fgetsAll n content = lines ++ fgetsAll n (content.drop pos)

theorem Scan.start (n : ℕ) (content : Bytes) : Scan n content 0 [] := ⟨rfl, rfl⟩

theorem Scan.next {n : ℕ} (hn : 2 ≤ n) {content : Bytes} {pos : ℕ} {lines : List Bytes}
    {line rest : Bytes} (h : Scan n content pos lines)
    (hf : fgets n (content.drop pos) = some (line, rest)) :
    Scan n content (pos+line.length) (lines ++ [line]) := by
  have hrest : content.drop (pos+line.length) = rest := by
    rw [← List.drop_drop, ← fgets_append hf, List.drop_left]
  refine ⟨by rw [h.1]; simp, ?_⟩
  rw [h.2, fgetsAll_some hn hf, hrest, List.append_assoc]
  rfl

theorem Scan.done {n : ℕ} {content : Bytes} {pos : ℕ} {lines : List Bytes}
    (h : Scan n content pos lines) (hf : fgets n (content.drop pos) = none) :
    fgetsAll n content = lines := by
  rw [h.2, fgetsAll_none hf, List.append_nil]

end CSE344.Stdio
