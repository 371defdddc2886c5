import Mathlib.Data.List.Basic

/-!
# A buffered stream over a shared offset

A stream reads a text block by block from a file description. Between two
blocks others who share the description may move its offset; the next block
then comes from elsewhere. The end of the file, once seen, is remembered.
-/

set_option autoImplicit false

namespace CSE344.BufferedInput

variable {α : Type*}

/-- `ahead` was read and not yet handed out, `taken` is the place in the text
behind it, and `reads` counts the blocks. -/
structure Input (α : Type*) where
  ahead : List α
  taken : ℕ
  offset : ℕ
  atEnd : Bool
  reads : ℕ

def opened : Input α := ⟨[], 0, 0, false, 0⟩

/-- The next block, of at most `size + 1` places. -/
def fill (size : ℕ → ℕ) (text : List α) (s : Input α) : Input α :=
  let block := (text.drop s.offset).take (size s.reads + 1)
  ⟨block, s.offset + block.length, s.offset + block.length, block.isEmpty, s.reads+1⟩

/-- What is in the buffer first, and the buffer is filled when it is empty. -/
def getc (size : ℕ → ℕ) (text : List α) (s : Input α) : Option α × Input α :=
  match s.ahead with
  | a::rest => (some a, { s with ahead := rest })
  | [] =>
    if s.atEnd then (none, s)
    else
      let t := fill size text s
      (t.ahead.head?, { t with ahead := t.ahead.tail })

/-- At most `n` places, up to and including the first `stop`. -/
def getLine [DecidableEq α] (size : ℕ → ℕ) (text : List α) (stop : α) :
    ℕ → Input α → List α × Input α
  | 0, s => ([], s)
  | n+1, s =>
    match getc size text s with
    | (none, s) => ([], s)
    | (some a, s) =>
      if a = stop then ([a], s)
      else
        let (line, s) := getLine size text stop n s
        (a::line, s)

/-- The rest of the text is what the stream has still to hand out, when nobody
moves the offset. -/
structure Holds (text rest : List α) (s : Input α) : Prop where
  unread : s.ahead ++ text.drop s.taken = rest
  more : s.atEnd = false

/-- The next `stop` is in the buffer, or the offset is where the stream left it. -/
def InPlace (stop : α) (s : Input α) : Prop := stop ∈ s.ahead ∨ s.offset = s.taken

instance [DecidableEq α] (stop : α) (s : Input α) : Decidable (InPlace stop s) :=
  inferInstanceAs (Decidable (stop ∈ s.ahead ∨ s.offset = s.taken))

theorem opened_holds (text : List α) : Holds text text (opened : Input α) where
  unread := rfl
  more := rfl

theorem Holds.moved {text rest : List α} {s : Input α} (h : Holds text rest s) (offset : ℕ) :
    Holds text rest { s with offset := offset } where
  unread := h.unread
  more := h.more

section Getc

variable {size : ℕ → ℕ} {text rest : List α} {s : Input α} {a : α}

theorem fill_cons (h : text.drop s.offset = a::rest) :
    fill size text s = ⟨a :: rest.take (size s.reads),
      s.offset + (rest.take (size s.reads)).length + 1,
      s.offset + (rest.take (size s.reads)).length + 1, false, s.reads+1⟩ := by
  simp only [fill, h, List.take_succ_cons, List.length_cons, List.isEmpty_cons, Nat.add_assoc]

theorem drop_fill (h : text.drop s.offset = a::rest) (n : ℕ) :
    rest.take n ++ text.drop (s.offset + (rest.take n).length + 1) = rest := by
  have hrest : text.drop (s.offset+1) = rest := by
    rw [← List.drop_drop, h, List.drop_one, List.tail_cons]
  rw [show s.offset + (rest.take n).length + 1 = s.offset + 1 + (rest.take n).length by omega,
    ← List.drop_drop, hrest, List.length_take]
  rcases Nat.le_total n rest.length with hn | hn
  · rw [Nat.min_eq_left hn, List.take_append_drop]
  · rw [Nat.min_eq_right hn, List.drop_length, List.append_nil, List.take_of_length_le hn]

/-- One place is handed out; a `stop` that was in reach is still so. -/
theorem getc_cons (size : ℕ → ℕ) {stop : α} (h : Holds text (a::rest) s)
    (hin : InPlace stop s) (ha : a ≠ stop) :
    ∃ t, getc size text s = (some a, t) ∧ Holds text rest t ∧ InPlace stop t := by
  cases hahead : s.ahead with
  | cons b ahead =>
    have hunread := h.unread
    rw [hahead, List.cons_append, List.cons.injEq] at hunread
    obtain ⟨rfl, hunread⟩ := hunread
    refine ⟨{ s with ahead := ahead }, by simp [getc, hahead], ⟨hunread, h.more⟩, ?_⟩
    rcases hin with hstop | hoffset
    · rw [hahead, List.mem_cons] at hstop
      exact .inl (hstop.resolve_left ha.symm)
    · exact .inr hoffset
  | nil =>
    have hoffset : s.offset = s.taken := hin.resolve_left (by simp [hahead])
    have hdrop : text.drop s.offset = a::rest := by
      rw [hoffset, ← h.unread, hahead, List.nil_append]
    refine ⟨{ fill size text s with ahead := rest.take (size s.reads) }, ?_, ⟨?_, ?_⟩, .inr ?_⟩
    · simp [getc, hahead, h.more, fill_cons hdrop]
    · rw [fill_cons hdrop]
      exact drop_fill hdrop _
    · rw [fill_cons hdrop]
    · rw [fill_cons hdrop]

theorem getc_stop (size : ℕ → ℕ) {stop : α} (h : Holds text (stop::rest) s)
    (hin : InPlace stop s) :
    ∃ t, getc size text s = (some stop, t) ∧ Holds text rest t := by
  cases hahead : s.ahead with
  | cons b ahead =>
    have hunread := h.unread
    rw [hahead, List.cons_append, List.cons.injEq] at hunread
    obtain ⟨rfl, hunread⟩ := hunread
    exact ⟨{ s with ahead := ahead }, by simp [getc, hahead], hunread, h.more⟩
  | nil =>
    have hoffset : s.offset = s.taken := hin.resolve_left (by simp [hahead])
    have hdrop : text.drop s.offset = stop::rest := by
      rw [hoffset, ← h.unread, hahead, List.nil_append]
    refine ⟨{ fill size text s with ahead := rest.take (size s.reads) }, ?_, ?_, ?_⟩
    · simp [getc, hahead, h.more, fill_cons hdrop]
    · rw [fill_cons hdrop]
      exact drop_fill hdrop _
    · rw [fill_cons hdrop]

theorem getc_offset (size : ℕ → ℕ) (text : List α) (s : Input α) (h : s.offset = s.taken) :
    (getc size text s).2.offset = (getc size text s).2.taken := by
  unfold getc
  split
  · exact h
  · split_ifs
    · exact h
    · rfl

end Getc

section GetLine

variable [DecidableEq α] {size : ℕ → ℕ} {text rest : List α} {stop : α}

/-- A line that is in place is handed out whole, and nothing behind it. -/
theorem getLine_line (size : ℕ → ℕ) (line : List α) (hline : stop ∉ line) (n : ℕ)
    (hn : line.length < n)
    (s : Input α) (h : Holds text (line ++ stop::rest) s) (hin : InPlace stop s) :
    ∃ t, getLine size text stop n s = (line ++ [stop], t) ∧ Holds text rest t := by
  induction line generalizing n s with
  | nil =>
    obtain ⟨n, rfl⟩ : ∃ k, n = k+1 := Nat.exists_eq_succ_of_ne_zero (by omega)
    obtain ⟨t, ht, hrest⟩ := getc_stop size h hin
    exact ⟨t, by simp [getLine, ht], hrest⟩
  | cons a line ih =>
    obtain ⟨n, rfl⟩ : ∃ k, n = k+1 := Nat.exists_eq_succ_of_ne_zero (by omega)
    have ha : a ≠ stop := fun heq => hline (by simp [heq])
    obtain ⟨u, hu, hholds, hplace⟩ := getc_cons size h hin ha
    obtain ⟨t, ht, hrest⟩ := ih (fun hmem => hline (List.mem_cons_of_mem _ hmem)) n
      (by rw [List.length_cons] at hn; omega) u hholds hplace
    exact ⟨t, by simp [getLine, hu, ha, ht], hrest⟩

theorem getLine_end (n : ℕ) (s : Input α) (h : Holds text [] s) (hin : InPlace stop s) :
    (getLine size text stop n s).1 = [] := by
  cases n with
  | zero => rfl
  | succ n =>
    obtain ⟨hahead, hdrop⟩ := List.append_eq_nil_iff.mp h.unread
    have hoffset : s.offset = s.taken := hin.resolve_left (by simp [hahead])
    simp [getLine, getc, hahead, h.more, fill, hoffset, hdrop]

theorem getLine_offset (size : ℕ → ℕ) (text : List α) (stop : α) (n : ℕ) (s : Input α)
    (h : s.offset = s.taken) :
    (getLine size text stop n s).2.offset = (getLine size text stop n s).2.taken := by
  fun_induction getLine size text stop n s with
  | case1 => exact h
  | case2 n s t hget =>
    have := getc_offset size text s h
    rwa [hget] at this
  | case3 n s t hget =>
    have := getc_offset size text s h
    rwa [hget] at this
  | case4 n s a t hget ha line u hline ih =>
    have hplace := getc_offset size text s h
    rw [hget] at hplace
    have := ih hplace
    rwa [hline] at this

theorem getLine_length (size : ℕ → ℕ) (text : List α) (stop : α) (n : ℕ) (s : Input α) :
    (getLine size text stop n s).1.length ≤ n := by
  fun_induction getLine size text stop n s with
  | case1 => simp
  | case2 => simp
  | case3 => simp
  | case4 n s a t hget ha line u hline ih =>
    rw [hline] at ih
    simpa using ih

end GetLine

end CSE344.BufferedInput
