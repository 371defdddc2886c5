import SystemProgramming.CString

/-!
# Calling `strtok` until it returns a null pointer

`words` are the tokens of a text in order. `front` is the text up to the end
of its first token, which is what the buffer reads as once it was tokenised:
`strtok` has put a NUL there.
-/

set_option autoImplicit false

namespace CSE344.Words
open CString

variable {delims : Bytes}

theorem nextToken_shorter {s tok rest : Bytes} (h : nextToken delims s = some (tok, rest)) :
    rest.length < s.length := by
  have htok := List.length_pos_iff.mpr (nextToken_some h).1
  simp only [nextToken] at h
  split_ifs at h
  cases h
  have hskip := takeWhile_length_add (· ∈ delims) s
  have hlen := takeWhile_length_add (· ∉ delims) (s.dropWhile (· ∈ delims))
  rw [List.length_tail]
  omega

/-- At most `n` tokens. -/
def wordsLoop (delims : Bytes) : ℕ → Bytes → List Bytes
  | 0, _ => []
  | n+1, s => match nextToken delims s with
    | none => []
    | some (tok, rest) => tok :: wordsLoop delims n rest

def words (delims s : Bytes) : List Bytes := wordsLoop delims s.length s

theorem wordsLoop_eq (n : ℕ) (s : Bytes) (h : s.length ≤ n) :
    wordsLoop delims n s = words delims s := by
  induction n using Nat.strong_induction_on generalizing s with
  | _ n ih =>
    rcases Nat.lt_or_eq_of_le h with hlt | rfl
    · cases n with
      | zero => omega
      | succ n =>
        cases hs : nextToken delims s with
        | none =>
          cases hlen : s.length with
          | zero => simp [words, wordsLoop, hlen, hs]
          | succ k => simp [words, wordsLoop, hlen, hs]
        | some p =>
          obtain ⟨tok, rest⟩ := p
          have hshort := nextToken_shorter hs
          cases hlen : s.length with
          | zero => omega
          | succ k =>
            rw [words, hlen, wordsLoop, wordsLoop, hs]
            dsimp only
            rw [ih n (by omega) rest (by omega), ih k (by omega) rest (by omega)]
    · rfl

theorem words_none {s : Bytes} (h : nextToken delims s = none) : words delims s = [] := by
  rw [← wordsLoop_eq (s.length+1) s (by omega), wordsLoop, h]

theorem words_some {s tok rest : Bytes} (h : nextToken delims s = some (tok, rest)) :
    words delims s = tok :: words delims rest := by
  have := nextToken_shorter h
  rw [← wordsLoop_eq (s.length+1) s (by omega), wordsLoop, h]
  dsimp only
  rw [wordsLoop_eq _ rest (by omega)]

def front (delims s : Bytes) : Bytes :=
  s.takeWhile (· ∈ delims) ++ (s.dropWhile (· ∈ delims)).takeWhile (· ∉ delims)

/-- What the first call of `strtok` leaves of the text at its start, and that
it ends before the next call goes on. -/
theorem strtok_front (m : Bytes) (p : ℕ) :
    cstrAt (strtok delims m p).mem p = front delims (cstrAt m p) ∧
      p+(front delims (cstrAt m p)).length ≤ (strtok delims m p).save := by
  have hskip := takeWhile_length_add (· ∈ delims) (cstrAt m p)
  have hlen := takeWhile_length_add (· ∉ delims) ((cstrAt m p).dropWhile (· ∈ delims))
  have hfront : front delims (cstrAt m p) = (cstrAt m p).take
      (((cstrAt m p).takeWhile (· ∈ delims)).length+
        (((cstrAt m p).dropWhile (· ∈ delims)).takeWhile (· ∉ delims)).length) := by
    conv_rhs => rw [List.take_add, takeWhile_take, ← dropWhile_drop, takeWhile_take]
    rfl
  have hfl : (front delims (cstrAt m p)).length =
      ((cstrAt m p).takeWhile (· ∈ delims)).length+
        (((cstrAt m p).dropWhile (· ∈ delims)).takeWhile (· ∉ delims)).length :=
    List.length_append
  unfold strtok
  simp only
  split_ifs with hnone hend
  · refine ⟨?_, by dsimp only; omega⟩
    rw [hfront, List.take_of_length_le (by omega)]
  · refine ⟨?_, by dsimp only; omega⟩
    rw [hfront, List.take_of_length_le (by omega)]
  · refine ⟨?_, by dsimp only; omega⟩
    rw [cstrAt_set _ _ _ (by omega), hfront]
    congr 1
    omega

theorem front_cons_delim {b : UInt8} (h : b ∈ delims) (s : Bytes) :
    front delims (b::s) = b :: front delims s := by simp [front, h]

theorem front_cons {b : UInt8} (h : b ∉ delims) (s : Bytes) :
    front delims (b::s) = (b::s).takeWhile (· ∉ delims) := by simp [front, h]

theorem front_idem (s : Bytes) : front delims (front delims s) = front delims s := by
  induction s with
  | nil => rfl
  | cons b s ih =>
    by_cases h : b ∈ delims
    · rw [front_cons_delim h, front_cons_delim h, ih]
    · rw [front_cons h, List.takeWhile_cons_of_pos (by simpa using h), front_cons h,
        List.takeWhile_eq_self_iff]
      intro x hx
      rcases List.mem_cons.mp hx with rfl | hx
      · simpa using h
      · have hmem := List.mem_takeWhile_imp hx
        exact hmem

theorem front_eq_iff {tok : Bytes} (hne : tok ≠ []) (htok : ∀ b ∈ tok, b ∉ delims) (s : Bytes) :
    front delims s = tok ↔ s = tok ∨ ∃ d ∈ delims, tok ++ [d] <+: s := by
  obtain ⟨c, t, rfl⟩ := List.exists_cons_of_ne_nil hne
  cases s with
  | nil => simp [front]
  | cons b s =>
    by_cases h : b ∈ delims
    · have hb : b ≠ c := by
        rintro rfl
        exact htok b (by simp) h
      simp [front_cons_delim h, hb, Ne.symm hb]
    · rw [front_cons h]
      constructor
      · intro heq
        have hsplit := List.takeWhile_append_dropWhile (p := (· ∉ delims)) (l := b::s)
        rw [heq] at hsplit
        cases hdrop : (b::s).dropWhile (· ∉ delims) with
        | nil =>
          rw [hdrop, List.append_nil] at hsplit
          exact .inl hsplit.symm
        | cons d rest =>
          right
          have hcons : (b::s).dropWhile (· ∉ delims) ≠ [] := by
            rw [hdrop]
            exact List.cons_ne_nil d rest
          have hd := List.head_dropWhile_not (· ∉ delims) hcons
          simp only [hdrop, List.head_cons, decide_eq_false_iff_not, not_not] at hd
          refine ⟨d, hd, rest, ?_⟩
          rw [← hsplit, hdrop]
          simp
      · rintro (heq | ⟨d, hd, rest, hrest⟩)
        · rw [heq]
          exact List.takeWhile_eq_self_iff.mpr (by simpa using htok)
        · rw [← hrest, List.append_assoc, List.takeWhile_append_of_pos (by simpa using htok)]
          simp [hd]

/-- The string at `q` ends before `p`, where the next call goes on. -/
def Behind (m : Bytes) (p q : ℕ) : Prop := q+(cstrAt m q).length ≤ p

theorem save_ge (m : Bytes) (p : ℕ) : p ≤ (strtok delims m p).save :=
  le_trans (Nat.le_add_right _ _) (strtok_front m p).2

theorem Behind.strtok {m : Bytes} {p q : ℕ} (h : Behind m p q) :
    cstrAt (strtok delims m p).mem q = cstrAt m q ∧
      Behind (strtok delims m p).mem (strtok delims m p).save q := by
  have hkeep := strtok_keeps delims m p q h
  refine ⟨hkeep, ?_⟩
  rw [Behind, hkeep]
  exact le_trans h (save_ge m p)

theorem front_behind (m : Bytes) (p : ℕ) :
    Behind (strtok delims m p).mem (strtok delims m p).save p := by
  obtain ⟨hfront, hle⟩ := @strtok_front delims m p
  rwa [Behind, hfront]

theorem strtok_none {m : Bytes} {p : ℕ} (h : (strtok delims m p).start = none) :
    words delims (cstrAt m p) = [] ∧ (strtok delims m p).mem = m ∧
      cstrAt (strtok delims m p).mem (strtok delims m p).save = [] := by
  have ht := strtok_token delims m p
  cases hn : nextToken delims (cstrAt m p) with
  | none =>
    rw [hn] at ht
    obtain ⟨-, hmem, hsave⟩ := ht
    rw [hmem]
    exact ⟨words_none hn, rfl, hsave⟩
  | some tr =>
    rw [hn] at ht
    obtain ⟨q, hq, -⟩ := ht
    rw [hq] at h
    cases h

/-- A call that finds a token takes the first word and leaves the others. -/
theorem strtok_some {m : Bytes} {p q : ℕ} (h : (strtok delims m p).start = some q) :
    words delims (cstrAt m p) = cstrAt (strtok delims m p).mem q ::
        words delims (cstrAt (strtok delims m p).mem (strtok delims m p).save) ∧
      Behind (strtok delims m p).mem (strtok delims m p).save q ∧
      (cstrAt (strtok delims m p).mem (strtok delims m p).save).length <
        (cstrAt m p).length := by
  have ht := strtok_token delims m p
  cases hn : nextToken delims (cstrAt m p) with
  | none =>
    rw [hn] at ht
    rw [ht.1] at h
    cases h
  | some tr =>
    obtain ⟨tok, rest⟩ := tr
    rw [hn] at ht
    obtain ⟨q', hq, hle, htok, hrest⟩ := ht
    obtain rfl : q' = q := by
      rw [h] at hq
      exact (Option.some.inj hq).symm
    refine ⟨?_, ?_, ?_⟩
    · rw [words_some hn, htok, hrest]
    · rwa [Behind, htok]
    · rw [hrest]
      exact nextToken_shorter hn

theorem strtok_words (m : Bytes) (p : ℕ) :
    (strtok delims m p).start.map (cstrAt (strtok delims m p).mem) =
        (words delims (cstrAt m p)).head? ∧
      words delims (cstrAt (strtok delims m p).mem (strtok delims m p).save) =
        (words delims (cstrAt m p)).tail ∧
      (cstrAt (strtok delims m p).mem (strtok delims m p).save).length ≤
        (cstrAt m p).length := by
  cases h : (strtok delims m p).start with
  | none =>
    obtain ⟨hw, -, hsave⟩ := strtok_none h
    rw [hw, hsave]
    exact ⟨rfl, rfl, Nat.zero_le _⟩
  | some q =>
    obtain ⟨hw, -, hlt⟩ := strtok_some h
    rw [hw]
    exact ⟨rfl, rfl, le_of_lt hlt⟩

end CSE344.Words
