import Mathlib.Data.Int.Order.Basic
import Mathlib.Data.Int.Range
import Mathlib.Data.List.Basic
import Mathlib.Data.List.TakeWhile

/-!
# Bytes, C strings and `strtok`

A C string is the part of a memory area before its first NUL byte. `strtok`
is given on memory: it returns an offset, writes a NUL over the delimiter that
ends the token and remembers where to go on. `nextToken` is what it computes
on the strings themselves, and `strtok_token` relates the two.
-/

set_option autoImplicit false

namespace CSE344.CString

abbrev Bytes := List UInt8

def ascii (s : String) : Bytes := s.toList.map (fun c => UInt8.ofNat c.toNat)

/-- A string as the programs pass it around: no NUL inside. -/
structure CStr where
  bytes : Bytes
  noNul : 0 ∉ bytes
  deriving DecidableEq

/-- What `snprintf` with a buffer of `n` bytes leaves of a formatted string. -/
def snprintf (n : ℕ) (s : Bytes) : Bytes := s.take (n-1)

def cstr (m : Bytes) : Bytes := m.takeWhile (· ≠ 0)

def cstrAt (m : Bytes) (p : ℕ) : Bytes := cstr (m.drop p)

theorem noNul_cstr (m : Bytes) : 0 ∉ cstr m := by
  intro h
  simpa using List.mem_takeWhile_imp h

theorem forall_of_all {p : UInt8 → Prop} [DecidablePred p] {s : Bytes}
    (h : s.all (fun b => decide (p b)) = true) : ∀ b ∈ s, p b := by simpa using h

/-- A string literal. -/
def literal (s : String) : CStr := ⟨cstr (ascii s), noNul_cstr _⟩

/-- The two directory entries that every `readdir` loop skips. -/
def isDot (entry : Bytes) : Bool := entry = ascii "." ∨ entry = ascii ".."

/-- `sprintf` with the format `%s/%s`. -/
def joinPath (dir name : Bytes) : Bytes := dir ++ ascii "/" ++ name

def isSpace (b : UInt8) : Bool := b = 32 ∨ (9 ≤ b ∧ b ≤ 13)

def isDigit (b : UInt8) : Bool := 48 ≤ b ∧ b ≤ 57

def decimal (s : Bytes) : ℕ :=
  (s.takeWhile isDigit).foldl (fun n b => 10*n+(b.toNat-48)) 0

/-- `strtol` in base 10 for a 64-bit `long`. -/
def strtol (s : Bytes) : ℤ :=
  let value : ℤ := match s.dropWhile isSpace with
    | 43::t => decimal t
    | 45::t => -(decimal t : ℤ)
    | t => decimal t
  max (-2^63) (min value (2^63-1))

structure Strtok where
  start : Option ℕ
  mem : Bytes
  save : ℕ

def strtok (delims m : Bytes) (p : ℕ) : Strtok :=
  let s := cstrAt m p
  let skip := (s.takeWhile (· ∈ delims)).length
  let tok := ((s.dropWhile (· ∈ delims)).takeWhile (· ∉ delims)).length
  if s.length = skip then ⟨none, m, p+skip⟩
  else if s.length = skip+tok then ⟨some (p+skip), m, p+skip+tok⟩
  else ⟨some (p+skip), m.set (p+skip+tok) 0, p+skip+tok+1⟩

def nextToken (delims s : Bytes) : Option (Bytes × Bytes) :=
  let t := s.dropWhile (· ∈ delims)
  if t = [] then none
  else some (t.takeWhile (· ∉ delims), (t.dropWhile (· ∉ delims)).tail)

theorem cstr_of_noNul {m : Bytes} (h : 0 ∉ m) : cstr m = m := by
  rw [cstr, List.takeWhile_eq_self_iff]
  intro b hb
  simp only [ne_eq, decide_eq_true_eq]
  rintro rfl
  exact h hb

theorem cstr_append {m : Bytes} (h : 0 ∉ m) (s : Bytes) : cstr (m++s) = m ++ cstr s :=
  List.takeWhile_append_of_pos (fun b hb => by
    simp only [ne_eq, decide_eq_true_eq]
    rintro rfl
    exact h hb)

theorem cstr_append_zero (s rest : Bytes) : cstr (s ++ 0::rest) = cstr s := by
  induction s with
  | nil => rfl
  | cons b s ih =>
    by_cases hb : b = 0
    · simp [cstr, hb]
    · simpa [cstr, hb] using ih

theorem cstr_append_take (s rest : Bytes) : (cstr (s++rest)).take s.length = cstr s := by
  induction s with
  | nil => simp [cstr]
  | cons b s ih =>
    by_cases hb : b = 0
    · simp [cstr, hb]
    · simpa [cstr, hb] using ih

theorem cstr_set (m : Bytes) (k : ℕ) : cstr (m.set k 0) = (cstr m).take k := by
  induction m generalizing k with
  | nil => simp [cstr]
  | cons b m ih =>
    cases k with
    | zero => simp [cstr]
    | succ k =>
      by_cases hb : b = 0
      · simp [cstr, hb]
      · simpa [cstr, hb] using ih k

theorem cstr_drop (m : Bytes) (k : ℕ) (h : k ≤ (cstr m).length) :
    cstr (m.drop k) = (cstr m).drop k := by
  induction m generalizing k with
  | nil => simp [cstr]
  | cons b m ih =>
    cases k with
    | zero => simp
    | succ k =>
      by_cases hb : b = 0
      · simp [cstr, hb] at h
      · simp only [cstr, ne_eq, hb, not_false_eq_true, decide_true, List.takeWhile_cons_of_pos,
          List.length_cons, List.drop_succ_cons] at *
        exact ih k (by omega)

theorem cstrAt_add (m : Bytes) (p k : ℕ) (h : k ≤ (cstrAt m p).length) :
    cstrAt m (p+k) = (cstrAt m p).drop k := by
  rw [cstrAt, ← List.drop_drop, cstr_drop _ _ h, cstrAt]

theorem cstrAt_set (m : Bytes) (q i : ℕ) (h : q ≤ i) :
    cstrAt (m.set i 0) q = (cstrAt m q).take (i-q) := by
  rw [cstrAt, List.drop_set, if_neg (by omega), cstr_set, cstrAt]

theorem cstrAt_set_after (m : Bytes) (i q : ℕ) (b : UInt8) (h : i < q) :
    cstrAt (m.set i b) q = cstrAt m q := by
  rw [cstrAt, List.drop_set_of_lt h, cstrAt]

theorem cstrAt_eq_iff {s m : Bytes} {p : ℕ} (h0 : 0 ∉ s) (hlen : p+s.length < m.length) :
    cstrAt m p = s ↔ ∀ i ≤ s.length, m[p+i]? = (s ++ [0])[i]? := by
  induction s generalizing p with
  | nil =>
    rw [List.length_nil, Nat.add_zero] at hlen
    have hpos : 0 < m.length-p := by omega
    rw [cstrAt, List.drop_eq_getElem_cons hlen]
    simp [cstr, hlen, hpos]
  | cons b s ih =>
    rw [List.length_cons] at hlen
    rw [List.mem_cons, not_or] at h0
    have hp : p < m.length := by omega
    have hrest := ih (p := p+1) h0.2 (by omega)
    have hfirst : cstrAt m p = b::s ↔ m[p] = b ∧ cstrAt m (p+1) = s := by
      rw [cstrAt, List.drop_eq_getElem_cons hp, cstr]
      by_cases hzero : m[p] = 0
      · rw [hzero, List.takeWhile_cons_of_neg (by simp)]
        refine iff_of_false (List.cons_ne_nil _ _).symm ?_
        rintro ⟨hb, -⟩
        exact h0.1 hb
      · rw [List.takeWhile_cons_of_pos (by simpa using hzero), List.cons.injEq]
        rfl
    have hshift (i : ℕ) : m[p+(i+1)]? = m[p+1+i]? := by rw [Nat.add_comm i 1, Nat.add_assoc]
    rw [hfirst, hrest]
    constructor
    · rintro ⟨hb, hall⟩ i hi
      cases i with
      | zero => simpa [hp] using hb
      | succ i =>
        rw [hshift]
        exact hall i (Nat.le_of_succ_le_succ hi)
    · intro hall
      constructor
      · simpa [hp] using hall 0 (Nat.zero_le _)
      · intro i hi
        rw [← hshift]
        exact hall (i+1) (Nat.succ_le_succ hi)

theorem dropWhile_drop (p : UInt8 → Bool) (s : Bytes) :
    s.dropWhile p = s.drop (s.takeWhile p).length := by
  have h : (s.takeWhile p ++ s.dropWhile p).drop (s.takeWhile p).length = s.dropWhile p :=
    List.drop_left
  rw [List.takeWhile_append_dropWhile] at h
  exact h.symm

theorem dropWhile_tail (delims t : Bytes) : (t.dropWhile (· ∉ delims)).dropWhile (· ∈ delims) =
    (t.dropWhile (· ∉ delims)).tail.dropWhile (· ∈ delims) := by
  cases h : t.dropWhile (· ∉ delims) with
  | nil => rfl
  | cons b rest =>
    have hhead := List.head_dropWhile_not (· ∉ delims) (by rw [h]; exact List.cons_ne_nil _ _)
    simp only [h, List.head_cons, decide_eq_false_iff_not, not_not] at hhead
    rw [List.tail_cons, List.dropWhile_cons_of_pos (by simpa using hhead)]

theorem takeWhile_take (p : UInt8 → Bool) (s : Bytes) :
    s.take (s.takeWhile p).length = s.takeWhile p := by
  have h : (s.takeWhile p ++ s.dropWhile p).take (s.takeWhile p).length = s.takeWhile p :=
    List.take_left
  rwa [List.takeWhile_append_dropWhile] at h

theorem takeWhile_length_add (p : UInt8 → Bool) (s : Bytes) :
    (s.takeWhile p).length + (s.dropWhile p).length = s.length := by
  rw [← List.length_append, List.takeWhile_append_dropWhile]

theorem strtok_token (delims m : Bytes) (p : ℕ) :
    match nextToken delims (cstrAt m p) with
    | none => (strtok delims m p).start = none ∧ (strtok delims m p).mem = m ∧
        cstrAt m (strtok delims m p).save = []
    | some (tok, rest) => ∃ q, (strtok delims m p).start = some q ∧
        q+tok.length ≤ (strtok delims m p).save ∧ cstrAt (strtok delims m p).mem q = tok ∧
        cstrAt (strtok delims m p).mem (strtok delims m p).save = rest := by
  unfold nextToken strtok
  simp only
  have hsplit := takeWhile_length_add (· ∈ delims) (cstrAt m p)
  have ht := cstrAt_add m p ((cstrAt m p).takeWhile (· ∈ delims)).length (by omega)
  rw [← dropWhile_drop] at ht
  by_cases hnil : (cstrAt m p).dropWhile (· ∈ delims) = []
  · rw [if_pos hnil]
    rw [hnil] at hsplit ht
    rw [if_pos (by simpa using hsplit.symm)]
    exact ⟨rfl, rfl, ht⟩
  rw [if_neg hnil]
  have hpos := List.length_pos_iff.mpr hnil
  generalize hskip : ((cstrAt m p).takeWhile (· ∈ delims)).length = skip at *
  generalize htxt : (cstrAt m p).dropWhile (· ∈ delims) = t at *
  have hlen := takeWhile_length_add (· ∉ delims) t
  have hrest := cstrAt_add m (p+skip) (t.takeWhile (· ∉ delims)).length (by rw [ht]; omega)
  rw [ht, ← dropWhile_drop] at hrest
  rw [if_neg (by omega)]
  split_ifs with hend
  · -- the token runs to the end of the string
    have hdrop : t.dropWhile (· ∉ delims) = [] := List.length_eq_zero_iff.mp (by omega)
    have htake := takeWhile_take (· ∉ delims) t
    rw [List.take_of_length_le (by omega)] at htake
    refine ⟨p+skip, rfl, by simp, by rw [ht, ← htake], ?_⟩
    rw [hrest, hdrop, List.tail_nil]
  · refine ⟨p+skip, rfl, Nat.le_succ _, ?_, ?_⟩
    · rw [cstrAt_set _ _ _ (by omega), ht, Nat.add_sub_cancel_left, takeWhile_take]
    · dsimp only
      rw [cstrAt_set_after _ _ _ _ (by omega)]
      rw [cstrAt_add m (p+skip+(t.takeWhile (· ∉ delims)).length) 1
          (by rw [hrest]; omega), hrest,
        List.drop_one]

/-- A later call leaves the strings that end before its start alone. -/
theorem strtok_keeps (delims m : Bytes) (p q : ℕ) (h : q+(cstrAt m q).length ≤ p) :
    cstrAt (strtok delims m p).mem q = cstrAt m q := by
  unfold strtok
  simp only
  split_ifs
  · rfl
  · rfl
  · rw [cstrAt_set _ _ _ (by omega), List.take_of_length_le (by omega)]

theorem strtok_first (delims m : Bytes) (p : ℕ) :
    (strtok delims m p).start = if (cstrAt m p).dropWhile (· ∈ delims) = [] then none
      else some (p+((cstrAt m p).takeWhile (· ∈ delims)).length) := by
  have hsplit := takeWhile_length_add (· ∈ delims) (cstrAt m p)
  by_cases hnil : (cstrAt m p).dropWhile (· ∈ delims) = []
  · rw [if_pos hnil, strtok]
    rw [hnil, List.length_nil] at hsplit
    rw [if_pos (by omega)]
  · have hpos := List.length_pos_iff.mpr hnil
    rw [if_neg hnil, strtok]
    rw [if_neg (by omega)]
    split_ifs <;> rfl

theorem strtok_mem_length (delims m : Bytes) (p : ℕ) :
    (strtok delims m p).mem.length = m.length := by
  unfold strtok
  dsimp only
  split_ifs
  · rfl
  · rfl
  · exact List.length_set

theorem strtok_next {delims m : Bytes} {p : ℕ}
    (h : ((cstrAt m p).dropWhile (· ∈ delims)).dropWhile (· ∉ delims) ≠ []) :
    (strtok delims m p).save+((cstrAt m p).dropWhile (· ∈ delims)).length =
      p+(cstrAt m p).length+
        (((cstrAt m p).dropWhile (· ∈ delims)).takeWhile (· ∉ delims)).length+1 := by
  have hsplit := takeWhile_length_add (· ∈ delims) (cstrAt m p)
  have hword := takeWhile_length_add (· ∉ delims) ((cstrAt m p).dropWhile (· ∈ delims))
  have hpos := List.length_pos_iff.mpr h
  unfold strtok
  dsimp only
  split_ifs
  · omega
  · omega
  · dsimp only
    omega

theorem strtok_rest {delims m : Bytes} {p : ℕ} (h : (cstrAt m p).dropWhile (· ∈ delims) ≠ []) :
    cstrAt (strtok delims m p).mem (strtok delims m p).save =
      (((cstrAt m p).dropWhile (· ∈ delims)).dropWhile (· ∉ delims)).tail := by
  have htoken := strtok_token delims m p
  rw [nextToken, if_neg h] at htoken
  obtain ⟨q, -, -, -, hrest⟩ := htoken
  exact hrest

theorem nextToken_some {delims s tok rest : Bytes} (h : nextToken delims s = some (tok, rest)) :
    tok ≠ [] ∧ ∀ b ∈ tok, b ∉ delims := by
  simp only [nextToken] at h
  split_ifs at h with hnil
  cases h
  refine ⟨?_, fun b hb => by simpa using List.mem_takeWhile_imp hb⟩
  have hhead := List.head_dropWhile_not (· ∈ delims) hnil
  obtain ⟨b, t, ht⟩ := List.exists_cons_of_ne_nil hnil
  simp only [ht, List.head_cons, decide_eq_false_iff_not] at hhead
  simp [ht, hhead]

theorem nextToken_delim {delims tok rest : Bytes} {d : UInt8} (hne : tok ≠ [])
    (htok : ∀ b ∈ tok, b ∉ delims) (hd : d ∈ delims) :
    nextToken delims (tok ++ d::rest) = some (tok, rest) := by
  obtain ⟨b, t, rfl⟩ := List.exists_cons_of_ne_nil hne
  have hb := htok b (by simp)
  have htake : (b::t ++ d::rest).takeWhile (· ∉ delims) = b::t := by
    rw [List.takeWhile_append_of_pos (by simpa using htok)]
    simp [hd]
  have hdrop : (b::t ++ d::rest).dropWhile (· ∉ delims) = d::rest := by
    rw [List.dropWhile_append_of_pos (by simpa using htok)]
    simp [hd]
  have hskip : (b::t ++ d::rest).dropWhile (· ∈ delims) = b::t ++ d::rest := by
    simp [hb]
  simp only [nextToken, hskip, htake, hdrop]
  simp

theorem nextToken_whole {delims tok : Bytes} (hne : tok ≠ []) (htok : ∀ b ∈ tok, b ∉ delims) :
    nextToken delims tok = some (tok, []) := by
  obtain ⟨b, t, rfl⟩ := List.exists_cons_of_ne_nil hne
  have hb := htok b (by simp)
  have htake : (b::t).takeWhile (· ∉ delims) = b::t :=
    List.takeWhile_eq_self_iff.mpr (by simpa using htok)
  have hdrop : (b::t).dropWhile (· ∉ delims) = [] :=
    List.dropWhile_eq_nil_iff.mpr (by simpa using htok)
  have hskip : (b::t).dropWhile (· ∈ delims) = b::t := by simp [hb]
  simp only [nextToken, hskip, htake, hdrop]
  simp

end CSE344.CString
