import SystemProgramming.Stdio

/-!
# `sscanf` with words and numbers

A format is a list of directives. A blank in it matches any run of blanks, the
empty one included, `%s` skips blanks and takes the nonblanks up to the next
blank, and `%d` skips blanks and takes a sign and digits, also when they end in
the middle of a word. What comes back are the fields stored before the first
directive that does not match; the number that the function returns is their
number, or a negative one where it is 0.
-/

set_option autoImplicit false

namespace CSE344.Scanf
open CString Stdio

inductive Directive where
  | literal (b : UInt8)
  | blank
  | string
  | int
  deriving DecidableEq, Repr

inductive Field where
  | string (s : Bytes)
  | int (n : ℤ)
  deriving DecidableEq, Repr

/-- The directives of a format string, with `%s` and `%d` as the only conversions. -/
def format : Bytes → List Directive
  | [] => []
  | 37::115::f => .string :: format f
  | 37::100::f => .int :: format f
  | b::f => (if isSpace b then .blank else .literal b) :: format f

def scanString (s : Bytes) : Option (Bytes × Bytes) :=
  let t := s.dropWhile isSpace
  if t = [] then none else some (t.takeWhile (!isSpace ·), t.dropWhile (!isSpace ·))

/-- The text behind a sign. -/
def unsigned : Bytes → Bytes
  | 43::t => t
  | 45::t => t
  | t => t

def scanInt (s : Bytes) : Option (ℤ × Bytes) :=
  let t := s.dropWhile isSpace
  if (unsigned t).takeWhile isDigit = [] then none
  else some (atoi t, (unsigned t).dropWhile isDigit)

def sscanf : List Directive → Bytes → List Field
  | [], _ => []
  | .literal b::ds, s => match s with
    | [] => []
    | c::t => if c = b then sscanf ds t else []
  | .blank::ds, s => sscanf ds (s.dropWhile isSpace)
  | .string::ds, s => match scanString s with
    | none => []
    | some (w, t) => .string w :: sscanf ds t
  | .int::ds, s => match scanInt s with
    | none => []
    | some (n, t) => .int n :: sscanf ds t

/-- A text that `%s` takes whole. -/
structure Word (w : Bytes) : Prop where
  ne_nil : w ≠ []
  nonblank : ∀ b ∈ w, isSpace b = false

/-- What follows a word: nothing, or a blank first. -/
def Ends (rest : Bytes) : Prop := ∀ b ∈ rest.head?, isSpace b = true

/-- `%d` for an `int`. -/
def print (n : ℤ) : Bytes := ascii (toString n)

section Literals

variable (ds : List Directive)

theorem sscanf_literals (w s : Bytes) :
    sscanf (w.map .literal ++ ds) (w++s) = sscanf ds s := by
  induction w with
  | nil => rfl
  | cons b w ih => simpa [sscanf] using ih

theorem sscanf_other {w s : Bytes} (h : ¬ w <+: s) : sscanf (w.map .literal ++ ds) s = [] := by
  induction w generalizing s with
  | nil => exact absurd List.nil_prefix h
  | cons b w ih =>
    cases s with
    | nil => rfl
    | cons c t =>
      simp only [List.map_cons, List.cons_append, sscanf]
      split_ifs with hc
      · apply ih
        intro ht
        apply h
        rw [hc]
        exact List.cons_prefix_cons.mpr ⟨rfl, ht⟩
      · rfl

end Literals

section Words

theorem skip_word {w : Bytes} (hw : Word w) (s : Bytes) :
    (w++s).dropWhile isSpace = w++s := by
  obtain ⟨b, w, rfl⟩ := List.exists_cons_of_ne_nil hw.ne_nil
  have hb := hw.nonblank b (by simp)
  simp [hb]

theorem skip_skip (s : Bytes) :
    (s.dropWhile isSpace).dropWhile isSpace = s.dropWhile isSpace := by
  induction s with
  | nil => rfl
  | cons b s ih =>
    by_cases hb : isSpace b = true
    · simpa [hb] using ih
    · simp [hb]

theorem takeWhile_word {w rest : Bytes} (hw : Word w) (hr : Ends rest) :
    (w++rest).takeWhile (!isSpace ·) = w ∧ (w++rest).dropWhile (!isSpace ·) = rest := by
  have hpos : ∀ b ∈ w, (!isSpace b) = true := fun b hb => by simp [hw.nonblank b hb]
  rw [List.takeWhile_append_of_pos hpos, List.dropWhile_append_of_pos hpos]
  cases rest with
  | nil => simp
  | cons b rest =>
    have hb : isSpace b = true := hr b rfl
    simp [hb]

theorem scanString_word {w rest : Bytes} (hw : Word w) (hr : Ends rest) :
    scanString (w++rest) = some (w, rest) := by
  obtain ⟨htake, hdrop⟩ := takeWhile_word hw hr
  simp only [scanString, skip_word hw, htake, hdrop]
  rw [if_neg (by simp [hw.ne_nil])]

theorem scanString_skip (s : Bytes) : scanString (s.dropWhile isSpace) = scanString s := by
  simp only [scanString, skip_skip]

theorem scanString_some {s w rest : Bytes} (h : scanString s = some (w, rest)) :
    Word w ∧ Ends rest ∧ s.dropWhile isSpace = w++rest := by
  simp only [scanString] at h
  split_ifs at h with hnil
  simp only [Option.some.injEq, Prod.mk.injEq] at h
  obtain ⟨rfl, rfl⟩ := h
  refine ⟨⟨?_, fun b hb => by simpa using List.mem_takeWhile_imp hb⟩, ?_,
    List.takeWhile_append_dropWhile.symm⟩
  · have hhead := List.head_dropWhile_not isSpace hnil
    obtain ⟨b, t, ht⟩ := List.exists_cons_of_ne_nil hnil
    simp only [ht, List.head_cons] at hhead
    simp [ht, hhead]
  · intro b hb
    have hne : (s.dropWhile isSpace).dropWhile (!isSpace ·) ≠ [] := by
      intro hnone
      rw [hnone] at hb
      cases hb
    have hhead := List.head_dropWhile_not (!isSpace ·) hne
    rw [List.head?_eq_some_head hne] at hb
    rw [← Option.some.inj hb]
    simpa using hhead

end Words

section Numbers

theorem isDigit_ofNat {c : Char} (h : c.isDigit = true) :
    isDigit (UInt8.ofNat c.toNat) = true ∧
      (UInt8.ofNat c.toNat).toNat-48 = c.toNat - '0'.toNat := by
  obtain ⟨h0, h9⟩ := Char.isDigit_iff_toNat.mp h
  have hlt : c.toNat < 256 := lt_of_le_of_lt h9 (by decide)
  simp only [isDigit, UInt8.le_iff_toNat_le, decide_eq_true_eq, UInt8.toNat_ofNat']
  rw [Nat.mod_eq_of_lt hlt]
  exact ⟨⟨h0, h9⟩, rfl⟩

theorem digits_repr (m : ℕ) : ∀ b ∈ ascii m.repr, isDigit b = true := by
  intro b hb
  obtain ⟨c, hc, rfl⟩ := List.mem_map.mp hb
  rw [Nat.toList_repr] at hc
  exact (isDigit_ofNat (Nat.isDigit_of_mem_toDigits (by decide) (by decide) hc)).1

theorem ascii_repr_ne_nil (m : ℕ) : ascii m.repr ≠ [] := by
  rw [ascii, Nat.toList_repr]
  simp

theorem foldl_digits (cs : List Char) (h : ∀ c ∈ cs, c.isDigit = true) (n : ℕ) :
    (cs.map (fun c => UInt8.ofNat c.toNat)).foldl (fun n b => 10*n+(b.toNat-48)) n =
      Nat.ofDigitChars 10 cs n := by
  induction cs generalizing n with
  | nil => rfl
  | cons c cs ih =>
    simp only [List.map_cons, List.foldl_cons, Nat.ofDigitChars_cons]
    rw [(isDigit_ofNat (h c (by simp))).2]
    exact ih (fun d hd => h d (by simp [hd])) _

theorem decimal_repr (m : ℕ) {rest : Bytes} (hr : ∀ b ∈ rest.head?, isDigit b = false) :
    decimal (ascii m.repr ++ rest) = m ∧
      (ascii m.repr ++ rest).takeWhile isDigit = ascii m.repr ∧
      (ascii m.repr ++ rest).dropWhile isDigit = rest := by
  have htake : rest.takeWhile isDigit = [] ∧ rest.dropWhile isDigit = rest := by
    cases rest with
    | nil => exact ⟨rfl, rfl⟩
    | cons b rest =>
      have hb : isDigit b = false := hr b rfl
      simp [hb]
  have hall : (ascii m.repr ++ rest).takeWhile isDigit = ascii m.repr := by
    rw [List.takeWhile_append_of_pos (digits_repr m), htake.1, List.append_nil]
  refine ⟨?_, hall, by rw [List.dropWhile_append_of_pos (digits_repr m), htake.2]⟩
  rw [decimal, hall, ascii, Nat.toList_repr]
  rw [foldl_digits _ (fun c hc => Nat.isDigit_of_mem_toDigits (by decide) (by decide) hc)]
  exact Nat.ofDigitChars_ten_toDigits

theorem print_eq (n : ℤ) :
    print n = if 0 ≤ n then ascii n.toNat.repr else 45 :: ascii (-n).toNat.repr := by
  rw [print, Int.toString_eq_repr, Int.repr_eq_if]
  split_ifs <;> simp [ascii, String.toList_append]

theorem isSpace_of_isDigit {b : UInt8} (h : isDigit b = true) : isSpace b = false := by
  simp only [isDigit, isSpace, decide_eq_true_eq, decide_eq_false_iff_not, UInt8.le_iff_toNat_le,
    ← UInt8.toNat_inj] at *
  simp only [UInt8.reduceToNat] at *
  omega

theorem print_word (n : ℤ) : Word (print n) := by
  rw [print_eq]
  split_ifs
  · exact ⟨ascii_repr_ne_nil _, fun b hb => isSpace_of_isDigit (digits_repr _ b hb)⟩
  · refine ⟨List.cons_ne_nil _ _, fun b hb => ?_⟩
    rcases List.mem_cons.mp hb with rfl | hb
    · rfl
    · exact isSpace_of_isDigit (digits_repr _ b hb)

theorem unsigned_digit {b : UInt8} (h : isDigit b = true) (s : Bytes) :
    unsigned (b::s) = b::s := by
  have h43 : b ≠ 43 := by
    rintro rfl
    cases h
  have h45 : b ≠ 45 := by
    rintro rfl
    cases h
  simp [unsigned, h43, h45]

theorem strtol_eq (s : Bytes) :
    strtol s = max (-2^63) (min ((if (s.dropWhile isSpace).head? = some 45 then -1 else 1) *
      (decimal (unsigned (s.dropWhile isSpace)) : ℤ)) (2^63-1)) := by
  unfold strtol
  generalize s.dropWhile isSpace = t
  split
  · simp [unsigned]
  · simp [unsigned]
  · rename_i h43 h45
    cases t with
    | nil => simp [unsigned]
    | cons b t =>
      have hb43 : b ≠ 43 := fun h => h43 t (by rw [h])
      have hb45 : b ≠ 45 := fun h => h45 t (by rw [h])
      simp [unsigned, hb45]

theorem unsigned_print (n : ℤ) (rest : Bytes) :
    unsigned (print n ++ rest) = ascii n.natAbs.repr ++ rest ∧
      ((print n ++ rest).head? = some 45 ↔ n < 0) := by
  rw [print_eq]
  split_ifs with h
  · obtain ⟨b, t, hbt⟩ := List.exists_cons_of_ne_nil (ascii_repr_ne_nil n.toNat)
    have hb : isDigit b = true := digits_repr n.toNat b (by simp [hbt])
    have habs : n.natAbs = n.toNat := by omega
    have h45 : b ≠ 45 := by
      rintro rfl
      cases hb
    rw [habs, hbt, List.cons_append, unsigned_digit hb]
    exact ⟨rfl, by simpa [h45] using h⟩
  · have habs : n.natAbs = (-n).toNat := by omega
    rw [habs]
    exact ⟨rfl, by simpa using h⟩

theorem unsigned_suffix (s : Bytes) : unsigned s <:+ s := by
  unfold unsigned
  split
  · exact List.suffix_cons _ _
  · exact List.suffix_cons _ _
  · exact List.suffix_rfl

theorem strtol_print {n : ℤ} (hn : -2^63 ≤ n ∧ n < 2^63) {rest : Bytes}
    (hr : ∀ b ∈ rest.head?, isDigit b = false) : strtol (print n ++ rest) = n := by
  have hskip := skip_word (print_word n) rest
  obtain ⟨hdecimal, -, -⟩ := decimal_repr n.natAbs hr
  obtain ⟨hunsigned, hsign⟩ := unsigned_print n rest
  rw [strtol_eq, hskip, hunsigned, hdecimal]
  simp only [hsign]
  split_ifs <;> omega

theorem atoi_print {n : ℤ} (hn : -2^31 ≤ n ∧ n < 2^31) {rest : Bytes}
    (hr : ∀ b ∈ rest.head?, isDigit b = false) : atoi (print n ++ rest) = n := by
  rw [atoi, strtol_print (by omega) hr]
  apply Int.bmod_eq_of_le <;> omega

/-- Printing an `int` and reading it back, whatever comes behind its digits. -/
theorem scanInt_print {n : ℤ} (hn : -2^31 ≤ n ∧ n < 2^31) {rest : Bytes}
    (hr : ∀ b ∈ rest.head?, isDigit b = false) : scanInt (print n ++ rest) = some (n, rest) := by
  have hskip := skip_word (print_word n) rest
  obtain ⟨-, htake, hdrop⟩ := decimal_repr n.natAbs hr
  obtain ⟨hunsigned, -⟩ := unsigned_print n rest
  simp only [scanInt, hskip, hunsigned, htake, hdrop, atoi_print hn hr]
  rw [if_neg (ascii_repr_ne_nil _)]

theorem noNul_print (n : ℤ) : 0 ∉ print n := by
  have hdigits (m : ℕ) : 0 ∉ ascii m.repr := by
    intro h
    cases digits_repr m 0 h
  rw [print_eq]
  split_ifs
  · exact hdigits _
  · simpa using hdigits _

theorem noSpace_print (n : ℤ) : 32 ∉ print n := by
  intro h
  cases (print_word n).nonblank 32 h

theorem length_print {n : ℤ} (hn : -2^31 ≤ n ∧ n < 2^31) : (print n).length ≤ 11 := by
  have hdigits (m : ℕ) (hm : m < 10^10) : (ascii m.repr).length ≤ 10 := by
    rw [ascii, List.length_map, String.length_toList]
    exact (Nat.length_repr_le_iff (by decide)).mpr hm
  rw [print_eq]
  split_ifs
  · exact Nat.le_succ_of_le (hdigits _ (by omega))
  · exact Nat.succ_le_succ (hdigits _ (by omega))

end Numbers

end CSE344.Scanf
