import SystemProgramming.BiboLines

/-!
# Rewriting one piece of a file

The pieces that `fgets` cuts a file into make up the file again, so a `writeT`
changes one of them and nothing else. `readF` counts the same pieces, and both
commands refuse the same numbers.
-/

set_option autoImplicit false

namespace CSE344.BiboRewrite
open CString Stdio BiboServer BiboCommands BiboAlone BiboLines

def pieces (c : Bytes) : List Bytes := fgetsAll lineSize c

section Pieces

variable {c text : Bytes} {k : ℤ}

theorem pieces_noNul (h0 : 0 ∉ c) : ∀ p ∈ pieces c, 0 ∉ p := by
  intro p hp h
  apply h0
  rw [← fgetsAll_flatten (n := lineSize) (by decide) c]
  exact List.mem_flatten_of_mem hp h

theorem pieces_whole (h0 : 0 ∉ c) : (pieces c).map cstr = pieces c := by
  have hid : ∀ p ∈ pieces c, cstr p = id p := fun p hp => cstr_of_noNul (pieces_noNul h0 p hp)
  rw [List.map_congr_left hid, List.map_id]

theorem rewritten_piece (h0 : 0 ∉ c) (hm : (pieces c).length < maxLines) (hk : 1 ≤ k)
    (hle : k ≤ (pieces c).length) (hlen : text.length < lineSize) :
    rewritten k (some text) c = some (some ((pieces c).set (k.toNat-1) text).flatten) := by
  rw [rewritten, if_neg (by omega)]
  show (replaced k (some text) ((pieces c).map cstr)).map _ = _
  rw [pieces_whole h0, replaced, if_neg (by omega), if_neg (by omega), Option.bind_some,
    if_neg (by omega)]
  rfl

theorem rewritten_beyond (h0 : 0 ∉ c) (hm : (pieces c).length < maxLines) (hk : 1 ≤ k)
    (hlt : ((pieces c).length : ℤ) < k) : rewritten k (some text) c = some none := by
  rw [rewritten, if_neg (by omega)]
  show (replaced k (some text) ((pieces c).map cstr)).map _ = _
  rw [pieces_whole h0, replaced, if_neg (by omega), if_pos hlt]
  rfl

theorem lineReply_piece (h0 : 0 ∉ c) (hk : 1 ≤ k) (hle : k ≤ (pieces c).length) :
    (pieces c)[k.toNat-1]? = some (lineReply k c) := by
  have hlt : k.toNat-1 < (pieces c).length := by omega
  have hget : (fgetsAll lineSize c).getD (k.toNat-1) [] = (pieces c)[k.toNat-1] := by
    rw [List.getD_eq_getElem?_getD]
    exact congrArg (Option.getD · []) (List.getElem?_eq_getElem hlt)
  have hnul := pieces_noNul h0 _ (List.getElem_mem hlt)
  rw [lineReply, BiboThreads.readText, if_neg (by omega), if_pos ⟨hk, hle⟩, hget,
    cstr_of_noNul hnul, cstr_of_noNul hnul, List.getElem?_eq_getElem hlt]

theorem notFound_noNul (k : ℤ) : 0 ∉ notFound k := by
  rw [notFound, List.mem_append, List.mem_append, not_or, not_or]
  exact ⟨⟨by decide, Scanf.noNul_print k⟩, by decide⟩

theorem lineReply_beyond (hk : 1 ≤ k) (hlt : ((pieces c).length : ℤ) < k) :
    lineReply k c = notFound k := by
  have hout : ¬ (1 ≤ k ∧ k ≤ (fgetsAll lineSize c).length) := fun h => absurd h.2 (not_le.mpr hlt)
  rw [lineReply, BiboThreads.readText, if_neg (by omega), if_neg hout,
    cstr_of_noNul (notFound_noNul k)]

end Pieces

section Commands

variable {cfg : Config} {f : FileName cfg} {s : State} {c text : Bytes} {k : ℤ}

theorem read_keeps {openOk : Bool} {t : State} {reply : Bytes} (hint : -2^31 ≤ k ∧ k < 2^31)
    (h : handle cfg openOk (readCommand f k) s = some (t, reply)) : t.files = s.files := by
  rw [handle, command_readCommand f openOk hint] at h
  obtain ⟨u, hu, hreply⟩ := Option.bind_eq_some_iff.mp h
  obtain ⟨r, -, heq⟩ := Option.map_eq_some_iff.mp hreply
  cases heq
  exact (readF_result openOk hu).1

theorem writeCommand_room (hint : -2^31 ≤ k ∧ k < 2^31) (hlen : text.length < lineSize) :
    (writeCommand f k text).length < bufferSize := by
  have hname := f.length
  have hprint := Scanf.length_print hint
  rw [show lineSize = 256 from rfl] at hlen
  simp only [writeCommand, List.length_append, List.length_cons]
  show 7+_ < 1024
  omega

theorem command_rewritten (hint : -2^31 ≤ k ∧ k < 2^31) (hc : s.files (path f) = some c)
    (hne : text ≠ []) (h0 : 0 ∉ text) (hlen : text.length < lineSize) :
    command cfg true (received (writeCommand f k text)) s =
      (match rewritten k (some text) c with
        | none => none
        | some none => s.respond (notFound k)
        | some (some content) => some (s.put (path f) content)).bind (fun s =>
          if s.response.head? = some 0 then s.respond (ascii "Write successful") else some s) := by
  obtain ⟨hfields, hnum⟩ := fields_writeCommand f hint hne
  have hfile : s.files (filepath cfg ⟨some f.bytes, some (Scanf.print k), some text⟩) = some c := hc
  rw [command_writeCommand f true h0 (writeCommand_room hint hlen)]
  unfold writeT guard
  rw [if_pos rfl]
  simp only [Option.pure_def, Option.bind_eq_bind, Option.bind_some, hfields, hfile, hnum]
  rcases rewritten k (some text) c with _ | _ | content <;> rfl

/-- `readF` returns the piece, and `writeT` puts the text in its place; the reply
to a `writeT` that succeeds is what was left in the array. -/
structure Replaces (f : FileName cfg) (openOk : Bool) (s : State) (c : Bytes) (k : ℤ)
    (text : Bytes) : Prop where
  read : ∃ u piece, (pieces c)[k.toNat-1]? = some piece ∧
    handle cfg openOk (readCommand f k) s = some (u, piece) ∧ u.files = s.files
  write : ∃ t, command cfg true (received (writeCommand f k text)) s = some t ∧
    t.files = Function.update s.files (path f) (some ((pieces c).set (k.toNat-1) text).flatten)

/-- Neither command finds the line, and neither changes a file. -/
structure Refuses (f : FileName cfg) (openOk : Bool) (s : State) (k : ℤ) (text : Bytes) :
    Prop where
  read : ∃ u, handle cfg openOk (readCommand f k) s = some (u, notFound k) ∧ u.files = s.files
  write : ∃ t, handle cfg true (writeCommand f k text) s = some (t, notFound k) ∧
    t.files = s.files

/-- On every content that the table has room for, `writeT` replaces the piece
that `readF` returns, or both refuse its number. -/
theorem rewrite_lossless (f : FileName cfg) (openOk : Bool) (s : State) (c : Bytes)
    (hc : s.files (path f) = some c) (h0 : 0 ∉ c) (hm : (pieces c).length < 1000) (k : ℤ)
    (hk : 1 ≤ k) (hint : k < 2^31) (text : Bytes) (hne : text ≠ []) (htext : 0 ∉ text)
    (hlen : text.length ≤ 255) :
    (k ≤ (pieces c).length → Replaces f openOk s c k text) ∧
      ((pieces c).length < k → Refuses f openOk s k text) := by
  have hint' : -2^31 ≤ k ∧ k < 2^31 := ⟨by omega, hint⟩
  have hroom : text.length < lineSize := Nat.lt_succ_of_le hlen
  have hwrite := command_rewritten hint' hc hne htext hroom
  obtain ⟨u, hu⟩ := handle_readCommand openOk hint' (by omega) hc
  have hkeeps := read_keeps hint' hu
  constructor
  · intro hle
    refine ⟨⟨u, _, lineReply_piece h0 hk hle, hu, hkeeps⟩, ?_⟩
    rw [rewritten_piece h0 hm hk hle hroom] at hwrite
    rw [hwrite, Option.bind_some]
    split_ifs
    · have hshort : (ascii "Write successful").length < bufferSize := by decide
      obtain ⟨t, ht, -⟩ := respond_some hshort
        (s.put (path f) ((pieces c).set (k.toNat-1) text).flatten)
      exact ⟨t, ht, (respond_spec ht).1⟩
    · exact ⟨_, rfl, rfl⟩
  · intro hlt
    rw [lineReply_beyond hk hlt] at hu
    refine ⟨⟨u, hu, hkeeps⟩, ?_⟩
    obtain ⟨t, ht, hreply⟩ := respond_some (notFound_length hint') s
    rw [cstr_of_noNul (notFound_noNul k)] at hreply
    -- the reply begins with an L, so it is left as it is
    have hhead : t.response.head? ≠ some 0 := by
      intro hzero
      obtain ⟨m, hm, rfl⟩ := Option.map_eq_some_iff.mp ht
      rw [strcpy, if_pos (notFound_length hint')] at hm
      cases hm
      exact absurd (show some (76 : UInt8) = some 0 from hzero) (by decide)
    rw [rewritten_beyond h0 hm hk hlt] at hwrite
    dsimp only at hwrite
    rw [ht, Option.bind_some, if_neg hhead] at hwrite
    refine ⟨t, ?_, (respond_spec ht).1⟩
    rw [handle, hwrite, Option.bind_some, hreply]
    rfl

/-- A file of two pieces, and a number for each of the two cases. -/
theorem rewrite_lossless_two :
    (pieces (ofLines twoLines)).length = 2 ∧
    Replaces named true holding (ofLines twoLines) 1 (ascii "x\n") ∧
    Refuses named true holding 3 (ascii "x\n") := by
  have hdisk : holding.files (path named) = some (ofLines twoLines) := by decide
  have hboth (k : ℤ) (hk : 1 ≤ k) (hint : k < 2^31) :=
    rewrite_lossless named true holding (ofLines twoLines) hdisk (by decide)
      (by decide) k hk hint (ascii "x\n") (by decide) (by decide)
      (by decide)
  have hlen : (pieces (ofLines twoLines)).length = 2 := by decide
  refine ⟨hlen, (hboth 1 (by decide) (by decide)).1 ?_, (hboth 3 (by decide) (by decide)).2 ?_⟩
  · rw [hlen]
    decide
  · rw [hlen]
    decide

end Commands

end CSE344.BiboRewrite
