import SystemProgramming.FileBytes
import SystemProgramming.PcpMachine

/-!
# What a pCp copy leaves at the destination

The copy loop of a consumer under every result that `read` and `write` may
return. The loop ends at the first read that is not positive and does not
look at what `write` returned, so the message is printed in every case. The
bytes that arrive are the accepted parts of the chunks, one after the other.
-/

set_option autoImplicit false

namespace CSE344.PcpCopies
open CString FileBytes PcpMachine

/-- What `source_fd` has not given yet, and the destination file with the
offset of `destination_fd`. -/
structure Files where
  left : Bytes
  destination : Bytes
  offset : ℕ
  deriving DecidableEq

/-- The destination was opened with `O_TRUNC`. -/
def opened (source : Bytes) : Files := ⟨source, [], 0⟩

def chunkSize : ℤ := 4096

/-- The `n` bytes that `read` gave, of which `write` took the first `w`; none
when `write` failed with -1. -/
def turn (n w : ℤ) (s : Files) : Files :=
  let accepted := (s.left.take n.toNat).take w.toNat
  ⟨s.left.drop n.toNat, writeAt s.offset accepted s.destination, s.offset+accepted.length⟩

/-- `while ((n = read(source_fd, ..)) > 0) write(destination_fd, buffer, n)` -/
def copyLoop : List ℤ → List ℤ → Files → Option Files
  | [], _, _ => none
  | n::reads, writes, s =>
    if 0 < n then
      match writes with
      | [] => none
      | w::writes => copyLoop reads writes (turn n w s)
    else some s

def copiedFile (slot : Slot) : Bytes := ascii "Copied file: " ++ slot.sourceFile ++ [10]

/-- The part of `consume_file_descriptor_pair` between the two accesses to the
ring, with what it prints. -/
def copyPair (slot : Slot) (reads writes : List ℤ) (s : Files) : Option (Files × List Bytes) :=
  (copyLoop reads writes s).map (fun t => (t, [copiedFile slot]))

/-- What the two calls may return on a source with `left` bytes to go: 1 to
4096 bytes and no more than there are, then 0 at the end of the file, or an
error anywhere. -/
inductive Legal : List ℤ → List ℤ → ℕ → Prop
  | endOfFile : Legal [0] [] 0
  | error (left : ℕ) : Legal [-1] [] left
  | turn (n w : ℤ) (reads writes : List ℤ) (left : ℕ) (hn : 1 ≤ n) (hsize : n ≤ chunkSize)
      (hleft : n ≤ left) (hfail : -1 ≤ w) (hw : w ≤ n)
      (h : Legal reads writes (left-n.toNat)) : Legal (n::reads) (w::writes) left

def accepted : List ℤ → List ℤ → Bytes → Bytes
  | n::reads, w::writes, left =>
      (left.take n.toNat).take w.toNat ++ accepted reads writes (left.drop n.toNat)
  | _, _, _ => []

/-- Every write took its whole chunk, and the reads gave the whole source. -/
def Complete (reads writes : List ℤ) (source : Bytes) : Prop :=
  writes = reads.dropLast ∧ reads.dropLast.sum = source.length

instance Complete.decidable (reads writes : List ℤ) (source : Bytes) :
    Decidable (Complete reads writes source) := by
  unfold Complete
  infer_instance

theorem copyLoop_accepted {reads writes : List ℤ} {left : ℕ} (h : Legal reads writes left)
    (s : Files) (hoff : s.offset = s.destination.length) :
    ∃ t, copyLoop reads writes s = some t ∧
      t.destination = s.destination ++ accepted reads writes s.left := by
  induction h generalizing s with
  | endOfFile => exact ⟨s, rfl, by simp [accepted]⟩
  | error left => exact ⟨s, rfl, by simp [accepted]⟩
  | turn n w reads writes left hn hsize hleft hfail hw h ih =>
    obtain ⟨t, ht, hdst⟩ := ih (turn n w s) (by
      simp only [turn, hoff, writeAt_end, List.length_append])
    refine ⟨t, by rw [copyLoop, if_pos (by omega), ht], ?_⟩
    rw [hdst, turn, hoff, writeAt_end, accepted, List.append_assoc]

theorem accepted_length (reads writes : List ℤ) (source : Bytes) :
    (accepted reads writes source).length ≤ source.length := by
  induction reads generalizing writes source with
  | nil => simp [accepted]
  | cons n reads ih =>
    cases writes with
    | nil => simp [accepted]
    | cons w writes =>
      have := ih writes (source.drop n.toNat)
      simp only [accepted, List.length_append, List.length_take, List.length_drop] at *
      omega

theorem Legal.reads_ne_nil {reads writes : List ℤ} {left : ℕ} (h : Legal reads writes left) :
    reads ≠ [] := by
  cases h <;> simp

theorem complete_cons {n w : ℤ} {reads writes : List ℤ} {source : Bytes} (hne : reads ≠ [])
    (hn : 1 ≤ n) (hleft : n ≤ source.length) :
    Complete (n::reads) (w::writes) source ↔
      w = n ∧ Complete reads writes (source.drop n.toNat) := by
  simp only [Complete, List.dropLast_cons_of_ne_nil hne, List.cons.injEq, List.sum_cons,
    List.length_drop]
  constructor
  · rintro ⟨⟨rfl, hw⟩, hsum⟩
    exact ⟨rfl, hw, by omega⟩
  · rintro ⟨rfl, hw, hsum⟩
    exact ⟨⟨rfl, hw⟩, by omega⟩

/-- What arrives is the source just if nothing was refused and nothing left unread:
otherwise it is too short. -/
theorem accepted_whole {reads writes : List ℤ} {left : ℕ} (h : Legal reads writes left)
    (source : Bytes) (hsource : source.length = left) :
    accepted reads writes source = source ↔ Complete reads writes source := by
  induction h generalizing source with
  | endOfFile =>
    obtain rfl := List.length_eq_zero_iff.mp hsource
    simp [accepted, Complete]
  | error left =>
    cases source with
    | nil => simp [accepted, Complete]
    | cons b source =>
      simp only [accepted, Complete, List.dropLast_singleton, List.sum_nil, List.length_cons]
      constructor
      · intro heq
        cases heq
      · rintro ⟨-, hsum⟩
        omega
  | turn n w reads writes left hn hsize hleft hfail hw h ih =>
    rw [complete_cons h.reads_ne_nil hn (by omega),
      ← ih (source.drop n.toNat) (by rw [List.length_drop, hsource]), accepted]
    constructor
    · intro heq
      have hlen := congrArg List.length heq
      have htail := accepted_length reads writes (source.drop n.toNat)
      simp only [List.length_append, List.length_take, List.length_drop] at hlen htail
      obtain rfl : w = n := by omega
      refine ⟨rfl, ?_⟩
      rw [List.take_take, Nat.min_self] at heq
      exact List.append_cancel_left (heq.trans (List.take_append_drop w.toNat source).symm)
    · rintro ⟨rfl, heq⟩
      rw [heq, List.take_take, Nat.min_self, List.take_append_drop]

/-- Whatever the calls return, the message is printed; it is true if and only
if every write took its whole chunk and the whole source had been read. -/
theorem copied_file_iff (slot : Slot) (source : Bytes) (reads writes : List ℤ)
    (h : Legal reads writes source.length) :
    ∃ t out, copyPair slot reads writes (opened source) = some (t, out) ∧
      ((copiedFile slot ∈ out → t.destination = source) ↔ Complete reads writes source) := by
  obtain ⟨t, ht, hdst⟩ := copyLoop_accepted h (opened source) rfl
  refine ⟨t, [copiedFile slot], by rw [copyPair, ht]; rfl, ?_⟩
  rw [← accepted_whole h source rfl, hdst]
  simp [opened]

def namedSlot : Slot := ⟨3, 4, ascii "a/f", ascii "b/f"⟩

theorem copied_file_iff_two_chunks : ∃ t out,
    copyPair namedSlot [2, 1, 0] [2, 1] (opened [5, 6, 7]) = some (t, out) ∧
      ((copiedFile namedSlot ∈ out → t.destination = [5, 6, 7]) ↔
        Complete [2, 1, 0] [2, 1] [5, 6, 7]) :=
  copied_file_iff namedSlot [5, 6, 7] [2, 1, 0] [2, 1]
    (.turn 2 2 _ _ 3 (by decide) (by decide) (by decide) (by decide) (by decide)
      (.turn 1 1 _ _ 1 (by decide) (by decide) (by decide) (by decide) (by decide) .endOfFile))

/-- One byte of two is accepted, and the copy is reported. -/
theorem copied_file_short : Legal [2, 0] [1] 2 ∧ ∃ t out,
    copyPair namedSlot [2, 0] [1] (opened [5, 6]) = some (t, out) ∧
      copiedFile namedSlot ∈ out ∧ t.destination = [5] := by
  refine ⟨.turn 2 1 _ _ 2 ?_ ?_ ?_ ?_ ?_ .endOfFile, _, _, rfl, by decide, rfl⟩ <;> decide

/-- With complete calls the destination is what the file system's copy makes of it. -/
theorem complete_copy {Loc : Type*} [DecidableEq Loc] (src dst : Loc) (hne : src ≠ dst)
    (files : Loc → Option Bytes) (hdst : files dst = some []) (reads writes : List ℤ)
    (h : Legal reads writes (readable files src).length)
    (hc : Complete reads writes (readable files src)) :
    ∃ t, copyLoop reads writes (opened (readable files src)) = some t ∧
      copy chunkSize.toNat src dst files dst = some t.destination := by
  obtain ⟨t, ht, ht'⟩ := copyLoop_accepted h (opened (readable files src)) rfl
  refine ⟨t, ht, ?_⟩
  have hwhole : t.destination = readable files src :=
    ht'.trans ((accepted_whole h (readable files src) rfl).mpr hc)
  rw [copy_content chunkSize.toNat (by decide) src dst hne files hdst, hwhole]

end CSE344.PcpCopies
