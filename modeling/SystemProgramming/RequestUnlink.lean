import SystemProgramming.PathConfinement
import SystemProgramming.TableEffects

/-!
# What `handle_client` unlinks at its end

The path of the FIFO is in `buffer` only until the request is read over it. What
is unlinked is the text of the request, or the last line of a listing, or the
message about the client that has quit.
-/

set_option autoImplicit false

namespace CSE344.RequestUnlink
open CString PathResolve PathConfinement TableCalls RequestGrammar
open TableDescriptors (fifoPath)
open FifoSession (overlay listLine listBlocks)

/-- What a path denotes for a server in the directory `cwd`. -/
def place (cwd : Loc) (path : Bytes) : Loc := resolve unix cwd path

/-- The places that have lost their file. -/
def removed (d d' : Disk Loc) : Set Loc :=
  {l | d.directory.files l ≠ none ∧ d'.directory.files l = none}

theorem cstr_overlay (text array : Bytes) : cstr (overlay text array) = cstr text :=
  cstr_append_zero _ _

theorem print_last (n : ℤ) : ∃ b, (Scanf.print n).getLast? = some b ∧ isDigit b = true := by
  have hrepr (m : ℕ) : ∃ b, (ascii m.repr).getLast? = some b ∧ isDigit b = true := by
    refine ⟨(ascii m.repr).getLast (Scanf.ascii_repr_ne_nil m), List.getLast?_eq_some_getLast _, ?_⟩
    exact Scanf.digits_repr m _ (List.getLast_mem _)
  rw [Scanf.print_eq]
  split_ifs
  · exact hrepr _
  · obtain ⟨b, hb, hd⟩ := hrepr (-n).toNat
    refine ⟨b, ?_, hd⟩
    rw [List.getLast?_cons, hb]
    rfl

theorem fifoPath_eq (pid : ℤ) : fifoPath pid = ascii "/tmp" ++ unix.sep :: Scanf.print pid := by
  simp [fifoPath, Scanf.print, ascii, String.toList_append]
  rfl

theorem mem_print {n : ℤ} {b : UInt8} (h : b ∈ Scanf.print n) : b = 45 ∨ isDigit b = true := by
  rw [Scanf.print_eq] at h
  split_ifs at h
  · exact Or.inr (Scanf.digits_repr _ b h)
  · rcases List.mem_cons.mp h with rfl | h
    · exact Or.inl rfl
    · exact Or.inr (Scanf.digits_repr _ b h)

theorem fifo_last (cwd : Loc) (pid : ℤ) :
    (place cwd (fifoPath pid)).getLast? = some (Scanf.print pid) := by
  have hlast {c : Bytes} (hc : c.getLast? = some 46) : Scanf.print pid ≠ c := by
    rintro rfl
    obtain ⟨b, hb, hd⟩ := print_last pid
    rw [hc] at hb
    cases hb
    cases hd
  rw [place, fifoPath_eq]
  apply resolve_join_last
  · intro hsep
    rcases mem_print hsep with h | h <;> cases h
  · exact (Scanf.print_word pid).ne_nil
  · exact hlast rfl
  · exact hlast rfl

theorem place_ne_fifo (cwd : Loc) (pid : ℤ) (front : Bytes) {tail : Bytes} (hsep : 47 ∉ tail)
    (hlen : 2 < tail.length) (hlast : ∀ b ∈ tail.getLast?, isDigit b = false) :
    place cwd (front++tail) ≠ place cwd (fifoPath pid) := by
  intro heq
  have hne : tail ≠ [] := by
    rintro rfl
    cases hlen
  obtain ⟨c, ⟨pre, hc⟩, hend⟩ := resolve_last unix cwd front hsep hne
    (lt_trans (by decide) hlen) hlen
  have hend' : (place cwd (front++tail)).getLast? = some c := hend
  rw [heq, fifo_last] at hend'
  obtain ⟨b, hb, hd⟩ := print_last pid
  rw [Option.some.inj hend', ← hc, List.getLast?_append_of_ne_nil _ hne] at hb
  rw [hlast b hb] at hd
  cases hd

theorem plain_text (text : Bytes) : (request text = .list → text = ascii "list") ∧
    (request text = .quit → text = ascii "quit") := by
  have hkind := command_kind text
  unfold FifoSession.command at hkind
  split_ifs at hkind
  all_goals constructor <;> intro h <;> rw [h] at hkind <;> cases hkind
  · assumption
  · assumption

theorem plain_ne_fifo (cwd : Loc) (pid : ℤ) {text : Bytes}
    (h : request text = .list ∨ request text = .quit) :
    place cwd text ≠ place cwd (fifoPath pid) := by
  have hword (word : Bytes) (hsep : 47 ∉ word) (hlen : 2 < word.length)
      (hlast : ∀ b ∈ word.getLast?, isDigit b = false) :
      place cwd word ≠ place cwd (fifoPath pid) := place_ne_fifo cwd pid [] hsep hlen hlast
  rcases h with h | h
  · rw [(plain_text text).1 h]
    exact hword _ (by decide +kernel) (by decide +kernel) (by decide +kernel)
  · rw [(plain_text text).2 h]
    exact hword _ (by decide +kernel) (by decide +kernel) (by decide +kernel)

theorem listBlocks_last (buffer : Bytes) (files : List (Bytes × ℤ)) :
    (files = [] ∧ (listBlocks buffer files).getLastD buffer = buffer) ∨
      ∃ f ∈ files, ∃ array, (listBlocks buffer files).getLastD buffer =
        overlay (listLine f) array := by
  induction files generalizing buffer with
  | nil => exact Or.inl ⟨rfl, rfl⟩
  | cons f files ih =>
    right
    rw [listBlocks, List.getLastD_cons]
    rcases ih (overlay (listLine f) buffer) with ⟨-, h⟩ | ⟨g, hg, array, h⟩
    · exact ⟨f, List.mem_cons_self, buffer, h⟩
    · exact ⟨g, List.mem_cons_of_mem f hg, array, h⟩

variable {L : Type*}

theorem left_place_iff (cwd : Loc) (r : Serving) (s : State L) :
    place cwd (cstr (r.left s)) = place cwd (fifoPath r.pid) ↔
      place cwd r.text.bytes = place cwd (fifoPath r.pid) := by
  rw [Serving.left, dispatch_buffer]
  split
  · rename_i h
    have hne := plain_ne_fifo cwd r.pid (Or.inl h)
    rcases listBlocks_last r.buffer s.listing with ⟨-, hlast⟩ | ⟨f, hf, array, hlast⟩
    · rw [hlast, cstr_buffer]
    · refine iff_of_false ?_ hne
      obtain ⟨e, -, rfl⟩ := List.mem_map.mp hf
      have hnul : 0 ∉ listLine (cstr e.name, e.size) := by
        have hname := noNul_cstr e.name
        have hsize : 0 ∉ ascii (toString e.size) := Scanf.noNul_print e.size
        have htab : 0 ∉ ascii "\t" := by decide
        have hbytes : 0 ∉ ascii " bytes\n" := by decide
        simp only [listLine, List.mem_append, not_or]
        exact ⟨⟨⟨hname, htab⟩, hsize⟩, hbytes⟩
      rw [hlast, cstr_overlay, cstr_of_noNul hnul]
      exact place_ne_fifo cwd r.pid _ (by decide +kernel) (by decide +kernel) (by decide +kernel)
  · rename_i h
    refine iff_of_false ?_ (plain_ne_fifo cwd r.pid (Or.inr h))
    have hnul : 0 ∉ quitText r.pid := by
      have hclient : 0 ∉ ascii "Client " := by decide
      have hquit : 0 ∉ ascii " quit.\n" := by decide
      simp only [quitText, List.mem_append, not_or]
      exact ⟨⟨hclient, Scanf.noNul_print r.pid⟩, hquit⟩
    rw [cstr_overlay, cstr_of_noNul hnul]
    exact place_ne_fifo cwd r.pid _ (by decide +kernel) (by decide +kernel) (by decide +kernel)
  · rw [cstr_buffer]

theorem left_text {cwd : Loc} {r : Serving} (s : State L)
    (h : place cwd r.text.bytes = place cwd (fifoPath r.pid)) :
    cstr (r.left s) = r.text.bytes := by
  rw [Serving.left, dispatch_buffer]
  split
  · rename_i hlist
    exact absurd h (plain_ne_fifo cwd r.pid (Or.inl hlist))
  · rename_i hquit
    exact absurd h (plain_ne_fifo cwd r.pid (Or.inr hquit))
  · rw [cstr_buffer]

theorem mem_removed_unlink (cwd : Loc) (env : Env) (path : Bytes) (d : Disk Loc) (l : Loc) :
    l ∈ removed d (d.unlink (place cwd) env path) ↔
      env.unlinkOk path = true ∧ l = place cwd path ∧ d.fileAt (place cwd) path ≠ none := by
  unfold removed Disk.unlink
  split_ifs with hok
  · by_cases hl : l = place cwd path
    · subst hl
      simp [ProcessFiles.Directory.unlink, Disk.fileAt, hok]
    · simp [ProcessFiles.Directory.unlink, hl]
  · simp [hok]

/-- `handle_client` itself removes the FIFO of its client, and nothing else,
exactly if the text of the request is one more name of that FIFO. -/
theorem own_removal_iff (cwd : Loc) (r : Serving) (s : State Loc) (p : State Loc × Option Said)
    (h : serveRequest (place cwd) r
      { s with disk := s.disk.mkfifo (place cwd) (fifoPath r.pid) } = some p) :
    ∃ u, handleClient (place cwd) r s = some u ∧
      (removed p.1.disk u.1.disk = {place cwd (fifoPath r.pid)} ↔
        p.2 ≠ some .crashed ∧ place cwd r.text.bytes = place cwd (fifoPath r.pid) ∧
        r.env.unlinkOk r.text.bytes = true ∧
        p.1.disk.fileAt (place cwd) (fifoPath r.pid) ≠ none) := by
  refine ⟨finish (place cwd) r s p, by rw [handleClient, h, Option.map_some], ?_⟩
  unfold finish
  split_ifs with hcrash
  · refine iff_of_false (fun heq => ?_) (fun hp => hp.1 hcrash)
    have hmem : place cwd (fifoPath r.pid) ∈ removed p.1.disk p.1.disk := by
      rw [heq]
      exact Set.mem_singleton _
    exact hmem.1 hmem.2
  · dsimp only
    constructor
    · intro heq
      have hmem : place cwd (fifoPath r.pid) ∈ removed p.1.disk
          (p.1.disk.unlink (place cwd) r.env (cstr (r.left s))) := by
        rw [heq]
        exact Set.mem_singleton _
      obtain ⟨hok, hplace, hfile⟩ := (mem_removed_unlink cwd _ _ _ _).mp hmem
      have htext := (left_place_iff cwd r s).mp hplace.symm
      rw [left_text s htext] at hok hfile
      refine ⟨hcrash, htext, hok, ?_⟩
      rwa [Disk.fileAt, ← htext]
    · rintro ⟨-, htext, hok, hfile⟩
      ext l
      rw [mem_removed_unlink, left_text s htext, Disk.fileAt, htext]
      simp only [hok, true_and, Set.mem_singleton_iff]
      exact and_iff_left hfile

def served (text : CStr) (h : text.bytes.length < FifoSession.maxLine) : Serving where
  pid := 7
  text := text
  short := h
  array := []
  env := ⟨0, [], [], no_chunks, 0, true, fun _ => true⟩

/-- The files `a` of the server directory and nothing else. -/
def home : State Loc where
  server := []
  disk := ⟨⟨fun l => if l = [ascii "srv", ascii "a"] then some 0 else none, 1, []⟩,
    fun _ => some []⟩
  table := fun _ => ⟨[], 0, 0, 0, 0⟩
  numFiles := 0
  alive := true

def unread : Serving := served (literal "/tmp/7") (by decide +kernel)

theorem own_removal_unread : ∃ u, handleClient (place [ascii "srv"]) unread home = some u ∧
    removed (home.disk.mkfifo (place [ascii "srv"]) (fifoPath 7)) u.1.disk =
      {place [ascii "srv"] (fifoPath 7)} := by
  obtain ⟨u, hu, hiff⟩ := own_removal_iff [ascii "srv"] unread home
    ({ home with disk := home.disk.mkfifo (place [ascii "srv"]) (fifoPath 7) }, none) rfl
  refine ⟨u, hu, hiff.mpr ⟨nofun, ?_, rfl, ?_⟩⟩ <;> decide

def strayText : Serving := served (literal "a") (by decide +kernel)

/-- The invalid request `a` removes the file `a` and leaves the FIFO. -/
theorem invalid_removes : dispatch strayText.buffer = .invalid ∧
    ∃ u, handleClient (place [ascii "srv"]) strayText home = some u ∧
      home.disk.fileAt (place [ascii "srv"]) (ascii "a") = some 0 ∧
      u.1.disk.fileAt (place [ascii "srv"]) (ascii "a") = none ∧
      u.1.disk.fileAt (place [ascii "srv"]) (fifoPath 7) ≠ none := by
  refine ⟨by decide, _, rfl, ?_, ?_, ?_⟩ <;> decide

end CSE344.RequestUnlink
