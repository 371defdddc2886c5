import SystemProgramming.BiboEnds
import SystemProgramming.Sightings

/-!
# Reading a file that is appended to

Where every `writeT` to a file appends and nobody uploads it, `readF` needs no
lock: whatever the writers are doing, a reader of the whole file gets all that
was there before, perhaps with a piece of a text at the end, and never less than
it got the last time.
-/

set_option autoImplicit false

namespace CSE344.BiboAppends
open CString Stdio BiboServer BiboThreads BiboAlone BiboInvariant BiboIsolation BiboEnds
open Sightings TransitionRun

variable {Loc : Type*}

/-- A command that adds to the file at most, and no NUL. -/
def Appends (disk : Disk Loc) (l : Loc) : Command → Prop
  | .readF _ _ => True
  | .writeT w => disk.denotes w.path = l → w.line = 0 ∧ 0 ∉ w.text
  | .upload path => disk.denotes path ≠ l

/-- What is there stays, and more may come. -/
def Grown (a b : Option Bytes) : Prop := ∀ c, a = some c → ∃ d, b = some d ∧ c <+: d

instance : Std.Refl Grown := ⟨fun _ c h => ⟨c, h, List.prefix_refl c⟩⟩

instance : IsTrans (Option Bytes) Grown :=
  ⟨fun _ _ _ hab hbc c hc => by
    obtain ⟨d, hd, hcd⟩ := hab c hc
    obtain ⟨e, he, hde⟩ := hbc d hd
    exact ⟨e, he, hcd.trans hde⟩⟩

def Clean (file : Option Bytes) : Prop := ∀ c, file = some c → 0 ∉ c

/-- The reply to a `readF` of the whole file when the file is so. -/
def shown : Option Bytes → Bytes
  | none => ascii "File not found"
  | some c => ascii "File content:\n" ++ c

/-- What a thread knows about the file. -/
def At (disk : Disk Loc) (l : Loc) (file : Option Bytes) : Pc → Prop
  | .reading q _ pos lines => disk.denotes q = l →
      lines.flatten.length = pos ∧ Grown (some lines.flatten) file
  | .creating w => disk.denotes w.path = l → file = none
  | .appending w pos => disk.denotes w.path = l → ∃ c, file = some c ∧ pos = c.length
  | .flushing w pos out => disk.denotes w.path = l →
      (∃ c, file = some c ∧ pos = c.length) ∧ 0 ∉ out
  | .scanning w _ _ => disk.denotes w.path ≠ l
  | .scanClose w _ => disk.denotes w.path ≠ l
  | .truncating w _ => disk.denotes w.path ≠ l
  | _ => True

theorem At.grow {disk : Disk Loc} {l : Loc} {pc : Pc} {file later : Option Bytes}
    (h : At disk l file pc) (hgrown : Grown file later) (hout : ¬ Holds pc) :
    At disk l later pc := by
  cases pc <;> try exact (hout trivial).elim
  case reading q line pos lines =>
    intro hq
    obtain ⟨hpos, hread⟩ := h hq
    exact ⟨hpos, IsTrans.trans _ _ _ hread hgrown⟩
  all_goals exact h

theorem at_toFlush {disk : Disk Loc} {l : Loc} {file : Option Bytes} {w : Write} {pos : ℕ}
    {out : Bytes} (hpos : disk.denotes w.path = l → ∃ c, file = some c ∧ pos = c.length)
    (hout : disk.denotes w.path = l → 0 ∉ out) : At disk l file (toFlush w pos out) := by
  unfold toFlush
  split_ifs
  · trivial
  · exact fun hw => ⟨hpos hw, hout hw⟩

theorem all_read {disk : Disk Loc} {l : Loc} {path : Bytes} {line : ℤ} {pos : ℕ}
    {lines : List Bytes} {content : Bytes} (hclean : Clean (some content))
    (hat : At disk l (some content) (.reading path line pos lines)) (hl : disk.denotes path = l)
    (hend : content.drop pos = []) : (lines.map cstr).flatten = content := by
  obtain ⟨hpos, hprefix⟩ := hat hl
  obtain ⟨d, hd, hpre⟩ := hprefix _ rfl
  obtain rfl := Option.some.inj hd
  have hall : lines.flatten = content := by
    refine hpre.eq_of_length_le ?_
    rw [hpos]
    exact List.drop_eq_nil_iff.mp hend
  have hlines : lines.map cstr = lines := by
    refine (List.map_congr_left (fun l hl => cstr_of_noNul (fun h0 => ?_))).trans (List.map_id _)
    exact hclean content rfl (hall ▸ List.mem_flatten_of_mem hl h0)
  rw [hlines, hall]

variable [DecidableEq Loc]

/-- A `readF` of the whole file, under whatever name. -/
def readsWhole (disk : Disk Loc) (l : Loc) : Command → Bool
  | .readF path line => disk.denotes path = l ∧ line = 0
  | _ => false

/-- The replies to these. -/
def wholeReads (disk : Disk Loc) (l : Loc) (es : List Event) : List Bytes :=
  es.filterMap (fun e => if readsWhole disk l e.command then e.reply else none)

theorem wholeReads_append (disk : Disk Loc) (l : Loc) (es rest : List Event) :
    wholeReads disk l (es ++ rest) = wholeReads disk l es ++ wholeReads disk l rest :=
  List.filterMap_append

section Calls

variable {disk : Disk Loc} {l : Loc} {f : Files Loc} {pc : Pc} {r : Files Loc × Pc}

theorem wholeReads_changes {pc : Pc} (h : ∀ path line reply, pc ≠ .readClose path line reply) :
    wholeReads disk l (pending pc) = [] := by
  cases pc with
  | readClose path line reply => exact absurd rfl (h path line reply)
  | _ => simp [pending, wholeReads, readsWhole]

theorem wholeReads_toFlush (w : Write) (pos : ℕ) (out : Bytes) :
    wholeReads disk l (pending (toFlush w pos out)) = [] := by
  unfold toFlush
  split_ifs <;> simp [pending, wholeReads, readsWhole]

/-- A call that adds to the file at most, and makes known what is in it. -/
structure Adds (disk : Disk Loc) (l : Loc) (f : Files Loc) (pc : Pc) (r : Files Loc × Pc) :
    Prop where
  grown : Grown (f l) (r.1 l)
  clean : Clean (r.1 l)
  own : r.1 l = f l ∨ Holds pc
  at_ : At disk l (r.1 l) r.2
  seen : wholeReads disk l (pending r.2) = [] ∨ wholeReads disk l (pending r.2) = [shown (f l)]

theorem adds_same (hclean : Clean (f l)) (hfile : r.1 l = f l) (hat : At disk l (f l) r.2)
    (hseen : wholeReads disk l (pending r.2) = [] ∨
      wholeReads disk l (pending r.2) = [shown (f l)]) : Adds disk l f pc r := by
  refine ⟨?_, ?_, .inl hfile, ?_, hseen⟩ <;> rw [hfile]
  · exact Std.Refl.refl (f l)
  · exact hclean
  · exact hat

theorem adds_next (hclean : Clean (f l)) (hfile : r.1 l = f l) (hat : At disk l (f l) r.2)
    (hnext : ∀ path line reply, r.2 ≠ .readClose path line reply) : Adds disk l f pc r :=
  adds_same hclean hfile hat (.inl (wholeReads_changes hnext))

theorem adds_flush {k : ℕ} {w : Write} {pos : ℕ} {out : Bytes} (hclean : Clean (f l))
    (hpos : disk.denotes w.path = l → ∃ c, f l = some c ∧ pos = c.length)
    (hout : disk.denotes w.path = l → 0 ∉ out) (hholds : Holds pc)
    (h : flush disk k f w pos out = some r) : Adds disk l f pc r := by
  obtain ⟨⟨-, hk⟩, rfl⟩ := guarded_iff.mp h
  by_cases hw : disk.denotes w.path = l
  · obtain ⟨c, hc, rfl⟩ := hpos hw
    have hfile : Function.update f (disk.denotes w.path)
        (some (writeAt ((f (disk.denotes w.path)).getD []) c.length (out.take k))) l =
          some (c ++ out.take k) := by
      rw [hw, hc, Function.update_self, Option.getD_some, writeAt_end]
    refine ⟨?_, ?_, .inr hholds, at_toFlush (fun _ => ⟨_, hfile, ?_⟩) (fun _ => ?_),
      .inl (wholeReads_toFlush _ _ _)⟩
    · intro d hd
      obtain rfl := Option.some.inj (hc.symm.trans hd)
      exact ⟨_, hfile, List.prefix_append c _⟩
    · intro d hd
      obtain rfl := Option.some.inj (hfile.symm.trans hd)
      rw [List.mem_append, not_or]
      exact ⟨hclean c hc, fun h0 => hout hw (List.mem_of_mem_take h0)⟩
    · rw [List.length_append, List.length_take, Nat.min_eq_left hk]
    · exact fun h0 => hout hw (List.mem_of_mem_drop h0)
  · exact adds_same hclean (Function.update_of_ne (Ne.symm hw) _ _)
      (at_toFlush (fun h => absurd h hw) (fun h => absurd h hw)) (.inl (wholeReads_toFlush _ _ _))

theorem adds_create {w : Write} {out : Bytes} (hclean : Clean (f l)) (hholds : Holds pc)
    (hnone : disk.denotes w.path = l → f l = none ∧ 0 ∉ out) (h : create disk f w out = some r) :
    Adds disk l f pc r := by
  obtain ⟨-, rfl⟩ := guarded_iff.mp h
  by_cases hw : disk.denotes w.path = l
  · obtain ⟨hmissing, hout⟩ := hnone hw
    have hfile : Function.update f (disk.denotes w.path) (some []) l = some [] := by
      rw [hw, Function.update_self]
    refine ⟨?_, ?_, .inr hholds, at_toFlush (fun _ => ⟨[], hfile, rfl⟩) (fun _ => hout),
      .inl (wholeReads_toFlush _ _ _)⟩
    · intro c hc
      cases hmissing.symm.trans hc
    · intro c hc
      obtain rfl := Option.some.inj (hfile.symm.trans hc)
      exact List.not_mem_nil
  · exact adds_same hclean (Function.update_of_ne (Ne.symm hw) _ _)
      (at_toFlush (fun h => absurd h hw) (fun h => absurd h hw)) (.inl (wholeReads_toFlush _ _ _))

theorem readOpen_adds {k : ℕ} {path : Bytes} {line : ℤ} (hclean : Clean (f l))
    (h : call disk k f (.readOpen path line) = some r) :
    Adds disk l f (.readOpen path line) r := by
  simp only [call] at h
  cases hf : f (disk.denotes path) <;> rw [hf] at h <;> cases h
  · refine adds_same hclean rfl trivial ?_
    by_cases hread : disk.denotes path = l ∧ line = 0
    · obtain ⟨rfl, rfl⟩ := hread
      right
      simp [pending, wholeReads, readsWhole, shown, hf]
    · left
      simpa [pending, wholeReads, readsWhole] using hread
  · refine adds_same hclean rfl (fun hq => ⟨rfl, fun c hc => ⟨_, hq ▸ hf, ?_⟩⟩) (.inl rfl)
    obtain rfl := Option.some.inj hc
    exact List.nil_prefix

theorem readLine_adds {path : Bytes} {line : ℤ} {pos : ℕ} {lines : List Bytes} {content : Bytes}
    (hclean : Clean (f l)) (hat : At disk l (f l) (.reading path line pos lines))
    (hc : f (disk.denotes path) = some content) :
    Adds disk l f (.reading path line pos lines) (f, readLine path line pos lines content) := by
  unfold readLine
  split
  · next hend =>
    refine adds_same hclean rfl trivial ?_
    by_cases hread : disk.denotes path = l ∧ line = 0
    · obtain ⟨rfl, rfl⟩ := hread
      rw [hc] at hclean hat
      have hall := all_read hclean hat rfl (fgets_none hend)
      right
      rw [hc]
      simp [pending, wholeReads, readsWhole, readText, shown, hall]
    · left
      simpa [pending, wholeReads, readsWhole] using hread
  · next l' rest hl =>
    split_ifs with hline
    · refine adds_same hclean rfl trivial (.inl ?_)
      have hne : line ≠ 0 := by omega
      simp [pending, wholeReads, readsWhole, hne]
    · refine adds_same hclean rfl (fun hq => ?_) (.inl rfl)
      obtain ⟨hpos, hprefix⟩ := hat hq
      subst hq
      obtain ⟨d, hd, hpre⟩ := hprefix _ rfl
      obtain rfl := Option.some.inj (hc.symm.trans hd)
      have hflatten : (lines ++ [l']).flatten = lines.flatten ++ l' := by simp
      rw [hflatten]
      refine ⟨by rw [List.length_append, hpos], fun c' hc' => ⟨content, hc, ?_⟩⟩
      obtain rfl := Option.some.inj hc'
      rw [List.prefix_iff_eq_take.mp hpre, hpos]
      exact ⟨rest, by rw [List.append_assoc, fgets_append hl, List.take_append_drop]⟩

theorem seeking_adds {k : ℕ} {w : Write} (hclean : Clean (f l))
    (h : call disk k f (.seeking w) = some r) : Adds disk l f (.seeking w) r := by
  obtain ⟨content, hc, rfl⟩ := Option.map_eq_some_iff.mp h
  refine adds_next hclean rfl ?_ ?_ <;> dsimp only <;> split_ifs
  · trivial
  · exact fun hw => ⟨content, hw ▸ hc, rfl⟩
  · exact fun _ _ _ hpc => by cases hpc
  · exact fun _ _ _ hpc => by cases hpc

theorem scanLine_adds {w : Write} {pos : ℕ} {lines : List Bytes} {content : Bytes} {pc' : Pc}
    (hclean : Clean (f l)) (hw : disk.denotes w.path ≠ l)
    (h : scanLine w pos lines content = some pc') : Adds disk l f pc (f, pc') := by
  unfold scanLine at h
  split at h
  · obtain ⟨r, -, rfl⟩ := Option.map_eq_some_iff.mp h
    cases r with
    | none => exact adds_next hclean rfl trivial (fun _ _ _ hpc => by cases hpc)
    | some new => exact adds_next hclean rfl hw (fun _ _ _ hpc => by cases hpc)
  · obtain ⟨-, rfl⟩ := guarded_iff.mp h
    exact adds_next hclean rfl hw (fun _ _ _ hpc => by cases hpc)

/-- What a call does to the file and what it learns of it. -/
theorem call_adds {k : ℕ} (happends : ∀ c, current pc = some c → Appends disk l c)
    (hclean : Clean (f l)) (hat : At disk l (f l) pc) (h : call disk k f pc = some r) :
    Adds disk l f pc r := by
  cases pc with
  | readOpen path line => exact readOpen_adds hclean h
  | reading path line pos lines =>
    obtain ⟨content, hc, rfl⟩ := Option.map_eq_some_iff.mp h
    exact readLine_adds hclean hat hc
  | opening w =>
    simp only [call] at h
    cases hf : f (disk.denotes w.path) <;> rw [hf] at h <;> cases h
    · exact adds_next hclean rfl (fun hw => hw ▸ hf) (fun _ _ _ hpc => by cases hpc)
    · exact adds_next hclean rfl trivial (fun _ _ _ hpc => by cases hpc)
  | creating w =>
    exact adds_create hclean trivial (fun hw => ⟨hat hw, (happends _ rfl hw).2⟩) h
  | firstClose w =>
    cases h
    exact adds_next hclean rfl trivial (fun _ _ _ hpc => by cases hpc)
  | reopening w =>
    simp only [call] at h
    split_ifs at h with hopen hline <;> cases h
    · exact adds_next hclean rfl trivial (fun _ _ _ hpc => by cases hpc)
    · exact adds_next hclean rfl (fun hw => hline (happends _ rfl hw).1)
        (fun _ _ _ hpc => by cases hpc)
  | seeking w => exact seeking_adds hclean h
  | appending w pos =>
    exact adds_flush hclean hat (fun hw => (happends _ rfl hw).2) trivial h
  | scanning w pos lines =>
    obtain ⟨content, -, h⟩ := Option.bind_eq_some_iff.mp h
    obtain ⟨pc, hscan, rfl⟩ := Option.map_eq_some_iff.mp h
    exact scanLine_adds hclean hat hscan
  | scanClose w out =>
    cases h
    exact adds_next hclean rfl hat (fun _ _ _ hpc => by cases hpc)
  | truncating w out => exact adds_create hclean trivial (fun hw => absurd hw hat) h
  | flushing w pos out =>
    exact adds_flush hclean (fun hw => (hat hw).1) (fun hw => (hat hw).2) trivial h
  | writeClose w =>
    cases h
    exact adds_next hclean rfl trivial (fun _ _ _ hpc => by cases hpc)
  | uploadOpen path =>
    simp only [call] at h
    split_ifs at h <;> cases h
    · exact adds_next hclean (Function.update_of_ne (Ne.symm (happends _ rfl)) _ _) trivial
        (fun _ _ _ hpc => by cases hpc)
    · exact adds_next hclean rfl trivial (fun _ _ _ hpc => by cases hpc)
  | _ => cases h

theorem call_unread {k : ℕ} (h : call disk k f pc = some r) :
    wholeReads disk l (pending pc) = [] := by
  refine wholeReads_changes (fun path line reply hpc => ?_)
  rw [hpc] at h
  cases h

end Calls

section Runs

variable {disk : Disk Loc} {n : ℕ} {l : Loc} {first : Option Bytes} {s t : State Loc n}

/-- The file has only grown, and each thread has seen it grow. -/
structure Growing (disk : Disk Loc) (l : Loc) (first : Option Bytes) (s : State Loc n) : Prop where
  steady : Steady disk s
  clean : Clean (s.files l)
  knows : ∀ j, At disk l (s.files l) (s.threads j).pc
  seen : ∀ j, ∃ cs, wholeReads disk l (log s j) = cs.map shown ∧ Ordered Grown first cs (s.files l)

theorem growing_start (programs : Fin n → List Command) (files : Files Loc)
    (hclean : Clean (files l)) :
    Growing disk l (files l) (start programs files) :=
  ⟨steady_start programs files, hclean, fun _ => trivial, fun _ => ⟨[], rfl, .start _⟩⟩

theorem Growing.kept (hs : Growing disk l first s) (i : Fin n) (ht : Steady disk t)
    (hother : ∀ j, j ≠ i → t.threads j = s.threads j) (hfiles : t.files l = s.files l)
    (hat : At disk l (s.files l) (t.threads i).pc) (hlog : log t i = log s i) :
    Growing disk l first t := by
  refine ⟨ht, hfiles ▸ hs.clean, fun j => ?_, fun j => ?_⟩ <;> rw [hfiles] <;> by_cases hj : j = i
  · exact hj ▸ hat
  · rw [hother j hj]
    exact hs.knows j
  · subst hj
    rw [hlog]
    exact hs.seen j
  · rw [show log t j = log s j by rw [log, log, hother j hj]]
    exact hs.seen j

theorem growing_move {programs : Fin n → List Command}
    (happends : ∀ i, ∀ c ∈ programs i, Appends disk l c) {a : Act n} (hs : Growing disk l first s)
    (hfollows : ∀ j, Follows (programs j) (s.threads j)) (hm : Move disk a s t) :
    Growing disk l first t := by
  have ht := steady_move hs.steady hm
  have hother := fun j (hj : j ≠ a.thread) => move_other hm hj
  cases hm with
  | begin c cs hpc htodo =>
    refine hs.kept a.thread ht hother rfl ?_ ?_
    · rw [setThread_self]
      cases c <;> trivial
    · cases c <;> simp [log, hpc, Command.begin, pending]
  | lock w hpc hfree =>
    refine hs.kept a.thread ht hother rfl ?_ ?_
    · simp [State.setPc, At]
    · simp [log, State.setPc, hpc, pending]
  | unlock w hpc =>
    refine hs.kept a.thread ht hother rfl ?_ ?_
    · simp [State.finish, Thread.finish, At]
    · simp [log, State.finish, Thread.finish, pending]
  | readClose path line reply hpc =>
    refine hs.kept a.thread ht hother rfl ?_ ?_
    · simp [State.finish, Thread.finish, At]
    · simp [log, State.finish, Thread.finish, pending]
  | uploadClose path hpc =>
    refine hs.kept a.thread ht hother rfl ?_ ?_
    · simp [State.finish, Thread.finish, At]
    · simp [log, State.finish, Thread.finish, pending]
  | call c r hc hr =>
    have hadds := call_adds (fun d hd => happends _ d ((hfollows _).current_mem hd)) hs.clean
      (hs.knows a.thread) hr
    refine ⟨ht, hadds.clean, fun j => ?_, fun j => ?_⟩ <;> by_cases hj : j = a.thread
    · subst hj
      rw [State.setPc, setThread_self]
      exact hadds.at_
    · rw [hother j hj]
      -- another thread that minds what happens to the file would hold the mutex
      rcases hadds.own with hsame | hholds
      · show At disk l (r.1 l) _
        rw [hsame]
        exact hs.knows j
      · refine (hs.knows j).grow hadds.grown (fun hj' => hj ?_)
        have hmutex := (hs.steady.owner j).mpr hj'
        rw [(hs.steady.owner a.thread).mpr hholds] at hmutex
        exact (Option.some.inj hmutex).symm
    · subst hj
      obtain ⟨cs, hreads, hseen⟩ := hs.seen a.thread
      rw [log, wholeReads_append, call_unread hr, List.append_nil] at hreads
      have hlog : log ({ s with files := r.1 }.setPc a.thread r.2) a.thread =
          (s.threads a.thread).done ++ pending r.2 := by simp [log, State.setPc]
      rw [hlog, wholeReads_append, hreads]
      rcases hadds.seen with hnone | hone
      · exact ⟨cs, by rw [hnone, List.append_nil], hseen.grow hadds.grown⟩
      · refine ⟨cs ++ [s.files l], ?_, hseen.look.grow hadds.grown⟩
        rw [hone, List.map_append, List.map_singleton]
    · obtain ⟨cs, hreads, hseen⟩ := hs.seen j
      refine ⟨cs, ?_, hseen.grow hadds.grown⟩
      rwa [log, hother j hj]

/-- However the readers and the writers take turns, a reply to a `readF` of the
whole file begins with all that the file was at the start and with all that the
thread has read of it before, and the file still begins with what the reply says. -/
theorem reads_grow (disk : Disk Loc) (programs : Fin n → List Command) (files : Files Loc) (l : Loc)
    (happends : ∀ i, ∀ c ∈ programs i, Appends disk l c) (hclean : Clean (files l))
    (as : List (Act n)) (t : State Loc n)
    (h : run (step disk) as (start programs files) = some t) (i : Fin n) :
    ∃ cs, wholeReads disk l (log t i) = cs.map shown ∧
      Ordered Grown (files l) cs (t.files l) := by
  have hinv := run_invariant (step disk) (fun s => Growing disk l (files l) s ∧
      ∀ j, Follows (programs j) (s.threads j))
    (fun a s u hs hu => ⟨growing_move happends hs.1 hs.2 (step_move hu),
      follows_step hs.2 (step_move hu)⟩)
    as (start programs files) t ⟨growing_start programs files hclean, fun _ => rfl⟩ h
  exact hinv.1.seen i

end Runs

/-- One client appends a line while the other reads the file twice. -/
def appendAndRead : Fin 2 → List Command
  | 0 => [.writeT ⟨ascii "f", 0, ascii "b\n"⟩]
  | 1 => [.readF (ascii "f") 0, .readF (ascii "./f") 0]

/-- The first time half of the line is there. -/
def halfALine {n : ℕ} (writer reader : Fin n) : List (Act n) :=
  List.replicate 6 ⟨writer, 0⟩ ++ [⟨writer, 1⟩] ++ List.replicate 6 ⟨reader, 0⟩ ++
    [⟨writer, 1⟩, ⟨writer, 0⟩, ⟨writer, 0⟩] ++ List.replicate 6 ⟨reader, 0⟩

theorem reads_grow_half_a_line : ∃ t, run (step BiboSerial.directory) (halfALine 0 1)
      (start appendAndRead BiboSerial.oneLine) = some t ∧
    wholeReads BiboSerial.directory (ascii "f") (log t 1) =
      [shown (some (ascii "a\nb")), shown (some (ascii "a\nb\n"))] ∧
    ∃ cs, wholeReads BiboSerial.directory (ascii "f") (log t 1) = cs.map shown ∧
      Ordered Grown (BiboSerial.oneLine (ascii "f")) cs (t.files (ascii "f")) := by
  have happends : ∀ i, ∀ c ∈ appendAndRead i, Appends BiboSerial.directory (ascii "f") c := by
    intro i c hc
    rcases (by omega : i = 0 ∨ i = 1) with rfl | rfl <;>
      simp only [appendAndRead, List.mem_cons, List.not_mem_nil, or_false] at hc
    · subst hc
      exact fun _ => ⟨rfl, by decide⟩
    · rcases hc with rfl | rfl <;> trivial
  have hclean : Clean (BiboSerial.oneLine (ascii "f")) := by
    intro c hc
    obtain rfl := Option.some.inj hc
    decide
  exact ⟨_, rfl, by decide, reads_grow BiboSerial.directory appendAndRead BiboSerial.oneLine
    (ascii "f") happends hclean (halfALine 0 1) _ rfl 1⟩

end CSE344.BiboAppends
