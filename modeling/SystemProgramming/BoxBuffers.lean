import SystemProgramming.BoxCuts
import SystemProgramming.TransitionRun

/-!
# The fixed arrays of the BibakBOX server

The stores of `handleClient` and `writeLog` with the array they go to. The
receive buffer leaves no room for a terminator when `recv` fills it; of the
three paths only the client directory is formatted with a bound, and the other
two are built on top of it.
-/

set_option autoImplicit false

namespace CSE344.BoxBuffers
open CString BoxServer TransitionRun

inductive Target where
  | buffer
  | clientDir
  | filePath
  | logFile
  deriving DecidableEq, Repr

/-- `buffer[BUFFER_SIZE]`, `clientDir[1028]`, `filePath[1200]`, `logFile[BUFFER_SIZE]` -/
def Target.size : Target → ℕ
  | .buffer => 1024
  | .clientDir => 1028
  | .filePath => 1200
  | .logFile => 1024

/-- A store whose last byte goes to `index`. -/
structure Store where
  target : Target
  index : ℕ
  deriving DecidableEq, Repr

def Store.InRange (st : Store) : Prop := st.index < st.target.size

instance Store.InRange.decidable (st : Store) : Decidable st.InRange :=
  inferInstanceAs (Decidable (_ < _))

/-- `buffer[numBytes] = '\0'` -/
def terminator (block : Bytes) : Store := ⟨.buffer, block.length⟩

/-- A string formatted into an array, with its NUL. -/
def formatted (target : Target) (text : Bytes) : Store := ⟨target, text.length⟩

def logStores (s : Conn) : List Store :=
  [formatted .logFile (joinPath s.clientDir (ascii "logfile.txt"))]

def pathStores (filename : Option Bytes) (s : Conn) : List Store :=
  [formatted .filePath (joinPath s.clientDir (printed filename))]

/-- The stores of the branch that the operation selects. -/
def performStores (o : Outcome) (operation filename : Option Bytes) (s : Conn) : List Store :=
  match operation with
  | none => []
  | some op =>
    if op = ascii "upload" then []
    else if op = ascii "delete" then
      pathStores filename s ++ if o.removeOk then logStores s else []
    else if op = ascii "update" then pathStores filename s
    else []

/-- A message of the command loop; behind a terminator out of range nothing is defined. -/
def commandStores (r : Recv) (s : Conn) : List Store :=
  terminator r.block ::
    if bufferSize ≤ r.block.length then []
    else
      let op := strtok colon (terminated r.block s.buffer) 0
      let file := strtok colon op.mem op.save
      performStores r.outcome (op.start.map (cstrAt file.mem)) (file.start.map (cstrAt file.mem)) s

/-- What is stored for a block that `recv` returns, the bytes of the block aside. -/
def recvStores (cfg : Config) (r : Recv) (s : Conn) : List Store :=
  match s.mode with
  | .hello =>
    if r.block = [] then []
    else [terminator r.block,
      formatted .clientDir (snprintf 1028 (joinPath cfg.directory (cstr r.block)))]
  | .command => if r.block = [] then [] else commandStores r s
  | .transfer _ _ => if r.block = [] then logStores s else []
  | _ => []

/-- A block with the listing that the first one brings about. -/
def turn (cfg : Config) (r : Recv) (s : Conn) : Option Conn := some (listed (onRecv cfg r s))

theorem turn_serve (cfg : Config) (rs : List Recv) (s : Conn) :
    run (turn cfg) rs s = some (serve cfg rs s) := by
  induction rs generalizing s with
  | nil => rfl
  | cons r rs ih => exact ih (listed (onRecv cfg r s))

/-- The length of the client directory that the first message makes. -/
def dirLength (directory hello : Bytes) : ℕ := min 1027 (directory.length+1+(cstr hello).length)

/-- What a request may be long when the client directory has `n` bytes. -/
def ShortRequest (n : ℕ) (o : Outcome) : Option Bytes × Option Bytes → Prop
  | (none, _) => True
  | (some op, filename) =>
    (op = ascii "delete" ∨ op = ascii "update" → n+1+(printed filename).length < 1200) ∧
      (op = ascii "delete" → o.removeOk = true → n+12 < 1024)

/-- The block fits where it is received: a message of the command loop with its
terminator and its paths, the end of a transfer with the path of its log. -/
def Short (n : ℕ) (r : Recv) (s : Conn) : Prop :=
  match s.mode with
  | .command => r.block.length < 1024 ∧ ShortRequest n r.outcome (tokens (cstr r.block))
  | .transfer _ _ => r.block = [] → n+12 < 1024
  | _ => True

section Lengths

theorem formatted_path (n : ℕ) (s : Conn) (h : s.clientDir.length = n) (filename : Option Bytes) :
    (∀ st ∈ pathStores filename s, st.InRange) ↔ n+1+(printed filename).length < 1200 := by
  simp only [pathStores, List.forall_mem_singleton, Store.InRange, formatted, Target.size,
    joinPath, List.length_append, h]
  rfl

theorem formatted_log (n : ℕ) (s : Conn) (h : s.clientDir.length = n) :
    (∀ st ∈ logStores s, st.InRange) ↔ n+12 < 1024 := by
  simp only [logStores, List.forall_mem_singleton, Store.InRange, formatted, Target.size,
    joinPath, List.length_append, h]
  rfl

theorem performStores_iff (n : ℕ) (o : Outcome) (operation filename : Option Bytes) (s : Conn)
    (h : s.clientDir.length = n) :
    (∀ st ∈ performStores o operation filename s, st.InRange) ↔
      ShortRequest n o (operation, filename) := by
  have hpath := formatted_path n s h filename
  have hlog := formatted_log n s h
  cases operation with
  | none => simp [performStores, ShortRequest]
  | some op =>
    rw [performStores, ShortRequest]
    split_ifs with hup hdel hremove hupdate
    · have hd : ascii "upload" ≠ ascii "delete" := by decide
      have hu : ascii "upload" ≠ ascii "update" := by decide
      simp [hup, hd, hu]
    · rw [List.forall_mem_append, hpath, hlog]
      simp [hdel, hremove]
    · rw [List.append_nil, hpath]
      simp [hdel, hremove]
    · have hd : ascii "update" ≠ ascii "delete" := by decide
      rw [hpath]
      simp [hupdate, hd]
    · simp [hdel, hupdate]

theorem commandStores_iff (n : ℕ) (r : Recv) (s : Conn) (h : s.clientDir.length = n) :
    (∀ st ∈ commandStores r s, st.InRange) ↔
      r.block.length < 1024 ∧ ShortRequest n r.outcome (tokens (cstr r.block)) := by
  have hpair := strtok_pair (terminated r.block s.buffer)
  rw [cstrAt_terminated] at hpair
  rw [commandStores, List.forall_mem_cons]
  apply and_congr_right
  intro hterminator
  have hlen : ¬ bufferSize ≤ r.block.length := Nat.not_le.mpr hterminator
  rw [if_neg hlen, ← hpair]
  exact performStores_iff n r.outcome _ _ s h

theorem recvStores_iff (cfg : Config) (n : ℕ) (r : Recv) (s : Conn) (hmode : s.mode ≠ .hello)
    (h : s.clientDir.length = n ∨ s.mode = .closed ∨ s.mode = .undefined) :
    (∀ st ∈ recvStores cfg r s, st.InRange) ↔ Short n r s := by
  unfold recvStores Short
  cases hm : s.mode with
  | hello => exact absurd hm hmode
  | listing rest => simp
  | closed => simp
  | undefined => simp
  | transfer path p =>
    have hdir : s.clientDir.length = n := by simpa [hm] using h
    dsimp only
    split_ifs with hend
    · rw [formatted_log n s hdir]
      simp [hend]
    · simp [hend]
  | command =>
    have hdir : s.clientDir.length = n := by simpa [hm] using h
    dsimp only
    split_ifs with hend
    · simp [hend, ShortRequest, tokens, nextToken, cstr]
    · exact commandStores_iff n r s hdir

end Lengths

section Runs

variable (cfg : Config)

/-- The directory that the first message settled on, while the connection is served. -/
def Settled (n : ℕ) (s : Conn) : Prop :=
  s.mode ≠ .hello ∧ (s.clientDir.length = n ∨ s.mode = .closed ∨ s.mode = .undefined)

theorem settled_turn (n : ℕ) (r : Recv) (s t : Conn) (hs : Settled n s)
    (h : turn cfg r s = some t) : Settled n t := by
  cases h
  obtain ⟨hdir, hmode⟩ := BoxCuts.onRecv_clientDir cfg r s hs.1
  refine ⟨hmode, ?_⟩
  rcases hs.2 with hlen | hclosed | hundefined
  · exact .inl (by rw [hdir, hlen])
  · exact .inr (.inl (by simp [onRecv, listed, hclosed]))
  · exact .inr (.inr (by simp [onRecv, listed, hundefined]))

theorem hello_settled (r : Recv) (s : Conn) (hs : s.mode = .hello) :
    Settled (dirLength cfg.directory r.block) (listed (onRecv cfg r s)) := by
  have hfirst : onRecv cfg r s = receiveHello cfg r s := by simp only [onRecv, hs]
  rw [hfirst, receiveHello]
  split_ifs with hend hlen
  · exact ⟨by simp [listed], .inr (.inl rfl)⟩
  · exact ⟨by simp [listed], .inr (.inr rfl)⟩
  · refine ⟨by simp [listed], .inl ?_⟩
    simp only [listed, cstrAt_terminated, snprintf, joinPath, List.length_take, List.length_append,
      dirLength]
    rfl

theorem hello_stores (r : Recv) (s : Conn) (hs : s.mode = .hello) :
    (∀ st ∈ recvStores cfg r s, st.InRange) ↔ r.block.length < 1024 := by
  simp only [recvStores, hs]
  split_ifs with hend
  · simp [hend]
  · have hdir : (formatted .clientDir
        (snprintf 1028 (joinPath cfg.directory (cstr r.block)))).InRange := by
      show ((joinPath cfg.directory (cstr r.block)).take 1027).length < 1028
      rw [List.length_take]
      omega
    rw [List.forall_mem_cons, List.forall_mem_singleton]
    exact and_iff_left hdir

/-- The stores of a connection are all in range if and only if its first
message leaves room for the terminator, and what follows is short enough for
the client directory that this message makes. -/
theorem stores_in_range_iff (r : Recv) (rs : List Recv) (buffer : Bytes)
    (files : Bytes → Option Bytes) :
    (∀ st ∈ outputs (turn cfg) (recvStores cfg) (r::rs) (accepted buffer files), st.InRange) ↔
      r.block.length < 1024 ∧
        Meets (turn cfg) (Short (dirLength cfg.directory r.block)) rs
          (listed (onRecv cfg r (accepted buffer files))) := by
  have hsettled := hello_settled cfg r (accepted buffer files) rfl
  rw [outputs_forall, Meets, hello_stores cfg r (accepted buffer files) rfl]
  apply and_congr_right
  intro _
  exact meets_congr (turn cfg) (fun r s => ∀ st ∈ recvStores cfg r s, st.InRange)
    (Short (dirLength cfg.directory r.block)) (Settled (dirLength cfg.directory r.block))
    (fun a s t hs h => settled_turn cfg _ a s t hs h)
    (fun a s hs => recvStores_iff cfg _ a s hs.1 hs.2) rs _ hsettled

end Runs

def srv : Config := ⟨ascii "srv", fun _ => none⟩

/-- A first message of 1024 bytes. -/
theorem full_hello_overflows :
    ∃ st ∈ outputs (turn srv) (recvStores srv)
        [⟨List.replicate 1024 97, ⟨true, true, true, []⟩⟩]
        (accepted (List.replicate 1024 0) (fun _ => none)),
      st = ⟨.buffer, 1024⟩ ∧ ¬ st.InRange :=
  ⟨⟨.buffer, 1024⟩, by decide +kernel, rfl, by decide⟩

end CSE344.BoxBuffers
