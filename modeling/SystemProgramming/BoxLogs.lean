import SystemProgramming.BoxParser

/-!
# The name that is logged after a transfer

The name is a pointer into the receive buffer, and the chunks of the body are
received into the same buffer. What is printed and logged in the end is what
stands at the pointer then.
-/

set_option autoImplicit false

namespace CSE344.BoxLogs
open CString BoxServer BoxTransfer BoxParser

def nameStart (text : Bytes) : ℕ := text.length-(filenameOn text).length

def parsed (block buffer : Bytes) : Strtok :=
  strtok colon (strtok colon (terminated block buffer) 0).mem
    (strtok colon (terminated block buffer) 0).save

/-- The buffer after the chunks of a body. -/
def overlaid (chunks : List Bytes) (buffer : Bytes) : Bytes :=
  chunks.foldl (fun buffer chunk => recvInto chunk buffer) buffer

/-- The byte that the last chunk to reach an offset has there. -/
def lastByte : List Bytes → ℕ → Option UInt8
  | [], _ => none
  | chunk::chunks, i => (lastByte chunks i).or chunk[i]?

/-- Whatever is received over the name and its NUL is the same byte. -/
def NameKept (text name : Bytes) (chunks : List Bytes) : Prop :=
  ∀ i ≤ name.length, ∀ b ∈ lastByte chunks (nameStart text+i), (name ++ [0])[i]? = some b

section Buffer

variable {block buffer name : Bytes}

theorem parsed_start (buffer : Bytes) (h : filenameOn (cstr block) ≠ []) :
    (parsed block buffer).start = some (nameStart (cstr block)) := by
  have htext := cstrAt_terminated block buffer
  have hrest : (operationOn (cstr block)).dropWhile (· ∉ colon) ≠ [] := by
    intro hnil
    apply h
    rw [filenameOn, hnil]
    rfl
  have hop : operationOn (cstr block) ≠ [] := by
    intro hnil
    apply hrest
    rw [hnil]
    rfl
  have hfile : filenameOn (cstr block) =
      ((operationOn (cstr block)).dropWhile (· ∉ colon)).tail.dropWhile (· ∈ colon) :=
    dropWhile_tail colon _
  -- what the first call leaves to the second
  have hnext := strtok_rest (m := terminated block buffer) (p := 0) (by rwa [htext])
  rw [htext] at hnext
  change _ = ((operationOn (cstr block)).dropWhile (· ∉ colon)).tail at hnext
  have hsave := strtok_next (m := terminated block buffer) (p := 0) (by rwa [htext])
  rw [htext] at hsave
  rw [parsed, strtok_first, hnext, ← hfile, if_neg h, nameStart, Option.some.injEq]
  have hword := takeWhile_length_add (· ∉ colon) (operationOn (cstr block))
  have hcolons := takeWhile_length_add (· ∈ colon)
    ((operationOn (cstr block)).dropWhile (· ∉ colon)).tail
  rw [← hfile, List.length_tail] at hcolons
  have hpos := List.length_pos_iff.mpr hrest
  have hle : (operationOn (cstr block)).length ≤ (cstr block).length :=
    (List.dropWhile_suffix _).length_le
  rw [operationOn] at *
  omega

theorem parsed_name (block buffer : Bytes) :
    (parsed block buffer).start.map (cstrAt (parsed block buffer).mem) =
      (tokens (cstr block)).2 := by
  have hpair := strtok_pair (terminated block buffer)
  rw [cstrAt_terminated] at hpair
  rw [← hpair]
  rfl

theorem parsed_length (h : block.length ≤ buffer.length) :
    (parsed block buffer).mem.length = buffer.length := by
  rw [parsed, strtok_mem_length, strtok_mem_length, terminated, List.length_set, recvInto,
    List.length_append, List.length_drop]
  omega

theorem recvInto_get (chunk m : Bytes) (i : ℕ) :
    (recvInto chunk m)[i]? = chunk[i]?.or m[i]? := by
  rw [recvInto, List.getElem?_append]
  split_ifs with h
  · rw [List.getElem?_eq_getElem h]
    rfl
  · have hnone : chunk[i]? = none := List.getElem?_eq_none (by omega)
    rw [hnone, Option.none_or, List.getElem?_drop, Nat.add_sub_cancel' (by omega)]

theorem overlaid_get (chunks : List Bytes) (m : Bytes) (i : ℕ) :
    (overlaid chunks m)[i]? = (lastByte chunks i).or m[i]? := by
  induction chunks generalizing m with
  | nil => rfl
  | cons chunk chunks ih =>
    show (overlaid chunks (recvInto chunk m))[i]? = _
    rw [ih, recvInto_get, lastByte, Option.or_assoc]

theorem overlaid_length (chunks : List Bytes) (m : Bytes) :
    m.length ≤ (overlaid chunks m).length := by
  induction chunks generalizing m with
  | nil => exact le_refl _
  | cons chunk chunks ih =>
    apply le_trans _ (ih (recvInto chunk m))
    rw [recvInto, List.length_append, List.length_drop]
    omega

theorem name_fits (hname : (tokens (cstr block)).2 = some name) :
    filenameOn (cstr block) ≠ [] ∧ nameStart (cstr block)+name.length ≤ block.length := by
  rw [tokens_eq] at hname
  dsimp only at hname
  split_ifs at hname with hnil
  cases hname
  refine ⟨hnil, ?_⟩
  have hsuffix : filenameOn (cstr block) <:+ cstr block :=
    (List.dropWhile_suffix _).trans ((List.dropWhile_suffix _).trans (List.dropWhile_suffix _))
  have hle := hsuffix.length_le
  have hword := takeWhile_length_add (· ∉ colon) (filenameOn (cstr block))
  have htext : (cstr block).length ≤ block.length := (List.takeWhile_prefix _).length_le
  rw [nameStart]
  omega

theorem parsed_points (buffer : Bytes) (hname : (tokens (cstr block)).2 = some name) :
    cstrAt (parsed block buffer).mem (nameStart (cstr block)) = name := by
  have hparsed := parsed_name block buffer
  rw [parsed_start buffer (name_fits hname).1, hname] at hparsed
  exact Option.some.inj hparsed

theorem kept_iff {chunks : List Bytes} (hbuffer : buffer.length = bufferSize)
    (hlen : block.length < bufferSize) (hname : (tokens (cstr block)).2 = some name) :
    cstrAt (overlaid chunks (parsed block buffer).mem) (nameStart (cstr block)) = name ↔
      NameKept (cstr block) name chunks := by
  obtain ⟨-, hfits⟩ := name_fits hname
  have hfirst := parsed_points buffer hname
  have h0 : 0 ∉ name := by
    rw [← hfirst]
    exact noNul_cstr _
  have hroom : (parsed block buffer).mem.length = bufferSize := by
    rw [parsed_length (by omega), hbuffer]
  have hlast := overlaid_length chunks (parsed block buffer).mem
  rw [cstrAt_eq_iff h0 (by omega)] at hfirst ⊢
  apply forall₂_congr
  intro i hi
  rw [overlaid_get, ← hfirst i hi]
  cases lastByte chunks (nameStart (cstr block)+i) with
  | none => simp
  | some b => simp [eq_comm]

end Buffer

section Transfer

variable {cfg : Config} {s : Conn} {m last : Recv} {body : List Recv} {op name : Bytes}

theorem serve_chunks (cfg : Config) {path : Bytes} {p : ℕ} (hmode : s.mode = .transfer path p)
    (hbody : ∀ r ∈ body, r.block ≠ []) :
    (serve cfg body s).mode = .transfer path p ∧
      (serve cfg body s).buffer = overlaid (body.map Recv.block) s.buffer ∧
      (serve cfg body s).logged = s.logged ∧ (serve cfg body s).clientDir = s.clientDir := by
  induction body generalizing s with
  | nil => exact ⟨hmode, rfl, rfl, rfl⟩
  | cons r body ih =>
    rw [List.forall_mem_cons] at hbody
    rw [serve_cons, listed_body cfg hmode hbody.1]
    exact ih hmode hbody.2

section Opened

-- a message that asks for a file
variable (hmode : s.mode = .command) (hne : m.block ≠ []) (hlen : m.block.length < bufferSize)
  (htokens : tokens (cstr m.block) = (some op, some name))

include hmode hne hlen htokens

theorem message_performed (cfg : Config) :
    onRecv cfg m s = perform m.outcome (some op) (some (nameStart (cstr m.block))) { s with
      buffer := (parsed m.block s.buffer).mem
      requests := s.requests ++ [⟨m.block, some op, (parsed m.block s.buffer).start.map
        (cstrAt (parsed m.block s.buffer).mem)⟩] } := by
  have hname : (tokens (cstr m.block)).2 = some name := by rw [htokens]
  have hstart := parsed_start s.buffer (name_fits hname).1
  have hoperation : (strtok colon (terminated m.block s.buffer) 0).start.map
      (cstrAt (parsed m.block s.buffer).mem) = some op := by
    have hpair := strtok_pair (terminated m.block s.buffer)
    rw [cstrAt_terminated, htokens] at hpair
    exact congrArg Prod.fst hpair
  rw [← hoperation, ← hstart]
  simp only [onRecv, hmode, receiveCommand, hne, if_false, Nat.not_le.mpr hlen]
  rfl

-- and a file that can be opened
variable (hop : op = ascii "upload" ∨ op = ascii "update") (hopen : m.outcome.fopenOk = true)
  (hremove : op = ascii "update" → m.outcome.removeOk = true)

include hop hopen hremove

/-- A message that opens a target leaves the pointer to its name. -/
theorem message_opens (cfg : Config) :
    (onRecv cfg m s).mode = .transfer name (nameStart (cstr m.block)) ∧
      (onRecv cfg m s).buffer = (parsed m.block s.buffer).mem ∧
      (onRecv cfg m s).logged = s.logged ∧ (onRecv cfg m s).clientDir = s.clientDir := by
  have hname : (tokens (cstr m.block)).2 = some name := by rw [htokens]
  have hpointer := parsed_points s.buffer hname
  rw [message_performed hmode hne hlen htokens cfg, perform]
  rcases hop with rfl | rfl
  · rw [if_pos rfl]
    simp [upload, openTarget, hopen, hpointer]
  · rw [if_neg (by decide), if_neg (by decide), if_pos rfl]
    simp [update, removeFile, openTarget, hopen, hremove rfl, hpointer]

/-- The name that is logged is what stands at the pointer in the end. -/
theorem logged_name (hbody : ∀ r ∈ body, r.block ≠ []) (hlast : last.block = []) :
    (serve cfg (m :: body ++ [last]) s).logged = s.logged ++
      [cstrAt (overlaid (body.map Recv.block) (parsed m.block s.buffer).mem)
        (nameStart (cstr m.block))] := by
  obtain ⟨hopened, hbuffer, hlogged, -⟩ :=
    message_opens hmode hne hlen htokens hop hopen hremove cfg
  have hsame : listed (onRecv cfg m s) = onRecv cfg m s := by simp [listed, hopened]
  rw [List.cons_append, serve_cons, hsame, serve_append]
  obtain ⟨hmode', hbuffer', hlogged', -⟩ := serve_chunks cfg hopened hbody
  rw [hbuffer] at hbuffer'
  rw [hlogged] at hlogged'
  generalize serve cfg body (onRecv cfg m s) = t at *
  have hend : (listed (onRecv cfg last t)).logged =
      t.logged ++ [cstrAt t.buffer (nameStart (cstr m.block))] := by
    simp only [onRecv, hmode', receiveBody, hlast, if_true]
    unfold writeLog
    dsimp only
    split_ifs <;> rfl
  rw [serve_cons]
  exact hend.trans (by rw [hbuffer', hlogged'])

end Opened

/-- The name of the request is logged just if the chunks leave it in the buffer. -/
theorem log_iff (hmode : s.mode = .command) (hbuffer : s.buffer.length = bufferSize)
    (hne : m.block ≠ []) (hlen : m.block.length < bufferSize)
    (htokens : tokens (cstr m.block) = (some op, some name))
    (hop : op = ascii "upload" ∨ op = ascii "update") (hopen : m.outcome.fopenOk = true)
    (hremove : op = ascii "update" → m.outcome.removeOk = true)
    (hbody : ∀ r ∈ body, 1 ≤ r.block.length ∧ r.block.length ≤ bufferSize)
    (hlast : last.block = []) :
    (serve cfg (m :: body ++ [last]) s).logged = s.logged ++ [name] ↔
      NameKept (cstr m.block) name (body.map Recv.block) := by
  have hname : (tokens (cstr m.block)).2 = some name := by rw [htokens]
  rw [logged_name hmode hne hlen htokens hop hopen hremove
    (fun r hr => List.length_pos_iff.mp (hbody r hr).1) hlast, List.append_cancel_left_eq,
    List.cons.injEq, and_iff_left rfl]
  exact kept_iff hbuffer hlen hname

end Transfer

def chunk (b : Bytes) : Recv := ⟨b, ⟨true, true, true, []⟩⟩

/-- A chunk too short to reach the name. -/
theorem log_iff_short :
    (serve ⟨ascii "srv", fun _ => none⟩ (received "upload:f" :: [chunk (ascii "abc")] ++ [chunk []])
      waiting).logged = waiting.logged ++ [ascii "f"] := by
  have htokens : tokens (cstr (received "upload:f").block) =
      (some (ascii "upload"), some (ascii "f")) := by decide
  refine (log_iff rfl (by decide +kernel) (by decide +kernel) (by decide +kernel) htokens
    (Or.inl rfl) rfl (fun _ => rfl) (by decide) rfl).mpr ?_
  intro i hi b hb
  have hnone : ∀ i ≤ (ascii "f").length,
      lastByte [ascii "abc"] (nameStart (cstr (received "upload:f").block)+i) = none := by
    decide
  have hnone' := hnone i hi
  cases hnone'.symm.trans hb

/-- Ten bytes of a body are enough to replace the name. -/
theorem other_name_logged :
    tokens (cstr (received "upload:f").block) = (some (ascii "upload"), some (ascii "f")) ∧
    (serve ⟨ascii "srv", fun _ => none⟩
      (received "upload:f" :: [chunk (ascii "0123456789")] ++ [chunk []]) waiting).logged =
        waiting.logged ++ [ascii "789"] ∧
    waiting.logged ++ [ascii "789"] ≠ waiting.logged ++ [ascii "f"] := by
  decide

end CSE344.BoxLogs
