import SystemProgramming.BoxClient
import SystemProgramming.Scanf

/-!
# Which entries a pass of `synchronize` sends

The number that the server sends is stored as the client's time and the time
of the local file as the server's, so a file that is there already is sent if
the server has the later copy.
-/

set_option autoImplicit false

namespace CSE344.BoxAges
open CString BoxClient

/-- A server that has copies of some names and answers every request: the time
of a copy, and the text sent for a name without one. -/
structure Server where
  time : Bytes → Option ℤ
  other : Bytes → Bytes
  long : ∀ name t, time name = some t → -2^63 ≤ t ∧ t < 2^63
  ne_nil : ∀ name, other name ≠ []
  short : ∀ name, (other name).length < bufferSize
  absent : ∀ name, saysExists (other name) = false

def Server.visit (server : Server) (e : Entry) : Visit where
  entry := e
  checkReply := some (match server.time e.name.bytes with
    | none => server.other e.name.bytes
    | some _ => ascii "exists")
  stampReply := (server.time e.name.bytes).map Scanf.print

/-- `sendFile` is called for the entry of the visit. -/
def Visit.calls (v : Visit) : Bool :=
  match v.checkReply with
  | none => false
  | some reply =>
    if saysExists reply then
      match v.stampReply with
      | none => false
      | some stamp => isNewer stamp v.entry.mtime
    else true

def passCalls (clientDir : CStr) : List Visit → List Entry
  | [] => []
  | v::vs =>
    if isDot v.entry.name.bytes then passCalls clientDir vs
    else (if Visit.calls v then [v.entry] else []) ++
      if (v.requests clientDir).2 then [] else passCalls clientDir vs

/-- The entry is to be sent: there is no copy, or an older one. -/
def Server.wants (server : Server) (e : Entry) : Bool :=
  !isDot e.name.bytes &&
    match server.time e.name.bytes with
    | none => true
    | some t => t < e.mtime

def uploads (request : List Bytes) : Bool := request.head? = some Header.upload.bytes

section Requests

variable (clientDir : CStr)

theorem visit_uploads (v : Visit) : (v.requests clientDir).1.filter uploads =
    if Visit.calls v then v.entry.send clientDir else [] := by
  have hsend : (v.entry.send clientDir).filter uploads = v.entry.send clientDir := by
    unfold Entry.send sendFile
    cases v.entry.file with
    | none => rfl
    | some content => rfl
  have hask (h : Header) (hh : h ≠ .upload) : uploads (request h v.entry.name) = false := by
    cases h <;> first | exact absurd rfl hh | rfl
  have hcheck := hask .check (by decide)
  have hstamp := hask .timestamp (by decide)
  cases hreply : v.checkReply with
  | none => simp [Visit.requests, Visit.calls, hreply, hcheck]
  | some reply =>
    cases hexists : saysExists reply with
    | false => simp [Visit.requests, Visit.calls, hreply, hexists, hcheck, hsend]
    | true =>
      cases htime : v.stampReply with
      | none => simp [Visit.requests, Visit.calls, hreply, hexists, htime, hcheck, hstamp]
      | some stamp =>
        simp only [Visit.requests, Visit.calls, hreply, hexists, htime, if_true]
        split_ifs <;> simp [hcheck, hstamp, hsend]

theorem pass_uploads (vs : List Visit) : (passRequests clientDir vs).filter uploads =
    (passCalls clientDir vs).flatMap (Entry.send clientDir) := by
  induction vs with
  | nil => rfl
  | cons v vs ih =>
    rw [passRequests, passCalls]
    by_cases hdot : isDot v.entry.name.bytes = true
    · rw [if_pos hdot, if_pos hdot, ih]
    · rw [if_neg hdot, if_neg hdot, List.filter_append, visit_uploads, List.flatMap_append]
      congr 1
      · split_ifs <;> simp
      · split_ifs
        · rfl
        · exact ih

end Requests

section Ages

variable (clientDir : CStr) (server : Server)

/-- What one visit does: the comparison is the wrong way round. -/
theorem visit_calls (e : Entry) :
    ((server.visit e).requests clientDir).2 = false ∧ Visit.calls (server.visit e) =
      match server.time e.name.bytes with
      | none => true
      | some t => decide (e.mtime < t) := by
  unfold Visit.requests Visit.calls Server.visit
  dsimp only
  cases htime : server.time e.name.bytes with
  | none =>
    dsimp only
    simp [server.absent]
  | some t =>
    have hexists : saysExists (ascii "exists") = true := by decide
    have hlong : strtol (cstr (Scanf.print t)) = t := by
      have hend : ∀ b ∈ ([] : Bytes).head?, isDigit b = false := by simp
      have hprint := Scanf.strtol_print (server.long _ t htime) hend
      rwa [cstr_of_noNul (Scanf.noNul_print t), ← List.append_nil (Scanf.print t)]
    simp [hexists, isNewer, hlong]

theorem passCalls_eq (entries : List Entry) :
    passCalls clientDir (entries.map server.visit) = entries.filter (fun e =>
      !isDot e.name.bytes &&
        match server.time e.name.bytes with
        | none => true
        | some t => decide (e.mtime < t)) := by
  induction entries with
  | nil => rfl
  | cons e es ih =>
    obtain ⟨hgoes, hcalls⟩ := visit_calls clientDir server e
    have hentry : (server.visit e).entry = e := rfl
    rw [List.map_cons, passCalls, hgoes, hcalls, hentry, ih, List.filter_cons]
    by_cases hdot : isDot e.name.bytes = true
    · simp [hdot]
    · rw [if_neg hdot]
      rw [Bool.not_eq_true] at hdot
      rw [hdot]
      cases server.time e.name.bytes with
      | none => rfl
      | some t =>
        by_cases hlt : e.mtime < t <;> simp [hlt]

theorem filter_eq_iff {α : Type*} (l : List α) (p q : α → Bool) :
    l.filter p = l.filter q ↔ ∀ x ∈ l, p x = q x := by
  constructor
  · intro h x hx
    have hmem : x ∈ l.filter p ↔ x ∈ l.filter q := by rw [h]
    simp only [List.mem_filter, hx, true_and] at hmem
    exact Bool.eq_iff_iff.mpr hmem
  · intro h
    exact List.filter_congr h

/-- A pass sends what it should just if every copy that the server has is as
old as the local file. -/
theorem ages_iff (entries : List Entry) :
    passCalls clientDir (entries.map server.visit) = entries.filter server.wants ↔
      ∀ e ∈ entries, isDot e.name.bytes = false → ∀ t, server.time e.name.bytes = some t →
        e.mtime = t := by
  rw [passCalls_eq, filter_eq_iff]
  apply forall₂_congr
  intro e _
  unfold Server.wants
  cases hdot : isDot e.name.bytes with
  | true => simp
  | false =>
    cases server.time e.name.bytes with
    | none => simp
    | some t =>
      simp only [Bool.not_false, Bool.true_and, Option.some.injEq, forall_const, forall_eq',
        decide_eq_decide]
      omega

end Ages

/-- A server whose copy of every name is of time `t`. -/
def copies (t : ℤ) (h : -2^63 ≤ t ∧ t < 2^63) : Server where
  time := fun _ => some t
  other := fun _ => ascii "missing"
  long := by
    intro name t' ht
    cases ht
    exact h
  ne_nil := fun _ => by decide +kernel
  short := fun _ => by decide +kernel
  absent := fun _ => by decide +kernel

def entryA (mtime : ℤ) : Entry := ⟨literal "a", some (ascii "x"), mtime⟩

/-- The older of two copies is sent, and the newer one is not. -/
theorem older_sent :
    (copies 2 (by decide)).wants (entryA 1) = false ∧
    passCalls (literal "d") ([entryA 1].map (copies 2 (by decide)).visit) = [entryA 1] ∧
    (copies 1 (by decide)).wants (entryA 2) = true ∧
    passCalls (literal "d") ([entryA 2].map (copies 1 (by decide)).visit) = [] := by
  decide

end CSE344.BoxAges
