import Mathlib.Data.Nat.Find
import SystemProgramming.BoxClient

/-!
# The synchronize thread when the server is gone

The calls that the thread makes on its socket, in order, with what each
`recv` returned. A failing `recv` breaks out of the loop over the entries
only; the loop over the passes ends at an `opendir` that fails. So the thread
goes on to ask for the entries of later passes, unless these find nothing to
ask for.
-/

set_option autoImplicit false

namespace CSE344.BoxGone
open CString BoxClient

/-- `none` stands for the results 0 and -1 of `recv`. `release` is what comes
after the loop: `close(serverSocket)` and `free(arg)`. -/
inductive Event where
  | send (b : Bytes)
  | recv (reply : Option Bytes)
  | release
  deriving DecidableEq, Repr

def Event.onSocket : Event → Bool
  | .send _ => true
  | .recv _ => true
  | .release => false

def fileEvents (clientDir : CStr) (e : Entry) : List Event :=
  (e.send clientDir).flatten.map Event.send

/-- The exchange about one entry. -/
def visitEvents (clientDir : CStr) (v : Visit) : List Event :=
  (request .check v.entry.name).map Event.send ++ Event.recv v.checkReply ::
    match v.checkReply with
    | none => []
    | some reply =>
      if saysExists reply then
        (request .timestamp v.entry.name).map Event.send ++ Event.recv v.stampReply ::
          match v.stampReply with
          | none => []
          | some stamp =>
            if isNewer stamp v.entry.mtime then fileEvents clientDir v.entry else []
      else fileEvents clientDir v.entry

/-- Whether a `recv` of the exchange fails, which breaks the loop over the entries. -/
def visitLost (v : Visit) : Bool :=
  match v.checkReply with
  | none => true
  | some reply => saysExists reply && v.stampReply.isNone

/-- One pass of the `while (1)` loop, over what `readdir` gives in it. -/
def passEvents (clientDir : CStr) : List Visit → List Event
  | [] => []
  | v::vs =>
    if isDot v.entry.name.bytes then passEvents clientDir vs
    else visitEvents clientDir v ++ if visitLost v then [] else passEvents clientDir vs

/-- Whether a `recv` of the pass fails. -/
def passLost : List Visit → Bool
  | [] => false
  | v::vs => if isDot v.entry.name.bytes then passLost vs else visitLost v || passLost vs

/-- The next `n` passes from the `k`-th on, as far as `opendir` succeeds. -/
def loopEvents (clientDir : CStr) (dirs : ℕ → Option (List Visit)) : ℕ → ℕ → List Event
  | _, 0 => []
  | k, n+1 => match dirs k with
    | none => [.release]
    | some vs => passEvents clientDir vs ++ loopEvents clientDir dirs (k+1) n

/-- What `synchronize` does up to its `n`-th pass. -/
def trace (clientDir : CStr) (listing : List CStr) (dirs : ℕ → Option (List Visit)) (n : ℕ) :
    List Event :=
  (hello clientDir listing).map Event.send ++ loopEvents clientDir dirs 0 n

/-- After a `recv` that fails the thread leaves the socket alone, and comes to its cleanup. -/
def StopsWhenGone (clientDir : CStr) (listing : List CStr) (dirs : ℕ → Option (List Visit)) :
    Prop :=
  ∀ n before after, trace clientDir listing dirs n = before ++ Event.recv none :: after →
    (∀ e ∈ after, e.onSocket = false) ∧ ∃ m, .release ∈ trace clientDir listing dirs m

/-- Nothing to ask for. -/
def Idle (vs : List Visit) : Prop := ∀ v ∈ vs, isDot v.entry.name.bytes = true

/-- The loop comes to its `k`-th pass. -/
def Begun (dirs : ℕ → Option (List Visit)) (k : ℕ) : Prop := ∀ j < k, dirs j ≠ none

/-- After a pass with a failing `recv`, an `opendir` fails before a directory with
an entry is found. -/
def LeavesWhenGone (dirs : ℕ → Option (List Visit)) : Prop :=
  ∀ k vs, Begun dirs k → dirs k = some vs → passLost vs = true →
    ∃ n, k < n ∧ dirs n = none ∧ ∀ j, k < j → j < n → ∃ ws, dirs j = some ws ∧ Idle ws

def sentBlock : Event → Option Bytes
  | .send b => some b
  | _ => none

section Events

variable (clientDir : CStr)

theorem sent_recv (reply : Option Bytes) (es : List Event) :
    (Event.recv reply :: es).filterMap sentBlock = es.filterMap sentBlock := rfl

theorem sent_map (bs : List Bytes) : (bs.map Event.send).filterMap sentBlock = bs := by
  induction bs with
  | nil => rfl
  | cons b bs ih => simpa [sentBlock] using ih

theorem visitLost_requests (v : Visit) : visitLost v = (v.requests clientDir).2 := by
  unfold visitLost Visit.requests
  cases v.checkReply with
  | none => rfl
  | some reply =>
    cases hexists : saysExists reply with
    | false => simp [hexists]
    | true => cases hstamp : v.stampReply <;> simp [hexists]

theorem visitEvents_requests (v : Visit) :
    (visitEvents clientDir v).filterMap sentBlock = (v.requests clientDir).1.flatten := by
  unfold visitEvents Visit.requests
  cases v.checkReply with
  | none => rw [List.filterMap_append, sent_map, sent_recv]; simp
  | some reply =>
    cases hexists : saysExists reply with
    | false =>
      simp only [hexists, Bool.false_eq_true, if_false, List.filterMap_append, sent_map, sent_recv,
        fileEvents, List.flatten_cons]
    | true =>
      cases v.stampReply with
      | none =>
        simp only [hexists, if_true, List.filterMap_append, sent_map, sent_recv]
        simp
      | some stamp =>
        cases hnewer : isNewer stamp v.entry.mtime with
        | false =>
          simp only [hexists, hnewer, Bool.false_eq_true, if_true, if_false, sent_recv,
            List.filterMap_append, sent_map]
          simp
        | true =>
          simp only [hexists, hnewer, if_true, List.filterMap_append, sent_map, sent_recv,
            fileEvents]
          simp

theorem passEvents_requests (vs : List Visit) :
    (passEvents clientDir vs).filterMap sentBlock = (passRequests clientDir vs).flatten := by
  induction vs with
  | nil => rfl
  | cons v vs ih =>
    rw [passEvents, passRequests, visitLost_requests clientDir]
    split_ifs
    · exact ih
    · rw [List.append_nil, List.append_nil, visitEvents_requests]
    · rw [List.filterMap_append, List.flatten_append, visitEvents_requests, ih]

theorem lost_notMem_sends (bs : List Bytes) : Event.recv none ∉ bs.map Event.send := by simp

theorem visitEvents_lost (v : Visit) :
    (visitLost v = false → .recv none ∉ visitEvents clientDir v) ∧
    (visitLost v = true → ∃ before, .recv none ∉ before ∧
      visitEvents clientDir v = before ++ [Event.recv none]) := by
  unfold visitLost visitEvents
  cases v.checkReply with
  | none => exact ⟨by simp, fun _ => ⟨_, lost_notMem_sends _, rfl⟩⟩
  | some reply =>
    cases hexists : saysExists reply with
    | false => simp [hexists, fileEvents]
    | true =>
      cases v.stampReply with
      | none =>
        refine ⟨fun h => by simp [hexists] at h, fun _ => ?_⟩
        refine ⟨(request .check v.entry.name).map Event.send ++
          .recv (some reply) :: (request .timestamp v.entry.name).map Event.send, by simp, ?_⟩
        simp [hexists]
      | some stamp =>
        cases hnewer : isNewer stamp v.entry.mtime <;> simp [hexists, hnewer, fileEvents]

theorem passEvents_lost (vs : List Visit) :
    (passLost vs = false → .recv none ∉ passEvents clientDir vs) ∧
    (passLost vs = true → ∃ before, .recv none ∉ before ∧
      passEvents clientDir vs = before ++ [Event.recv none]) := by
  induction vs with
  | nil => simp [passLost, passEvents]
  | cons v vs ih =>
    obtain ⟨hkept, hlost⟩ := visitEvents_lost clientDir v
    rw [passLost, passEvents]
    split_ifs with hdot hv
    · exact ih
    · rw [hv, Bool.true_or, List.append_nil]
      exact ⟨by simp, fun _ => hlost hv⟩
    · rw [Bool.not_eq_true] at hv
      rw [hv, Bool.false_or]
      refine ⟨fun h => ?_, fun h => ?_⟩
      · rw [List.mem_append, not_or]
        exact ⟨hkept hv, ih.1 h⟩
      · obtain ⟨before, hnone, heq⟩ := ih.2 h
        refine ⟨visitEvents clientDir v ++ before, ?_, by rw [heq, List.append_assoc]⟩
        rw [List.mem_append, not_or]
        exact ⟨hkept hv, hnone⟩

theorem release_notMem_visit (v : Visit) : .release ∉ visitEvents clientDir v := by
  unfold visitEvents
  cases v.checkReply with
  | none => simp
  | some reply =>
    cases hexists : saysExists reply with
    | false => simp [hexists, fileEvents]
    | true =>
      cases v.stampReply with
      | none => simp [hexists]
      | some stamp => cases hnewer : isNewer stamp v.entry.mtime <;>
          simp [hexists, hnewer, fileEvents]

theorem release_notMem_pass (vs : List Visit) : .release ∉ passEvents clientDir vs := by
  induction vs with
  | nil => simp [passEvents]
  | cons v vs ih =>
    rw [passEvents]
    split_ifs
    · exact ih
    · rw [List.append_nil]
      exact release_notMem_visit clientDir v
    · rw [List.mem_append, not_or]
      exact ⟨release_notMem_visit clientDir v, ih⟩

theorem passEvents_idle {vs : List Visit} (h : Idle vs) : passEvents clientDir vs = [] := by
  induction vs with
  | nil => rfl
  | cons v vs ih =>
    rw [passEvents, if_pos (h v List.mem_cons_self)]
    exact ih (fun w hw => h w (List.mem_cons_of_mem _ hw))

theorem passEvents_busy {vs : List Visit} (h : ¬ Idle vs) :
    ∃ e ∈ passEvents clientDir vs, e.onSocket = true := by
  induction vs with
  | nil => exact absurd (fun v hv => by cases hv) h
  | cons v vs ih =>
    rw [passEvents]
    by_cases hdot : isDot v.entry.name.bytes = true
    · rw [if_pos hdot]
      apply ih
      intro hidle
      apply h
      intro w hw
      rcases List.mem_cons.mp hw with rfl | hw
      · exact hdot
      · exact hidle w hw
    · rw [if_neg hdot]
      exact ⟨.send Header.check.bytes,
        List.mem_append_left _ (by simp [visitEvents, request]), rfl⟩

end Events

section Split

variable {α : Type*}

theorem append_split {xs ys before after : List α} {e : α} (h : xs ++ ys = before ++ e :: after) :
    (∃ rest, xs = before ++ e :: rest ∧ after = rest ++ ys) ∨
      ∃ rest, before = xs ++ rest ∧ ys = rest ++ e :: after := by
  rcases List.append_eq_append_iff.mp h with ⟨rest, hb, hy⟩ | ⟨rest, hx, hy⟩
  · exact .inr ⟨rest, hb, hy⟩
  · cases rest with
    | nil => exact .inr ⟨[], by simpa using hx.symm, by simpa using hy.symm⟩
    | cons d rest =>
      rw [List.cons_append, List.cons.injEq] at hy
      obtain ⟨rfl, hafter⟩ := hy
      exact .inl ⟨rest, hx, hafter⟩

theorem last_split {xs before after : List α} {e : α} (he : e ∉ xs)
    (h : xs ++ [e] = before ++ e :: after) : after = [] := by
  rcases append_split h with ⟨rest, hxs, -⟩ | ⟨rest, -, hlast⟩
  · exact absurd (by simp [hxs]) he
  · cases rest with
    | nil => simpa using hlast.symm
    | cons d rest => simp at hlast

end Split

section Loop

variable {clientDir : CStr} {dirs : ℕ → Option (List Visit)}

theorem loopEvents_none {k : ℕ} (h : dirs k = none) (n : ℕ) :
    loopEvents clientDir dirs k (n+1) = [.release] := by rw [loopEvents, h]

theorem loopEvents_some {k : ℕ} {vs : List Visit} (h : dirs k = some vs) (n : ℕ) :
    loopEvents clientDir dirs k (n+1) =
      passEvents clientDir vs ++ loopEvents clientDir dirs (k+1) n := by rw [loopEvents, h]

theorem loopEvents_add (i n s : ℕ) (h : ∀ j, s ≤ j → j < s+i → dirs j ≠ none) :
    loopEvents clientDir dirs s (i+n) =
      loopEvents clientDir dirs s i ++ loopEvents clientDir dirs (s+i) n := by
  induction i generalizing s with
  | zero => simp [loopEvents]
  | succ i ih =>
    obtain ⟨vs, hvs⟩ := Option.ne_none_iff_exists'.mp (h s (le_refl s) (by omega))
    rw [show i+1+n = (i+n)+1 by omega, loopEvents_some hvs, loopEvents_some hvs,
      ih (s+1) (fun j hj hlt => h j (by omega) (by omega)), List.append_assoc,
      show s+(i+1) = s+1+i by omega]

/-- What comes after a failing `recv` is the passes after its own. -/
theorem loopEvents_lost (n k : ℕ) (before after : List Event)
    (h : loopEvents clientDir dirs k n = before ++ Event.recv none :: after) :
    ∃ i vs m, k ≤ i ∧ (∀ j, k ≤ j → j < i → dirs j ≠ none) ∧ dirs i = some vs ∧
      passLost vs = true ∧ after = loopEvents clientDir dirs (i+1) m := by
  induction n generalizing k before with
  | zero => simp [loopEvents] at h
  | succ n ih =>
    cases hk : dirs k with
    | none =>
      rw [loopEvents_none hk] at h
      have := congrArg (fun es => decide (Event.recv none ∈ es)) h
      simp at this
    | some vs =>
      rw [loopEvents_some hk] at h
      rcases append_split h with ⟨rest, hpass, hafter⟩ | ⟨rest, -, hloop⟩
      · cases hlost : passLost vs with
        | false => exact absurd (by simp [hpass]) ((passEvents_lost clientDir vs).1 hlost)
        | true =>
          obtain ⟨pre, hpre, heq⟩ := (passEvents_lost clientDir vs).2 hlost
          rw [heq] at hpass
          rw [last_split hpre hpass, List.nil_append] at hafter
          exact ⟨k, vs, n, le_refl k, fun j hj hlt => absurd hlt (by omega), hk, hlost, hafter⟩
      · obtain ⟨i, ws, m, hki, hbegun, hi, hlost, hafter⟩ := ih (k+1) rest hloop
        refine ⟨i, ws, m, by omega, fun j hj hlt => ?_, hi, hlost, hafter⟩
        rcases Nat.eq_or_lt_of_le hj with rfl | hj
        · simp [hk]
        · exact hbegun j hj hlt

theorem loopEvents_idle {m : ℕ} (hm : dirs m = none) (n k : ℕ) (hk : k ≤ m)
    (hidle : ∀ j, k ≤ j → j < m → ∃ ws, dirs j = some ws ∧ Idle ws) :
    ∀ e ∈ loopEvents clientDir dirs k n, e.onSocket = false := by
  induction n generalizing k with
  | zero => simp [loopEvents]
  | succ n ih =>
    rcases Nat.eq_or_lt_of_le hk with rfl | hlt
    · rw [loopEvents_none hm]
      simp [Event.onSocket]
    · obtain ⟨ws, hws, hnothing⟩ := hidle k (le_refl k) hlt
      rw [loopEvents_some hws, passEvents_idle clientDir hnothing, List.nil_append]
      exact ih (k+1) hlt (fun j hj hjm => hidle j (by omega) hjm)

theorem release_iff (n k : ℕ) :
    .release ∈ loopEvents clientDir dirs k n ↔ ∃ j, k ≤ j ∧ j < k+n ∧ dirs j = none := by
  induction n generalizing k with
  | zero =>
    simp only [loopEvents, List.not_mem_nil, false_iff]
    rintro ⟨j, hj, hlt, -⟩
    omega
  | succ n ih =>
    cases hk : dirs k with
    | none =>
      rw [loopEvents_none hk]
      exact iff_of_true List.mem_cons_self ⟨k, le_refl k, by omega, hk⟩
    | some vs =>
      rw [loopEvents_some hk, List.mem_append, ih]
      constructor
      · rintro (hpass | ⟨j, hj, hlt, hnone⟩)
        · exact absurd hpass (release_notMem_pass clientDir vs)
        · exact ⟨j, by omega, by omega, hnone⟩
      · rintro ⟨j, hj, hlt, hnone⟩
        refine .inr ⟨j, ?_, by omega, hnone⟩
        rcases Nat.eq_or_lt_of_le hj with rfl | hj
        · rw [hk] at hnone
          cases hnone
        · exact hj

end Loop

section Thread

variable (clientDir : CStr) (listing : List CStr) (dirs : ℕ → Option (List Visit))

theorem trace_split {n : ℕ} {before after : List Event}
    (h : trace clientDir listing dirs n = before ++ Event.recv none :: after) :
    ∃ rest, before = (hello clientDir listing).map Event.send ++ rest ∧
      loopEvents clientDir dirs 0 n = rest ++ Event.recv none :: after := by
  rcases append_split h with ⟨rest, hsends, -⟩ | hloop
  · exact absurd (by simp [hsends]) (lost_notMem_sends (hello clientDir listing))
  · exact hloop

theorem release_trace (n : ℕ) :
    .release ∈ trace clientDir listing dirs n ↔ ∃ j < n, dirs j = none := by
  rw [trace, List.mem_append, release_iff]
  simp

theorem leaves_of_stops (h : StopsWhenGone clientDir listing dirs) : LeavesWhenGone dirs := by
  intro k vs hbegun hk hlost
  obtain ⟨pre, -, hpass⟩ := (passEvents_lost clientDir vs).2 hlost
  -- the trace up to pass `k+m`, cut behind the failing `recv`
  have hcut (m : ℕ) : trace clientDir listing dirs (k+(m+1)) =
      ((hello clientDir listing).map Event.send ++ (loopEvents clientDir dirs 0 k ++ pre)) ++
        .recv none :: loopEvents clientDir dirs (k+1) m := by
    rw [trace, loopEvents_add k (m+1) 0 (fun j _ hj => hbegun j (by omega)), Nat.zero_add,
      loopEvents_some hk, hpass]
    simp
  obtain ⟨m, hrelease⟩ := (h _ _ _ (hcut 0)).2
  have hends : ∃ j, dirs j = none := by
    obtain ⟨j, -, hj⟩ := (release_trace clientDir listing dirs m).mp hrelease
    exact ⟨j, hj⟩
  refine ⟨Nat.find hends, ?_, Nat.find_spec hends, ?_⟩
  · rcases lt_trichotomy k (Nat.find hends) with hlt | heq | hgt
    · exact hlt
    · have hnone := Nat.find_spec hends
      rw [← heq, hk] at hnone
      cases hnone
    · exact absurd (Nat.find_spec hends) (hbegun _ hgt)
  · intro j hkj hj
    obtain ⟨ws, hws⟩ := Option.ne_none_iff_exists'.mp (Nat.find_min hends hj)
    refine ⟨ws, hws, ?_⟩
    by_contra hbusy
    obtain ⟨e, he, hsocket⟩ := passEvents_busy clientDir hbusy
    have hquiet := (h _ _ _ (hcut ((j-(k+1))+1))).1 e (by
      rw [loopEvents_add (j-(k+1)) 1 (k+1) (fun i _ hi => Nat.find_min hends (by omega)),
        show k+1+(j-(k+1)) = j by omega, loopEvents_some hws]
      exact List.mem_append_right _ (List.mem_append_left _ he))
    rw [hquiet] at hsocket
    cases hsocket

theorem stops_of_leaves (h : LeavesWhenGone dirs) : StopsWhenGone clientDir listing dirs := by
  intro n before after htrace
  obtain ⟨rest, -, hloop⟩ := trace_split clientDir listing dirs htrace
  obtain ⟨k, vs, m, -, hbegun, hk, hlost, rfl⟩ := loopEvents_lost n 0 rest after hloop
  obtain ⟨end_, hlt, hnone, hidle⟩ := h k vs (fun j hj => hbegun j (Nat.zero_le j) hj) hk hlost
  refine ⟨loopEvents_idle hnone m (k+1) hlt (fun j hj hlt => hidle j (by omega) hlt), end_+1, ?_⟩
  exact (release_trace clientDir listing dirs (end_+1)).mpr ⟨end_, by omega, hnone⟩

/-- The thread stops at a failing `recv` if and only if the passes that follow
find nothing to ask for, and one of them finds no directory. -/
theorem stops_when_gone_iff : StopsWhenGone clientDir listing dirs ↔ LeavesWhenGone dirs :=
  ⟨leaves_of_stops clientDir listing dirs, stops_of_leaves clientDir listing dirs⟩

/-- One file, and no answer in either pass; then the directory is gone. -/
def goneDirs (k : ℕ) : Option (List Visit) :=
  if k < 2 then some [⟨⟨literal "a", none, 0⟩, none, none⟩] else none

/-- The second pass asks again. -/
theorem gone_asks_again : ¬ StopsWhenGone (literal "d") [] goneDirs := by
  intro h
  have := (h 2 [.send (ascii "d"), .send (ascii "check:"), .send (ascii "a")]
    [.send (ascii "check:"), .send (ascii "a"), .recv none] (by decide)).1
    (.send (ascii "check:")) (by decide)
  cases this

end Thread

end CSE344.BoxGone
