import SystemProgramming.BoxSync

/-!
# Checks and their replies

`handleClient` answers no request, it only lists the directory once. A client
that never checks an entry is never misled; every other one can take a name
of the listing for the reply to its first check.
-/

set_option autoImplicit false

namespace CSE344.BoxReplies
open CString BoxClient BoxServer SharedWire TransitionRun BoxSync

/-- No pass before a failing `opendir` finds an entry to check. -/
def NothingToCheck (env : Local) : Prop :=
  ∀ n es, (∀ m, m < n → env.pass m ≠ none) → env.pass n = some es →
    ∀ e ∈ es, isDot e.name.bytes = true

/-- The law for one client: whatever the server has and however the two are
scheduled. -/
def Answered (env : Local) : Prop :=
  ∀ (cfg : Config) (buffer : Bytes) (files : Bytes → Option Bytes) (as : List Act) (t : State),
    run (step env cfg) as (start env buffer files) = some t → RepliesMatch t ∧ ¬ Blocked t

/-- What a client that has nothing to check keeps. -/
structure Idle (env : Local) (s : State) : Prop where
  task : awaiting s.client.task = false
  dots : s.client.task = .turn → ∀ e ∈ s.client.entries, isDot e.name.bytes = true
  passes : s.client.task = .turn → ∀ m, m < s.client.passes → env.pass m ≠ none
  replies : s.replies = []

theorem turn_idle (env : Local) (c : Client) (hc : NothingToCheck env) (ht : c.task = .turn)
    (hdots : ∀ e ∈ c.entries, isDot e.name.bytes = true)
    (hpass : ∀ m, m < c.passes → env.pass m ≠ none) :
    (c.turn env).task = .ended ∨
      (c.turn env).task = .turn ∧ (∀ e ∈ (c.turn env).entries, isDot e.name.bytes = true) ∧
        ∀ m, m < (c.turn env).passes → env.pass m ≠ none := by
  unfold Client.turn
  split
  · split
    · exact .inl rfl
    · next es hes =>
      refine .inr ⟨ht, hc c.passes es hpass hes, fun m hm => ?_⟩
      rcases Nat.lt_succ_iff_lt_or_eq.mp hm with hm | rfl
      · exact hpass m hm
      · simp [hes]
  · next e es hes =>
    rw [hes] at hdots
    rw [if_pos (hdots e (by simp))]
    exact .inr ⟨ht, fun d hd => hdots d (by simp [hd]), hpass⟩

theorem step_idle (env : Local) (cfg : Config) (hc : NothingToCheck env) (a : Act) (s t : State)
    (hs : Idle env s) (h : step env cfg a s = some t) : Idle env t := by
  obtain ⟨htask, hdots, hpass, hreplies⟩ := hs
  cases a with
  | send =>
    simp only [step] at h
    split at h <;> cases h
    exact ⟨htask, hdots, hpass, hreplies⟩
  | turn =>
    obtain ⟨⟨-, ht⟩, rfl⟩ := guarded_iff.mp h
    rcases turn_idle env s.client hc ht (hdots ht) (hpass ht) with hend | ⟨hturn, hd, hp⟩
    · exact ⟨by simp [hend, awaiting], by simp [hend], by simp [hend], hreplies⟩
    · exact ⟨by simp [hturn, awaiting], fun _ => hd, fun _ => hp, hreplies⟩
  | clientRecv n => simp [step, htask] at h
  | clientLost => simp [step, htask] at h
  | serverRecv n o =>
    obtain ⟨-, rfl⟩ := guarded_iff.mp h
    exact ⟨htask, hdots, hpass, hreplies⟩
  | serverList =>
    simp only [step] at h
    split at h <;> cases h
    exact ⟨htask, hdots, hpass, hreplies⟩
  | serverEof o =>
    obtain ⟨-, rfl⟩ := guarded_iff.mp h
    exact ⟨htask, hdots, hpass, hreplies⟩

theorem answered_of_idle (env : Local) (hc : NothingToCheck env) : Answered env := by
  intro cfg buffer files as t h
  have hidle : Idle env t := by
    refine run_invariant (step env cfg) (Idle env) (step_idle env cfg hc) as _ t ?_ h
    exact ⟨rfl, fun _ e he => absurd he List.not_mem_nil,
      fun _ m hm => absurd hm m.not_lt_zero, rfl⟩
  constructor
  · intro r hr
    rw [hidle.replies] at hr
    cases hr
  · rintro ⟨-, hawait, -⟩
    rw [hidle.task] at hawait
    cases hawait

section Reaching

variable (env : Local) (cfg : Config)

theorem reaches_sent (s : State) : Reaches (step env cfg) s { s with
    client := { s.client with sends := [] }
    toServer := s.toServer ++ wire s.client.sends } := by
  obtain ⟨⟨sends, task, entries, passes, requests⟩, server, toServer, toClient, replies⟩ := s
  induction sends generalizing toServer with
  | nil =>
    simp only [wire, List.flatMap_nil, List.append_nil]
    exact .refl _ _
  | cons b bs ih =>
    refine .step (a := .send) rfl ?_
    have := ih (toServer ++ onWire b)
    rwa [List.append_assoc] at this

/-- A state of the client between two entries, with nothing sent back yet. -/
structure Walking (k : ℕ) (s : State) : Prop where
  sends : s.client.sends = []
  task : s.client.task = .turn
  passes : s.client.passes = k
  server : s.server.mode = .hello ∧ s.server.sent = []
  toClient : s.toClient = []

/-- The client is about to wait for its first reply, and no byte of it has
been read. -/
structure Checking (s : State) : Prop where
  sends : s.client.sends = []
  task : awaiting s.client.task = true
  server : s.server.mode = .hello ∧ s.server.sent = []
  toServer : s.toServer ≠ []
  toClient : s.toClient = []

theorem reaches_entries (k : ℕ) (s : State) (hs : Walking k s) :
    ∃ t, Reaches (step env cfg) s t ∧
      ((∀ e ∈ s.client.entries, isDot e.name.bytes = true) ∧ Walking k t ∧ t.client.entries = [] ∨
        (∃ e ∈ s.client.entries, isDot e.name.bytes = false) ∧ Checking t) := by
  obtain ⟨⟨sends, task, entries, passes, requests⟩, server, toServer, toClient, replies⟩ := s
  obtain ⟨hsends, htask, hpasses, hserver, hclient⟩ := hs
  dsimp only at hsends htask hpasses hserver hclient
  subst hsends htask hpasses
  induction entries with
  | nil => exact ⟨_, .refl _ _, .inl ⟨by simp, ⟨rfl, rfl, rfl, hserver, hclient⟩, rfl⟩⟩
  | cons e es ih =>
    by_cases hdot : isDot e.name.bytes = true
    · obtain ⟨t, hreach, ht⟩ := ih
      refine ⟨t, .step (a := .turn) (by simp [step, Client.turn, hdot]) hreach, ?_⟩
      rcases ht with ⟨hall, ht⟩ | ⟨⟨d, hd, hdd⟩, ht⟩
      · exact .inl ⟨by simpa [hdot] using hall, ht⟩
      · exact .inr ⟨⟨d, by simp [hd], hdd⟩, ht⟩
    · refine ⟨_, .step (a := .turn) (by simp only [step, and_self, if_true]; rfl)
        (reaches_sent env cfg _), .inr ⟨⟨e, by simp, by simpa using hdot⟩, ?_⟩⟩
      simp only [Client.turn, hdot, Bool.false_eq_true, if_false, Client.ask]
      refine ⟨rfl, rfl, hserver, ?_, hclient⟩
      simp [wire, onWire, request, Header.bytes_ne_nil]

theorem reaches_pass (n : ℕ) (hpass : ∀ m, m < n → env.pass m ≠ none) (s : State)
    (hs : Walking 0 s) (hentries : s.client.entries = []) :
    ∃ t, Reaches (step env cfg) s t ∧ (Walking n t ∧ t.client.entries = [] ∨ Checking t) := by
  induction n with
  | zero => exact ⟨s, .refl _ _, .inl ⟨hs, hentries⟩⟩
  | succ n ih =>
    obtain ⟨t, hreach, ht⟩ := ih (fun m hm => hpass m (by omega))
    rcases ht with ⟨ht, hnil⟩ | ht
    · obtain ⟨es, hes⟩ := Option.ne_none_iff_exists'.mp (hpass n (by omega))
      have hopen : step env cfg .turn t = some { t with
          client := { t.client with entries := es, passes := t.client.passes+1 } } := by
        simp [step, ht.sends, ht.task, Client.turn, hnil, ht.passes, hes]
      obtain ⟨u, hu, hcase⟩ := reaches_entries env cfg (n+1) { t with
          client := { t.client with entries := es, passes := t.client.passes+1 } }
        ⟨ht.sends, ht.task, by rw [← ht.passes], ht.server, ht.toClient⟩
      refine ⟨u, hreach.trans (.step hopen hu), ?_⟩
      rcases hcase with ⟨-, hw⟩ | ⟨-, hc⟩
      · exact .inl hw
      · exact .inr hc
    · exact ⟨t, hreach, .inr ht⟩

end Reaching

theorem reaches_checking (env : Local) (cfg : Config) (buffer : Bytes)
    (files : Bytes → Option Bytes) (h : ¬ NothingToCheck env) :
    ∃ t, Reaches (step env cfg) (start env buffer files) t ∧ Checking t := by
  unfold NothingToCheck at h
  push Not at h
  obtain ⟨n, es, hpass, hes, e, he, hdot⟩ := h
  obtain ⟨t, ht, hcase⟩ := reaches_pass env cfg n hpass { start env buffer files with
      client := { (start env buffer files).client with sends := [] }
      toServer := [] ++ wire (start env buffer files).client.sends }
    ⟨rfl, rfl, rfl, ⟨rfl, rfl⟩, rfl⟩ rfl
  have hstart := (reaches_sent env cfg (start env buffer files)).trans ht
  rcases hcase with ⟨hwalk, hnil⟩ | hcheck
  · have hopen : step env cfg .turn t = some { t with
        client := { t.client with entries := es, passes := t.client.passes+1 } } := by
      simp [step, hwalk.sends, hwalk.task, Client.turn, hnil, hwalk.passes, hes]
    obtain ⟨u, hu, hcase⟩ := reaches_entries env cfg (n+1) { t with
        client := { t.client with entries := es, passes := t.client.passes+1 } }
      ⟨hwalk.sends, hwalk.task, by rw [← hwalk.passes], hwalk.server, hwalk.toClient⟩
    rcases hcase with ⟨hall, -⟩ | ⟨-, hcheck⟩
    · exact absurd (hall e he) hdot
    · exact ⟨u, hstart.trans (.step hopen hu), hcheck⟩
  · exact ⟨t, hstart, hcheck⟩

def someOutcome : Outcome := ⟨true, true, true, []⟩

def oneFile : Config := ⟨ascii "srv", fun _ => some [ascii "x"]⟩

/-- The name of that file is taken for the reply to a check. -/
theorem checking_misled (env : Local) (s : State) (hs : Checking s) :
    ∃ t, Reaches (step env oneFile) s t ∧ ¬ RepliesMatch t := by
  obtain ⟨hsends, htask, ⟨hmode, hsent⟩, hserver, hclient⟩ := hs
  obtain ⟨b, rest, hrest⟩ := List.exists_cons_of_ne_nil hserver
  -- the server reads one byte as the directory name
  obtain ⟨c, hc⟩ : ∃ c, c = onRecv oneFile ⟨[b.2], someOutcome⟩ s.server := ⟨_, rfl⟩
  have hcmode : c.mode = .listing [ascii "x"] := by
    simp [hc, onRecv, hmode, receiveHello, BoxServer.bufferSize, oneFile]
  have hcsent : c.sent = [] := by
    simp [hc, onRecv, hmode, receiveHello, BoxServer.bufferSize, hsent]
  have hread : step env oneFile (.serverRecv 1 someOutcome) s =
      some { s with server := c, toServer := rest, toClient := [] } := by
    simp [step, hmode, receiving, hrest, BoxServer.bufferSize, hclient, newSends, wire, ← hc,
      hcsent]
  -- it lists the one file, and the client reads the first byte of that
  have hlist : step env oneFile .serverList { s with server := c, toServer := rest, toClient := [] }
      = some { s with
        server := synchronizeDirectory c
        toServer := rest
        toClient := [(.listing, 120)] } := by
    have hnew : newSends c (synchronizeDirectory c) .listing = [(.listing, 120)] := by
      simp [newSends, synchronizeDirectory, hcmode, hcsent, isDot, ascii, wire, onWire]
    simp [step, hcmode, hnew]
  have htake : step env oneFile (.clientRecv 1) { s with
      server := synchronizeDirectory c
      toServer := rest
      toClient := [(.listing, 120)] } = some { s with
        client := s.client.receive env [120]
        server := synchronizeDirectory c
        toServer := rest
        toClient := []
        replies := s.replies ++ [⟨s.client.requests, [.listing]⟩] } := by
    simp [step, hsends, htask, BoxClient.bufferSize]
  refine ⟨_, .step hread (.step hlist (.step htake (.refl _ _))), fun h => ?_⟩
  obtain ⟨ks, hks, -⟩ := h ⟨s.client.requests, [.listing]⟩ (by simp) .listing (by simp)
  cases hks

/-- The check protocol holds of a client exactly when it never checks. -/
theorem answered_iff (env : Local) : Answered env ↔ NothingToCheck env := by
  refine ⟨fun h => ?_, answered_of_idle env⟩
  by_contra hc
  obtain ⟨s, hs, hcheck⟩ := reaches_checking env oneFile [] (fun _ => none) hc
  obtain ⟨t, ht, hnot⟩ := checking_misled env s hcheck
  obtain ⟨as, has⟩ := hs.trans ht
  exact hnot (h oneFile [] (fun _ => none) as t has).1

def clientF : Local where
  clientDir := literal "d"
  listing := [literal "f"]
  pass n := if n = 0 then some [⟨literal "f", some [], 0⟩] else none

/-- With a file on the server its name is taken for the reply, without one
the client waits for ever. -/
theorem check_not_answered :
    (∃ as t, run (step clientF oneFile) as (start clientF [] (fun _ => none)) = some t ∧
      t.replies = [⟨1, [.listing]⟩]) ∧
    (∃ as t, run (step clientF ⟨ascii "srv", fun _ => some []⟩) as
      (start clientF [] (fun _ => none)) = some t ∧ Blocked t) ∧
    ¬ Answered clientF := by
  have hmisled : ∃ t, run (step clientF oneFile) [.send, .serverRecv 1 someOutcome, .serverList,
      .serverList, .send, .turn, .turn, .send, .send, .clientRecv 1]
      (start clientF [] (fun _ => none)) = some t ∧ t.replies = [⟨1, [.listing]⟩] :=
    ⟨_, rfl, by decide⟩
  have hblocked : ∃ t, run (step clientF ⟨ascii "srv", fun _ => some []⟩) [.send,
      .serverRecv 1 someOutcome, .serverList, .send, .turn, .turn, .send, .send,
      .serverRecv 8 someOutcome] (start clientF [] (fun _ => none)) = some t ∧ Blocked t :=
    ⟨_, rfl, by decide, by decide, by decide, by decide, by decide⟩
  refine ⟨⟨_, hmisled⟩, ⟨_, hblocked⟩, fun h => ?_⟩
  obtain ⟨t, ht, hb⟩ := hblocked
  exact (h _ _ _ _ t ht).2 hb

end CSE344.BoxReplies
