import SystemProgramming.FifoSession

/-!
# Requests and replies over one FIFO

Which steps keep the two directions of the FIFO apart. The client never sends
a second request: its first `receive_response` does not end. Up to there a run
goes through three phases: nothing is sent, the request is in the FIFO, a
child has read it and answers.
-/

set_option autoImplicit false

namespace CSE344.FifoReplies
open CString TransitionRun FifoSession

variable (cfg : Config)

/-- The commands that `handle_client` answers itself, with the message alone. -/
def Direct (pid : ℤ) (o : Outcome) : Command → Prop
  | .help => True
  | .list => o.files = []
  | .quit => o.stray ≠ pid
  | .invalid => True
  | _ => False

instance (pid : ℤ) (o : Outcome) (c : Command) : Decidable (Direct pid o c) := by
  unfold Direct
  split <;> infer_instance

/-- A descriptor is closed while another one is open or nothing is left in the
FIFO, the client reads when nothing of its own is left in it, and a child
reads when a request is in front, one that it answers directly. -/
def Guard (a : Act) (s : State) : Prop :=
  match a with
  | .client =>
    match s.client with
    | .closing _ => 1 < s.opens ∨ s.fifo = []
    | .reading _ => ∀ x ∈ s.fifo, x.1.isServer = true
    | _ => True
  | .fork => True
  | .child i o =>
    match s.children i with
    | .reading => (wholeRequest cfg (s.fifo.take maxLine)).isSome = true ∧
        Direct cfg.pid o (command (cstr ((s.fifo.take maxLine).map Prod.snd)))
    | .running _ [] => 1 < s.opens ∨ s.fifo = []
    | _ => True

instance (a : Act) (s : State) : Decidable (Guard cfg a s) := by
  unfold Guard
  split
  · split <;> infer_instance
  · infer_instance
  · split <;> infer_instance

/-- Every request is in the FIFO or was read by a child, and what the client
prints for it is the composed message, up to what is still to come. -/
structure Right (s : State) : Prop where
  read : ∀ k q, k < s.sent → cfg.requests[k]? = some q →
    (s.served k).isSome = true ∨ tagged (.request k) q.block <:+: s.fifo
  own : ∀ k, ∀ x ∈ s.printed k, x.1 = .server (some k)
  printed : ∀ k, (s.printed k).map Prod.snd <+: (s.served k).getD []
  whole : ∀ k ∈ s.finished, s.fifo = [] → (s.served k) = some ((s.printed k).map Prod.snd)

def Waiting (c : Child) : Prop := c = .unborn ∨ c = .opening ∨ c = .reading

/-- The client is past the sending of its first request. -/
def Past (c : Client) : Prop := c = .closing 0 ∨ c = .receiving 0 ∨ c = .reading 0

structure Quiet (s : State) : Prop where
  client : s.client = .ready 0 ∨ s.client = .opened 0
  fifo : s.fifo = []
  sent : s.sent = 0
  finished : s.finished = []
  served : ∀ k, s.served k = none
  printed : ∀ k, s.printed k = []
  children : ∀ i, Waiting (s.children i)
  born : ∀ i, s.children i ≠ .unborn → i < s.forked

structure Pending (q : Request) (s : State) : Prop where
  request : cfg.requests[0]? = some q
  client : Past s.client ∨ (scanned "upload" 1 (cstr q.block) = true ∧
    (s.client = .undefined ∨ ∃ bs, s.client = .sending 0 bs))
  fifo : ∃ body, s.fifo = tagged (.request 0) q.block ++ body ∧
    (scanned "upload" 1 (cstr q.block) = false → body = [])
  sent : s.sent = 1
  finished : s.finished = []
  served : ∀ k, s.served k = none
  printed : ∀ k, s.printed k = []
  children : ∀ i, Waiting (s.children i)
  born : ∀ i, s.children i ≠ .unborn → i < s.forked

/-- Child `i` has still to send `rest`. -/
structure Answered (i : ℕ) (rest : List Bytes) (s : State) : Prop where
  client : Past s.client
  sent : s.sent = 1
  served : s.served 0 = some ((s.printed 0 ++ s.fifo).map Prod.snd ++ rest.flatten)
  others : ∀ k, k ≠ 0 → s.served k = none ∧ s.printed k = []
  origin : ∀ x ∈ s.printed 0 ++ s.fifo, x.1 = .server (some 0)
  child : (s.children i = .running (some 0) (rest.map .send) ∧ s.finished = []) ∨
    (s.children i = .done ∧ rest = [] ∧ s.finished = [0])
  children : ∀ j, j ≠ i → Waiting (s.children j)
  born : i < s.forked

inductive Inv (s : State) : Prop where
  | quiet (h : Quiet s)
  | pending (q : Request) (h : Pending cfg q s)
  | answered (i : ℕ) (rest : List Bytes) (h : Answered i rest s)

variable {cfg} {s t : State}

theorem waiting_set {i : ℕ} {c : Child} (h : ∀ j, Waiting (s.children j)) (hc : Waiting c) :
    ∀ j, Waiting ((s.setChild i c).children j) := by
  intro j
  by_cases hj : j = i
  · rw [hj, setChild_self]
    exact hc
  · rw [setChild_ne hj]
    exact h j

theorem born_fork (h : ∀ i, s.children i ≠ .unborn → i < s.forked) :
    ∀ i, (s.setChild s.forked .opening).children i ≠ .unborn → i < s.forked+1 := by
  intro i hi
  by_cases hs : i = s.forked
  · omega
  · rw [setChild_ne hs] at hi
    exact Nat.lt_succ_of_lt (h i hi)

theorem born_set {i : ℕ} {c : Child} (h : ∀ j, s.children j ≠ .unborn → j < s.forked)
    (hi : s.children i ≠ .unborn) : ∀ j, (s.setChild i c).children j ≠ .unborn → j < s.forked := by
  intro j hj
  by_cases hs : j = i
  · rw [hs]
    exact h i hi
  · rw [setChild_ne hs] at hj
    exact h j hj

theorem waiting_set_others {i j : ℕ} {c : Child} (h : ∀ k, k ≠ i → Waiting (s.children k))
    (hc : Waiting c) : ∀ k, k ≠ i → Waiting ((s.setChild j c).children k) := by
  intro k hk
  by_cases hj : k = j
  · rw [hj, setChild_self]
    exact hc
  · rw [setChild_ne hj]
    exact h k hk

theorem waiting_step {i : ℕ} {o : Outcome} (hw : Waiting (s.children i))
    (h : childStep cfg i o s = some t) :
    (s.children i ≠ .unborn ∧ t = s.openFifo.setChild i .reading) ∨
      (s.children i = .reading ∧ s.fifo ≠ [] ∧ t = readRequest cfg i o s) := by
  rcases hw with hw | hw | hw
  · simp [childStep, hw] at h
  · left
    refine ⟨by simp [hw], ?_⟩
    simpa [childStep, hw] using h.symm
  · right
    simp only [childStep, hw] at h
    split_ifs at h with hnil
    exact ⟨hw, hnil, (Option.some.inj h).symm⟩

theorem write_some {origin : Origin} {data : Bytes} (h : s.write origin data = some t) :
    t = { s with fifo := s.fifo ++ tagged origin data } := by
  unfold State.write at h
  split_ifs at h
  exact (Option.some.inj h).symm

/-- Closing a descriptor loses nothing as long as the condition holds. -/
theorem closeFifo_keeps (h : 1 < s.opens ∨ s.fifo = []) : s.closeFifo.fifo = s.fifo := by
  rcases h with h | h
  · exact if_neg (Nat.not_le.mpr h)
  · simp [State.closeFifo, h]

theorem fork_some (h : fork s = some t) : t = { s.setChild s.forked .opening with
    queued := s.queued-1, forked := s.forked+1 } := by
  unfold fork at h
  split_ifs at h
  exact (Option.some.inj h).symm

theorem quiet_step {a : Act} (h : Quiet s) (hs : step cfg a s = some t) : Inv cfg t := by
  cases a with
  | client =>
    change clientStep cfg s = some t at hs
    rcases h.client with hc | hc
    · simp only [clientStep, hc, Option.map_eq_some_iff] at hs
      obtain ⟨q, -, rfl⟩ := hs
      exact .quiet ⟨Or.inr rfl, h.fifo, h.sent, h.finished, h.served, h.printed, h.children, h.born⟩
    · simp only [clientStep, hc, Option.bind_eq_some_iff, Option.map_eq_some_iff] at hs
      obtain ⟨q, hq, u, hu, rfl⟩ := hs
      obtain rfl := write_some hu
      refine .pending q ⟨hq, ?_, ⟨[], ?_, fun _ => rfl⟩, rfl, h.finished, h.served, h.printed,
        h.children, h.born⟩
      · dsimp only
        unfold Request.next
        split_ifs with hup
        · right
          refine ⟨hup, ?_⟩
          cases q.file with
          | none => exact Or.inl rfl
          | some content => exact Or.inr ⟨_, rfl⟩
        · exact Or.inl (Or.inl rfl)
      · simp [h.fifo]
  | fork =>
    obtain rfl := fork_some hs
    exact .quiet ⟨h.client, h.fifo, h.sent, h.finished, h.served, h.printed,
      waiting_set h.children (Or.inr (Or.inl rfl)), born_fork h.born⟩
  | child i o =>
    rcases waiting_step (h.children i) hs with ⟨hi, rfl⟩ | ⟨-, hne, -⟩
    · exact .quiet ⟨h.client, h.fifo, h.sent, h.finished, h.served, h.printed,
        waiting_set h.children (Or.inr (Or.inr rfl)), born_set h.born hi⟩
    · exact absurd h.fifo hne

theorem wholeRequest_block {k : ℕ} {q : Request} (hq : cfg.requests[k]? = some q) :
    wholeRequest cfg (tagged (.request k) q.block) = some k := by
  obtain ⟨b, bs, hb⟩ := List.exists_cons_of_length_pos
    (show 0 < q.block.length by rw [q.full]; decide)
  simp [wholeRequest, tagged, hb, hq]

theorem take_block (q : Request) (origin : Origin) (rest : Tagged) :
    (tagged origin q.block ++ rest).take maxLine = tagged origin q.block ∧
      (tagged origin q.block ++ rest).drop maxLine = rest := by
  have hlen : (tagged origin q.block).length = maxLine := by simp [tagged, q.full]
  rw [← hlen]
  exact ⟨List.take_left, List.drop_left⟩

theorem cstr_ended {block : Bytes} (h : 0 ∈ block) (rest : Bytes) :
    cstr (block++rest) = cstr block := by
  obtain ⟨a, b, rfl⟩ := List.append_of_mem h
  rw [List.append_assoc, List.cons_append, cstr_append_zero, cstr_append_zero]

theorem untagged (origin : Origin) (data : Bytes) : (tagged origin data).map Prod.snd = data := by
  simp [tagged, Function.comp_def]

theorem command_upload {text : Bytes} (h : scanned "upload" 1 text = true) :
    command text = .upload := by
  have hprefix : (ascii "upload").isPrefixOf text = true := by
    simp only [scanned, Bool.and_eq_true] at h
    exact h.1
  obtain ⟨rest, rfl⟩ := List.isPrefixOf_iff_prefix.mp hprefix
  have hhelp : ascii "upload" ++ rest ≠ ascii "help" := by simp [ascii]
  have hlist : ascii "upload" ++ rest ≠ ascii "list" := by simp [ascii]
  have hread : scanned "readF" 1 (ascii "upload" ++ rest) = false := rfl
  have hwrite : scanned "writeT" 2 (ascii "upload" ++ rest) = false := rfl
  rw [command, if_neg hhelp, if_neg hlist, if_neg (by simp [hread]), if_neg (by simp [hwrite]),
    if_pos h]

theorem handler_direct {pid : ℤ} {o : Outcome} {c : Command} (h : Direct pid o c) (buffer : Bytes) :
    ∃ sends : List Bytes, handler pid o buffer c = sends.map .send ∧
      sends.flatten = composed o c := by
  cases c with
  | help => exact ⟨[helpText], rfl, by simp [composed]⟩
  | list =>
    have hfiles : o.files = [] := h
    exact ⟨[ascii "End of list\n"], by simp [handler, hfiles, listBlocks],
      by simp [composed, hfiles]⟩
  | quit =>
    have hstray : strayReply pid o = [] := if_neg h
    exact ⟨[ascii "Bye\n"], by simp [handler, hstray], by simp [composed]⟩
  | invalid => exact ⟨[invalidText], rfl, by simp [composed]⟩
  | readF => exact h.elim
  | writeT => exact h.elim
  | upload => exact h.elim
  | download => exact h.elim
  | killServer => exact h.elim

theorem pending_client {q : Request} (h : Pending cfg q s) (hg : Guard cfg .client s)
    (hs : clientStep cfg s = some t) : Inv cfg t := by
  obtain ⟨body, hfifo, hbody⟩ := h.fifo
  rcases h.client with (hc | hc | hc) | ⟨hup, hc | ⟨bs, hc⟩⟩
  · simp only [clientStep, hc, Option.some.injEq] at hs
    simp only [Guard, hc] at hg
    obtain rfl := hs
    exact .pending q ⟨h.request, Or.inl (Or.inr (Or.inl rfl)),
      ⟨body, (closeFifo_keeps hg).trans hfifo, hbody⟩, h.sent, h.finished, h.served, h.printed,
      h.children, h.born⟩
  · simp only [clientStep, hc, Option.some.injEq] at hs
    obtain rfl := hs
    exact .pending q ⟨h.request, Or.inl (Or.inr (Or.inr rfl)), ⟨body, hfifo, hbody⟩, h.sent,
      h.finished, h.served, h.printed, h.children, h.born⟩
  · -- the request is still there, so the client may not read
    simp only [Guard, hc] at hg
    obtain ⟨b, bs, hb⟩ := List.exists_cons_of_length_pos
      (show 0 < q.block.length by rw [q.full]; decide)
    have hfirst : (Origin.request 0, b) ∈ s.fifo := by simp [hfifo, tagged, hb]
    exact absurd (hg _ hfirst) (by simp [Origin.isServer])
  · simp [clientStep, hc] at hs
  · cases bs with
    | nil =>
      simp only [clientStep, hc, Option.some.injEq] at hs
      obtain rfl := hs
      exact .pending q ⟨h.request, Or.inl (Or.inl rfl), ⟨body, hfifo, hbody⟩, h.sent, h.finished,
        h.served, h.printed, h.children, h.born⟩
    | cons b bs =>
      simp only [clientStep, hc, Option.map_eq_some_iff] at hs
      obtain ⟨u, hu, rfl⟩ := hs
      obtain rfl := write_some hu
      refine .pending q ⟨h.request, Or.inr ⟨hup, Or.inr ⟨bs, rfl⟩⟩,
        ⟨body ++ tagged (.body 0) b, ?_, fun hno => ?_⟩, h.sent, h.finished, h.served, h.printed,
        h.children, h.born⟩
      · rw [← List.append_assoc, ← hfifo]
      · rw [hup] at hno
        cases hno

theorem pending_read {q : Request} {i : ℕ} {o : Outcome} (h : Pending cfg q s)
    (hread : s.children i = .reading) (hg : Guard cfg (.child i o) s) :
    Inv cfg (readRequest cfg i o s) := by
  obtain ⟨body, hfifo, hbody⟩ := h.fifo
  obtain ⟨htake, hdrop⟩ := take_block q (.request 0) body
  rw [← hfifo] at htake hdrop
  simp only [Guard, hread, htake, untagged] at hg
  have hbuffer : cstr (bufferAfter cfg o (tagged (.request 0) q.block)) = cstr q.block := by
    simp only [bufferAfter, untagged]
    exact cstr_ended q.ended _
  have hup : scanned "upload" 1 (cstr q.block) = false := by
    by_contra hup
    have hcommand := command_upload (Bool.not_eq_false _ ▸ hup)
    rw [hcommand] at hg
    exact hg.2
  obtain ⟨sends, hsends, hflat⟩ :=
    handler_direct hg.2 (bufferAfter cfg o (tagged (.request 0) q.block))
  have hpast : Past s.client := by
    rcases h.client with hc | ⟨hno, -⟩
    · exact hc
    · rw [hup] at hno
      cases hno
  have hnext : readRequest cfg i o s =
      { s.setChild i (.running (some 0) (sends.map .send)) with
        fifo := []
        served := fun j =>
          if some j = some 0 then some (composed o (command (cstr q.block))) else s.served j } := by
    simp only [readRequest, htake, hdrop, hbody hup, wholeRequest_block h.request, hbuffer, hsends]
  rw [hnext]
  refine .answered i sends ⟨hpast, h.sent, ?_, ?_, ?_, ?_, ?_, h.born i (by simp [hread])⟩
  · simp [State.setChild, h.printed, hflat]
  · intro k hk
    simp [State.setChild, hk, h.served, h.printed]
  · simp [State.setChild, h.printed]
  · exact Or.inl ⟨Function.update_self _ _ _, h.finished⟩
  · intro j hj
    simpa [State.setChild, Function.update_of_ne hj] using h.children j

theorem pending_step {q : Request} {a : Act} (h : Pending cfg q s) (hg : Guard cfg a s)
    (hs : step cfg a s = some t) : Inv cfg t := by
  cases a with
  | client => exact pending_client h hg hs
  | fork =>
    obtain rfl := fork_some hs
    exact .pending q ⟨h.request, h.client, h.fifo, h.sent, h.finished, h.served, h.printed,
      waiting_set h.children (Or.inr (Or.inl rfl)), born_fork h.born⟩
  | child i o =>
    rcases waiting_step (h.children i) hs with ⟨hi, rfl⟩ | ⟨hread, -, rfl⟩
    · exact .pending q ⟨h.request, h.client, h.fifo, h.sent, h.finished, h.served, h.printed,
        waiting_set h.children (Or.inr (Or.inr rfl)), born_set h.born hi⟩
    · exact pending_read h hread hg

section Answering

variable {i : ℕ} {rest : List Bytes}

theorem answered_client (h : Answered i rest s) (hg : Guard cfg .client s)
    (hs : clientStep cfg s = some t) : Answered i rest t := by
  rcases h.client with hc | hc | hc
  · simp only [clientStep, hc, Option.some.injEq] at hs
    simp only [Guard, hc] at hg
    obtain rfl := hs
    have hkeep := closeFifo_keeps hg
    exact ⟨Or.inr (Or.inl rfl), h.sent, by rw [hkeep]; exact h.served, h.others,
      by rw [hkeep]; exact h.origin, h.child, h.children, h.born⟩
  · simp only [clientStep, hc, Option.some.injEq] at hs
    obtain rfl := hs
    exact ⟨Or.inr (Or.inr rfl), h.sent, h.served, h.others, h.origin, h.child, h.children,
      h.born⟩
  · simp only [clientStep, hc] at hs
    split_ifs at hs
    obtain rfl := Option.some.inj hs
    have hsame : Function.update s.printed 0 (s.printed 0 ++ s.fifo.take maxLine) 0 ++
        s.fifo.drop maxLine = s.printed 0 ++ s.fifo := by
      rw [Function.update_self, List.append_assoc, List.take_append_drop]
    refine ⟨Or.inr (Or.inr rfl), h.sent, ?_, fun k hk => ⟨(h.others k hk).1, ?_⟩, ?_, h.child,
      h.children, h.born⟩
    · dsimp only
      rw [hsame]
      exact h.served
    · exact (Function.update_of_ne hk _ _).trans (h.others k hk).2
    · dsimp only
      rw [hsame]
      exact h.origin

theorem answered_child {o : Outcome} (h : Answered i rest s) (hg : Guard cfg (.child i o) s)
    (hs : childStep cfg i o s = some t) : ∃ rest', Answered i rest' t := by
  rcases h.child with ⟨hrun, hfin⟩ | ⟨hdone, -⟩
  · cases rest with
    | nil =>
      simp only [childStep, hrun, List.map_nil, Option.some.injEq] at hs
      simp only [Guard, hrun, List.map_nil] at hg
      obtain rfl := hs
      have hkeep := closeFifo_keeps hg
      refine ⟨[], h.client, h.sent, ?_, h.others, ?_, Or.inr ⟨?_, rfl, ?_⟩, ?_, h.born⟩
      · exact h.served.trans (by rw [← hkeep]; rfl)
      · intro x hx
        exact h.origin x (by rw [← hkeep]; exact hx)
      · exact Function.update_self _ _ _
      · show s.finished ++ [0] = [0]
        rw [hfin, List.nil_append]
      · intro j hj
        simpa [State.setChild, State.closeFifo, Function.update_of_ne hj] using h.children j hj
    | cons data rest =>
      simp only [childStep, hrun, List.map_cons, Option.map_eq_some_iff] at hs
      obtain ⟨u, hu, rfl⟩ := hs
      obtain rfl := write_some hu
      refine ⟨rest, h.client, h.sent, ?_, h.others, ?_, Or.inl ⟨Function.update_self _ _ _, hfin⟩,
        ?_, h.born⟩
      · rw [State.setChild]
        simp only [h.served, List.map_append, untagged, List.flatten_cons, List.append_assoc]
      · intro x hx
        rw [State.setChild, ← List.append_assoc] at hx
        rcases List.mem_append.mp hx with hx | hx
        · exact h.origin x hx
        · obtain ⟨b, -, rfl⟩ := List.mem_map.mp hx
          rfl
      · intro j hj
        simpa [State.setChild, Function.update_of_ne hj] using h.children j hj
  · simp [childStep, hdone] at hs

theorem answered_step {a : Act} (h : Answered i rest s) (hg : Guard cfg a s)
    (hs : step cfg a s = some t) : Inv cfg t := by
  cases a with
  | client => exact .answered i rest (answered_client h hg hs)
  | fork =>
    obtain rfl := fork_some hs
    have hi : i ≠ s.forked := Nat.ne_of_lt h.born
    refine .answered i rest ⟨h.client, h.sent, h.served, h.others, h.origin, ?_,
      waiting_set_others h.children (Or.inr (Or.inl rfl)), Nat.lt_succ_of_lt h.born⟩
    simpa [State.setChild, Function.update_of_ne hi] using h.child
  | child j o =>
    by_cases hj : j = i
    · subst hj
      obtain ⟨rest', h'⟩ := answered_child h hg hs
      exact .answered j rest' h'
    · rcases waiting_step (h.children j hj) hs with ⟨-, rfl⟩ | ⟨hread, hne, -⟩
      · refine .answered i rest ⟨h.client, h.sent, h.served, h.others, h.origin, ?_,
          waiting_set_others h.children (Or.inr (Or.inr rfl)), h.born⟩
        simpa [State.setChild, State.openFifo, Function.update_of_ne (Ne.symm hj)] using h.child
      · -- what is in the FIFO comes from the server, so no child may read
        simp only [Guard, hread] at hg
        obtain ⟨x, xs, hx⟩ := List.exists_cons_of_ne_nil hne
        have hserver : x.1 = .server (some 0) := h.origin x (by simp [hx])
        obtain ⟨origin, b⟩ := x
        obtain rfl : origin = .server (some 0) := hserver
        simp [hx, wholeRequest, maxLine] at hg

end Answering

theorem inv_step {a : Act} (h : Inv cfg s) (hg : Guard cfg a s) (hs : step cfg a s = some t) :
    Inv cfg t := by
  cases h with
  | quiet h => exact quiet_step h hs
  | pending q h => exact pending_step h hg hs
  | answered i rest h => exact answered_step h hg hs

theorem inv_init (queued : ℕ) : Inv cfg (init queued) :=
  .quiet ⟨Or.inl rfl, rfl, rfl, rfl, fun _ => rfl, fun _ => rfl, fun _ => Or.inl rfl,
    fun _ h => absurd rfl h⟩

theorem right_of_silent (hprinted : ∀ k, s.printed k = []) (hfinished : s.finished = [])
    (hread : ∀ k q, k < s.sent → cfg.requests[k]? = some q →
      (s.served k).isSome = true ∨ tagged (.request k) q.block <:+: s.fifo) : Right cfg s where
  read := hread
  own := fun k x hx => by simp [hprinted] at hx
  printed := fun k => by simp [hprinted]
  whole := fun k hk => by simp [hfinished] at hk

theorem right_of_inv (h : Inv cfg s) : Right cfg s := by
  cases h with
  | quiet h =>
    apply right_of_silent h.printed h.finished
    intro k q hk
    rw [h.sent] at hk
    exact absurd hk (Nat.not_lt_zero k)
  | pending q h =>
    apply right_of_silent h.printed h.finished
    intro k r hk hr
    obtain rfl : k = 0 := by
      rw [h.sent] at hk
      omega
    obtain rfl : q = r := Option.some.inj (h.request.symm.trans hr)
    obtain ⟨body, hfifo, -⟩ := h.fifo
    exact Or.inr ⟨[], body, hfifo.symm⟩
  | answered i rest h =>
    refine ⟨fun k r hk hr => ?_, fun k x hx => ?_, fun k => ?_, fun k hk hnil => ?_⟩
    · obtain rfl : k = 0 := by
        rw [h.sent] at hk
        omega
      rw [h.served]
      exact Or.inl rfl
    · by_cases hk : k = 0
      · rw [hk] at hx ⊢
        exact h.origin x (List.mem_append_left _ hx)
      · rw [(h.others k hk).2] at hx
        exact absurd hx List.not_mem_nil
    · by_cases hk : k = 0
      · rw [hk, h.served, List.map_append, List.append_assoc]
        exact List.prefix_append _ _
      · rw [(h.others k hk).2]
        exact List.nil_prefix
    · rcases h.child with ⟨-, hfin⟩ | ⟨-, hrest, hfin⟩
      · rw [hfin] at hk
        exact absurd hk List.not_mem_nil
      · rw [hfin] at hk
        rw [List.mem_singleton.mp hk, h.served, hnil, hrest]
        simp

/-- In a run whose steps all meet the condition, requests reach the server and
replies the client. -/
theorem session_right (cfg : Config) (queued : ℕ) (as : List Act) (t : State)
    (hg : Meets (step cfg) (Guard cfg) as (init queued))
    (h : run (step cfg) as (init queued) = some t) : Right cfg t :=
  right_of_inv (guarded_invariant (step cfg) (Guard cfg) (Inv cfg)
    (fun _ _ _ hi hc hs => inv_step hi hc hs) as _ t (inv_init queued) hg h)

/-- The array of a request with nothing behind its end. -/
def typed (text : Bytes) (h : text.length < maxLine) : Request where
  block := text ++ List.replicate (maxLine-text.length) 0
  full := by
    rw [List.length_append, List.length_replicate]
    omega
  ended := by
    apply List.mem_append_right
    rw [List.mem_replicate]
    exact ⟨by omega, rfl⟩
  file := none

def asksHelp : Config := ⟨7, [typed (ascii "help") (by decide)]⟩

def plain : Outcome := ⟨[], [], false, false, [], [], [], 0, false⟩

/-- The child has the FIFO open before the client closes it, and the client
reads after the child has. -/
def inTurn : List Act :=
  [.fork, .child 0 plain, .client, .client, .child 0 plain, .client, .client, .child 0 plain,
    .client, .child 0 plain]

theorem session_right_inTurn : ∃ t, run (step asksHelp) inTurn (init 1) = some t ∧
    t.printed 0 = tagged (.server (some 0)) helpText ∧ Right asksHelp t := by
  -- one evaluation for both, since it is the run that takes long
  have hrun : Meets (step asksHelp) (Guard asksHelp) inTurn (init 1) ∧
      (run (step asksHelp) inTurn (init 1)).map (fun t => t.printed 0) =
        some (tagged (.server (some 0)) helpText) := by decide +kernel
  obtain ⟨t, ht, hp⟩ := Option.map_eq_some_iff.mp hrun.2
  exact ⟨t, ht, hp, session_right asksHelp 1 inTurn t hrun.1 ht⟩

/-- The client that reads before the child prints its own request. -/
theorem reads_own_request : ∃ t, run (step asksHelp)
    [.fork, .child 0 plain, .client, .client, .client, .client, .client] (init 1) = some t ∧
      ¬ Right asksHelp t := by
  have hprinted : (run (step asksHelp)
      [.fork, .child 0 plain, .client, .client, .client, .client, .client] (init 1)).map
        (fun t => (t.printed 0).head?) = some (some (.request 0, 104)) := by decide +kernel
  obtain ⟨t, ht, hp⟩ := Option.map_eq_some_iff.mp hprinted
  refine ⟨t, ht, fun hright => ?_⟩
  have hown := hright.own 0 (.request 0, 104) (List.mem_of_head? hp)
  cases hown

end CSE344.FifoReplies
