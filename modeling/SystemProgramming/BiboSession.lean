import Mathlib.Data.List.Nodup
import SystemProgramming.BiboReplies
import SystemProgramming.BiboSpoken
import SystemProgramming.TaggedStream

/-!
# An HW4 session whose sends arrive one by one

When every `recv` gets exactly one `send`, the first reply answers the PID and
all later ones come one command late. An empty command sends nothing and still
waits for a reply: the first one takes up the slack, so that from then on the
replies belong to their commands, and the second one waits for ever.
-/

set_option autoImplicit false

namespace CSE344.BiboSession
open CString BiboServer TransitionRun BiboReplies TaggedStream BiboSpoken

/-- The tags of the bytes of a message. -/
def block (m : Tag × ℕ) : List Tag := List.replicate m.2 m.1

/-- What the `send` of the `k`-th command puts on the wire. -/
def message (commands : List CStr) (k : ℕ) : List (Tag × ℕ) :=
  match commands[k]? with
  | none => []
  | some c => if c.bytes = [] then [] else [(.command k, c.bytes.length)]

/-- The messages of the PID and the first `n` commands. -/
def messages (commands : List CStr) (n : ℕ) : List (Tag × ℕ) :=
  (.preamble, 4) :: (List.range n).flatMap (message commands)

/-- The empty commands among the first `n`. -/
def empties (commands : List CStr) (n : ℕ) : ℕ :=
  (commands.take n).countP (fun c => c.bytes = [])

/-- Every read takes what one send has put there. -/
def OneByOne : Act → Session → Prop
  | .serverRecv n _, s => Whole s.toServer n
  | .clientRecv n, s => Whole s.toClient n
  | _, _ => True

theorem messages_succ (commands : List CStr) (n : ℕ) :
    messages commands (n+1) = messages commands n ++ message commands n := by
  simp [messages, List.range_succ]

theorem mem_message {commands : List CStr} {k : ℕ} {m : Tag × ℕ} (h : m ∈ message commands k) :
    m.1 = .command k ∧ 0 < m.2 := by
  unfold message at h
  split at h
  · cases h
  · split_ifs at h with hc
    · cases h
    · rw [List.mem_singleton.mp h]
      exact ⟨rfl, List.length_pos_iff.mpr hc⟩

theorem message_length (commands : List CStr) {n : ℕ} (hn : n < commands.length) :
    (message commands n).length + (if commands[n].bytes = [] then 1 else 0) = 1 := by
  rw [message, List.getElem?_eq_getElem hn]
  dsimp only
  split_ifs <;> rfl

theorem messages_length (commands : List CStr) (n : ℕ) (hn : n ≤ commands.length) :
    (messages commands n).length + empties commands n = n+1 := by
  induction n with
  | zero => rfl
  | succ n ih =>
    have hlt : n < commands.length := by omega
    have hone := message_length commands hlt
    have hsofar := ih (by omega)
    have hcount : empties commands (n+1) =
        empties commands n + (if commands[n].bytes = [] then 1 else 0) := by
      rw [empties, List.take_succ_eq_append_getElem hlt, List.countP_append]
      simp [empties, List.countP_cons]
    rw [messages_succ, List.length_append, hcount]
    omega

theorem messages_loud (commands : List CStr) (n : ℕ) : ∀ m ∈ messages commands n, 0 < m.2 := by
  intro m hm
  rcases List.mem_cons.mp hm with rfl | hm
  · decide
  · obtain ⟨k, -, hk⟩ := List.mem_flatMap.mp hm
    exact (mem_message hk).2

theorem messages_tags (commands : List CStr) (n : ℕ) {k : ℕ}
    (h : Tag.command k ∈ (messages commands n).map Prod.fst) : k < n := by
  obtain ⟨m, hm, htag⟩ := List.mem_map.mp h
  rcases List.mem_cons.mp hm with rfl | hm
  · cases htag
  · obtain ⟨j, hj, hmem⟩ := List.mem_flatMap.mp hm
    rw [(mem_message hmem).1, Tag.command.injEq] at htag
    exact htag ▸ List.mem_range.mp hj

theorem messages_nodup (commands : List CStr) (n : ℕ) :
    ((messages commands n).map Prod.fst).Nodup := by
  induction n with
  | zero => simp [messages]
  | succ n ih =>
    rw [messages_succ, List.map_append, List.nodup_append]
    refine ⟨ih, ?_, ?_⟩
    · unfold message
      split
      · simp
      · split_ifs <;> simp
    · intro a ha b hb
      obtain ⟨m, hm, rfl⟩ := List.mem_map.mp hb
      rintro rfl
      rw [(mem_message hm).1] at ha
      exact absurd (messages_tags commands n ha) (lt_irrefl n)

/-- `done` and `replies` are the messages whose replies are printed or on their
way, with the lengths of the replies; `lost` is what the server crashed on. -/
structure Ordered (commands : List CStr) (s : Session) (done replies : List ((Tag × ℕ) × ℕ))
    (lost pending : List (Tag × ℕ)) : Prop where
  toServer : s.toServer.map Prod.fst = spread pending
  toClient : s.toClient.map Prod.fst = spread (replies.map (fun r => (block r.1, r.2)))
  printed : s.printed.map Printed.answered = done.map (fun r => List.replicate r.2 (block r.1))
  order : (done ++ replies).map Prod.fst ++ lost ++ pending = messages commands s.sent
  loud : ∀ r ∈ done ++ replies, 0 < r.2
  lost : lost ≠ [] → s.server = none
  texts : ∀ t, s.server = some t → Texts t.files
  typed : s.typed = commands.drop s.sent
  sent_le : s.sent ≤ commands.length
  printed_le : s.printed.length ≤ s.sent
  numbered : s.printed.map Printed.command = List.range s.printed.length
  typing : s.pc = .typing → s.printed.length = s.sent
  receiving : s.pc = .receiving → s.printed.length+1 = s.sent

def InOrder (commands : List CStr) (s : Session) : Prop :=
  ∃ done replies lost pending, Ordered commands s done replies lost pending

section Steps

variable {commands : List CStr} {cfg : Config} {s t : Session}

theorem ordered_start (pid : UInt32) (clientResponse : Bytes) {files : Bytes → Option Bytes}
    (hfiles : Texts files) (response : Bytes) :
    InOrder commands (start pid commands clientResponse files response) := by
  refine ⟨[], [], [], [(.preamble, 4)], rfl, rfl, rfl, rfl, by simp, by simp, ?_, rfl,
    Nat.zero_le _, le_refl _, rfl, fun _ => rfl, by simp [start]⟩
  intro t ht
  cases ht
  exact hfiles

theorem send_ordered (hs : InOrder commands s) (h : step cfg .send s = some t) :
    InOrder commands t := by
  obtain ⟨done, replies, lost, pending, hs⟩ := hs
  simp only [step] at h
  split at h
  · rename_i hpc htyped
    rename_i c cs
    cases h
    have hc : commands[s.sent]? = some c := by
      have := hs.typed
      rw [htyped] at this
      rw [← List.head?_drop, ← this]
      rfl
    refine ⟨done, replies, lost, pending ++ message commands s.sent, ?_, hs.toClient, hs.printed,
      ?_, hs.loud, hs.lost, hs.texts, ?_, (List.getElem?_eq_some_iff.mp hc).1,
      Nat.le_succ_of_le hs.printed_le, hs.numbered, by simp, fun _ => ?_⟩
    · rw [List.map_append, hs.toServer, spread_append, message, hc]
      congr 1
      dsimp only
      split_ifs with hempty
      · simp [hempty]
      · simp [spread]
    · rw [messages_succ, ← List.append_assoc, hs.order]
    · show cs = commands.drop (s.sent+1)
      rw [← List.tail_drop, ← hs.typed, htyped]
      rfl
    · show s.printed.length+1 = s.sent+1
      rw [hs.typing hpc]
  · cases h

theorem Ordered.pending_first {done replies : List ((Tag × ℕ) × ℕ)} {lost pending : List (Tag × ℕ)}
    {m : Tag × ℕ} (hs : Ordered commands s done replies lost (m::pending)) :
    0 < m.2 ∧ m.1 ∉ pending.map Prod.fst := by
  have hmem : m ∈ messages commands s.sent := by
    rw [← hs.order]
    simp
  refine ⟨messages_loud commands s.sent m hmem, ?_⟩
  have hnodup := messages_nodup commands s.sent
  rw [← hs.order, List.map_append, List.nodup_append] at hnodup
  exact (List.nodup_cons.mp hnodup.2.1).1

theorem serverRecv_ordered {n : ℕ} {openOk : Bool} (hs : InOrder commands s)
    (hw : Whole s.toServer n) (h : step cfg (.serverRecv n openOk) s = some t) :
    InOrder commands t := by
  obtain ⟨done, replies, lost, pending, hs⟩ := hs
  simp only [step] at h
  split at h
  · cases h
  rename_i u hserver
  split_ifs at h with hn
  obtain ⟨-, h1, -, hlen⟩ := hn
  have hlost : lost = [] := by
    by_contra hne
    rw [hs.lost hne] at hserver
    cases hserver
  subst hlost
  obtain ⟨m, pending, rfl⟩ : ∃ m ms, pending = m::ms := by
    cases pending with
    | nil =>
      have := congrArg List.length hs.toServer
      simp only [List.length_map, spread_nil, List.length_nil] at this
      omega
    | cons m ms => exact ⟨m, ms, rfl⟩
  obtain ⟨hpos, hother⟩ := hs.pending_first
  obtain ⟨-, htake, hdrop⟩ := whole_first hs.toServer hpos hother h1 hw
  split at h
  · cases h
    refine ⟨done, replies, [m], pending, hdrop, hs.toClient, hs.printed, ?_, hs.loud,
      fun _ => rfl, by simp, hs.typed, hs.sent_le, hs.printed_le, hs.numbered, hs.typing,
      hs.receiving⟩
    have := hs.order
    simpa using this
  · rename_i v reply hhandle
    cases h
    obtain ⟨htexts, hreply⟩ := handle_spoken (hs.texts u hserver) hhandle
    refine ⟨done, replies ++ [(m, reply.length)], [], pending, hdrop, ?_, hs.printed, ?_, ?_,
      by simp, ?_, hs.typed, hs.sent_le, hs.printed_le, hs.numbered, hs.typing, hs.receiving⟩
    · rw [List.map_append, hs.toClient, List.map_append, spread_append, htake]
      simp [spread, block, Function.comp_def]
    · have := hs.order
      simpa using this
    · intro r hr
      rcases List.mem_append.mp hr with hr | hr
      · exact hs.loud r (List.mem_append_left _ hr)
      · rcases List.mem_append.mp hr with hr | hr
        · exact hs.loud r (List.mem_append_right _ hr)
        · rw [List.mem_singleton.mp hr]
          exact List.length_pos_iff.mpr hreply
    · intro w hw
      cases hw
      exact htexts

theorem block_inj {m m' : Tag × ℕ} (hm : 0 < m.2) (h : block m = block m') : m = m' := by
  obtain ⟨a, n⟩ := m
  obtain ⟨a', n'⟩ := m'
  rw [block, block, List.replicate_inj] at h
  obtain ⟨rfl, h0 | rfl⟩ := h
  · simp only at hm h0
    omega
  · rfl

theorem Ordered.reply_first {done replies : List ((Tag × ℕ) × ℕ)} {lost pending : List (Tag × ℕ)}
    {r : (Tag × ℕ) × ℕ} (hs : Ordered commands s done (r::replies) lost pending) :
    block r.1 ∉ (replies.map (fun r => (block r.1, r.2))).map Prod.fst := by
  have hmem : r.1 ∈ messages commands s.sent := by
    rw [← hs.order]
    simp
  have hnodup := List.Nodup.of_map Prod.fst (messages_nodup commands s.sent)
  rw [← hs.order, List.map_append, List.append_assoc, List.append_assoc, List.map_cons] at hnodup
  have hrest := (List.nodup_cons.mp (List.nodup_append.mp hnodup).2.1).1
  rintro hin
  obtain ⟨x, hx, hblock⟩ := List.mem_map.mp hin
  obtain ⟨r', hr', rfl⟩ := List.mem_map.mp hx
  apply hrest
  rw [block_inj (messages_loud commands s.sent r.1 hmem) hblock.symm]
  exact List.mem_append_left _ (List.mem_map_of_mem hr')

theorem clientRecv_ordered {n : ℕ} (hs : InOrder commands s) (hw : Whole s.toClient n)
    (h : step cfg (.clientRecv n) s = some t) : InOrder commands t := by
  obtain ⟨done, replies, lost, pending, hs⟩ := hs
  obtain ⟨⟨hpc, h1, -, hlen⟩, rfl⟩ := guarded_iff.mp h
  obtain ⟨r, replies, rfl⟩ : ∃ r rs, replies = r::rs := by
    cases replies with
    | nil =>
      have := congrArg List.length hs.toClient
      simp only [List.length_map, List.map_nil, spread_nil, List.length_nil] at this
      omega
    | cons r rs => exact ⟨r, rs, rfl⟩
  have hpos : 0 < r.2 := hs.loud r (by simp)
  obtain ⟨-, htake, hdrop⟩ :=
    whole_first (m := (block r.1, r.2)) hs.toClient hpos hs.reply_first h1 hw
  have hsent := hs.receiving hpc
  refine ⟨done ++ [r], replies, lost, pending, hs.toServer, hdrop, ?_, ?_, ?_, hs.lost, hs.texts,
    hs.typed, hs.sent_le, ?_, ?_, fun _ => ?_, fun hrec => ?_⟩
  · rw [List.map_append, hs.printed, List.map_append, List.map_cons, htake]
    rfl
  · have := hs.order
    simpa using this
  · intro x hx
    exact hs.loud x (by simpa using hx)
  · show (s.printed ++ [_]).length ≤ s.sent
    rw [List.length_append, List.length_singleton]
    omega
  · rw [List.map_append, hs.numbered, List.length_append, List.length_singleton, List.range_succ]
    simp only [List.map_cons, List.map_nil]
    congr 2
    omega
  · simpa using hsent
  · exfalso
    dsimp only at hrec
    split_ifs at hrec

theorem clientEof_ordered (hs : InOrder commands s) (h : step cfg .clientEof s = some t) :
    InOrder commands t := by
  obtain ⟨done, replies, lost, pending, hs⟩ := hs
  simp only [step] at h
  split_ifs at h
  cases h
  exact ⟨done, replies, lost, pending, hs.toServer, hs.toClient, hs.printed, hs.order, hs.loud,
    hs.lost, hs.texts, hs.typed, hs.sent_le, hs.printed_le, hs.numbered, by simp, by simp⟩

theorem inOrder_step (a : Act) (s t : Session) (hs : InOrder commands s) (hw : OneByOne a s)
    (h : step cfg a s = some t) : InOrder commands t := by
  cases a with
  | send => exact send_ordered hs h
  | clientRecv n => exact clientRecv_ordered hs hw h
  | clientEof => exact clientEof_ordered hs h
  | serverRecv n openOk => exact serverRecv_ordered hs hw h

end Steps

/-- The `k`-th printed text is a reply to the `k`-th message. -/
theorem Ordered.answers {commands : List CStr} {s : Session} {done replies : List ((Tag × ℕ) × ℕ)}
    {lost pending : List (Tag × ℕ)} (hs : Ordered commands s done replies lost pending)
    {k : ℕ} {p : Printed} (hp : s.printed[k]? = some p) :
    p.command = k ∧ ∃ m len, (messages commands s.sent)[k]? = some m ∧ 0 < len ∧
      p.answered = List.replicate len (block m) := by
  obtain ⟨hlt, -⟩ := List.getElem?_eq_some_iff.mp hp
  have hcommand := congrArg (·[k]?) hs.numbered
  simp only [List.getElem?_map, hp, Option.map_some, List.getElem?_range hlt,
    Option.some.injEq] at hcommand
  have hanswered := congrArg (·[k]?) hs.printed
  simp only [List.getElem?_map, hp, Option.map_some] at hanswered
  obtain ⟨r, hr, hblock⟩ := Option.map_eq_some_iff.mp hanswered.symm
  refine ⟨hcommand, r.1, r.2, ?_, hs.loud r (by simp [List.mem_of_getElem? hr]), hblock.symm⟩
  obtain ⟨hk, -⟩ := List.getElem?_eq_some_iff.mp hr
  rw [← hs.order, List.append_assoc, List.map_append, List.append_assoc,
    List.getElem?_append_left (by simpa using hk), List.getElem?_map, hr]
  rfl

theorem message_singleton {commands : List CStr} {k : ℕ} {m : Tag × ℕ}
    (h : m ∈ message commands k) : message commands k = [m] := by
  unfold message at h ⊢
  split at h
  · cases h
  · split_ifs at h with hc
    · cases h
    · simp [hc, List.mem_singleton.mp h]

theorem messages_split (commands : List CStr) {k n : ℕ} (hk : k < n) :
    ∃ rest, messages commands n = messages commands k ++ (message commands k ++ rest) := by
  induction n with
  | zero => omega
  | succ n ih =>
    rcases Nat.lt_succ_iff_lt_or_eq.mp hk with hlt | rfl
    · obtain ⟨rest, hrest⟩ := ih hlt
      exact ⟨rest ++ message commands n, by rw [messages_succ, hrest]; simp⟩
    · exact ⟨[], by rw [messages_succ, List.append_nil]⟩

theorem messages_command (commands : List CStr) {n k j len : ℕ} (hn : n ≤ commands.length) :
    (messages commands n)[j]? = some (.command k, len) ↔
      k < n ∧ message commands k = [(.command k, len)] ∧ j+empties commands k = k+1 := by
  have hplace (hk : k < n) (hm : message commands k = [(.command k, len)]) :
      (messages commands n)[(messages commands k).length]? = some (.command k, len) := by
    obtain ⟨rest, hrest⟩ := messages_split commands hk
    simp [hrest, hm]
  constructor
  · intro h
    have hmem := List.mem_of_getElem? h
    have hk : k < n := messages_tags commands n (List.mem_map.mpr ⟨_, hmem, rfl⟩)
    have hm : message commands k = [(.command k, len)] := by
      rcases List.mem_cons.mp hmem with he | hm
      · cases he
      · obtain ⟨i, -, hi⟩ := List.mem_flatMap.mp hm
        obtain rfl : k = i := by simpa using (mem_message hi).1
        exact message_singleton hi
    have hnodup := List.Nodup.of_map Prod.fst (messages_nodup commands n)
    obtain ⟨hj, -⟩ := List.getElem?_eq_some_iff.mp h
    have hat := (List.getElem?_inj hj hnodup).mp (h.trans (hplace hk hm).symm)
    have := messages_length commands k (by omega)
    exact ⟨hk, hm, by omega⟩
  · rintro ⟨hk, hm, hj⟩
    have := messages_length commands k (by omega)
    rw [show j = (messages commands k).length by omega]
    exact hplace hk hm

/-- The text printed for a command is the reply to it. -/
def Matches (commands : List CStr) (p : Printed) : Prop :=
  ∀ o ∈ p.answered, o = exactly commands p.command

theorem exactly_eq {commands : List CStr} {k : ℕ} {c : CStr} (hc : commands[k]? = some c) :
    exactly commands k = block (.command k, c.bytes.length) := by
  rw [exactly, block, List.getD_eq_getElem?_getD, hc]
  rfl

theorem message_eq {commands : List CStr} {k : ℕ} {c : CStr} (hc : commands[k]? = some c)
    (hne : c.bytes ≠ []) : message commands k = [(.command k, c.bytes.length)] := by
  rw [message, hc]
  dsimp only
  rw [if_neg hne]

/-- A text printed for a command is the reply to it if and only if the command
is not empty and exactly one command before it was. -/
theorem Ordered.matches_iff {commands : List CStr} {s : Session}
    {done replies : List ((Tag × ℕ) × ℕ)} {lost pending : List (Tag × ℕ)}
    (hs : Ordered commands s done replies lost pending) {p : Printed} (hp : p ∈ s.printed) :
    Matches commands p ↔
      message commands p.command ≠ [] ∧ empties commands p.command = 1 := by
  obtain ⟨k, hk⟩ := List.mem_iff_getElem?.mp hp
  obtain ⟨hcommand, m, len, hm, hpos, hanswered⟩ := hs.answers hk
  obtain ⟨hlt, -⟩ := List.getElem?_eq_some_iff.mp hk
  have hsent : k < s.sent := lt_of_lt_of_le hlt hs.printed_le
  have hin : k < commands.length := lt_of_lt_of_le hsent hs.sent_le
  have hc := List.getElem?_eq_getElem hin
  have hloud := messages_loud commands s.sent m (List.mem_of_getElem? hm)
  rw [Matches, hanswered, hcommand]
  have hall : (∀ o ∈ List.replicate len (block m), o = exactly commands k) ↔
      block m = exactly commands k := by
    simp [List.mem_replicate, Nat.ne_of_gt hpos]
  rw [hall, exactly_eq hc]
  by_cases hempty : commands[k].bytes = []
  · have hnone : message commands k = [] := by
      rw [message, hc]
      dsimp only
      rw [if_pos hempty]
    simp [hnone, hempty, block, Nat.ne_of_gt hloud]
  · have hone := message_eq hc hempty
    rw [hone]
    simp only [ne_eq, List.cons_ne_self, not_false_eq_true, true_and]
    constructor
    · intro h
      rw [block_inj hloud h] at hm
      have := ((messages_command commands hs.sent_le).mp hm).2.2
      omega
    · intro h
      have := (messages_command commands hs.sent_le).mpr ⟨hsent, hone, show k+_ = _ by omega⟩
      rw [this, Option.some.injEq] at hm
      rw [hm]

/-- Neither party can ever move again. -/
def Silent (cfg : Config) (s : Session) : Prop := ∀ a, step cfg a s = none

theorem silent_of_streams {cfg : Config} {s : Session} {u : BiboServer.State}
    (hpc : s.pc = .receiving) (hserver : s.server = some u) (hnext : u.next = .loop) :
    Silent cfg s ↔ s.toServer = [] ∧ s.toClient = [] := by
  constructor
  · intro h
    constructor
    · by_contra hne
      have hone := List.length_pos_iff.mpr hne
      have hstep := h (.serverRecv 1 true)
      simp only [step, hserver, hnext, le_refl, true_and] at hstep
      rw [if_pos ⟨by decide, hone⟩] at hstep
      split at hstep <;> cases hstep
    · by_contra hne
      have hone := List.length_pos_iff.mpr hne
      have hstep := h (.clientRecv 1)
      simp only [step, hpc, le_refl, true_and] at hstep
      rw [if_pos ⟨by decide, hone⟩] at hstep
      cases hstep
  · rintro ⟨hto, hfrom⟩ a
    cases a with
    | send => simp [step, hpc]
    | clientRecv n => simp [step, hfrom]; omega
    | clientEof => simp [step, hserver, hnext]
    | serverRecv n openOk => simp [step, hserver, hto]; omega

theorem Ordered.waits_iff {commands : List CStr} {cfg : Config} {s : Session}
    {u : BiboServer.State} {done replies : List ((Tag × ℕ) × ℕ)} {lost pending : List (Tag × ℕ)}
    (hs : Ordered commands s done replies lost pending) (hpc : s.pc = .receiving)
    (hserver : s.server = some u) (hnext : u.next = .loop) :
    Silent cfg s ↔ empties commands s.sent = 2 := by
  have hlost : lost = [] := by
    by_contra hne
    rw [hs.lost hne] at hserver
    cases hserver
  have hcount := congrArg List.length hs.order
  have hmessages := messages_length commands s.sent hs.sent_le
  have hprinted := congrArg List.length hs.printed
  have hturn := hs.receiving hpc
  simp only [hlost, List.length_append, List.length_map, List.length_nil] at hcount hprinted
  have hto : s.toServer = [] ↔ pending = [] := by
    rw [← List.map_eq_nil_iff (f := Prod.fst), hs.toServer, spread_eq_nil]
    intro m hm
    exact messages_loud commands s.sent m (by rw [← hs.order]; simp [hm])
  have hfrom : s.toClient = [] ↔ replies = [] := by
    rw [← List.map_eq_nil_iff (f := Prod.fst), hs.toClient, spread_eq_nil, List.map_eq_nil_iff]
    intro x hx
    obtain ⟨r, hr, rfl⟩ := List.mem_map.mp hx
    exact hs.loud r (List.mem_append_right _ hr)
  rw [silent_of_streams hpc hserver hnext, hto, hfrom, ← List.length_eq_zero_iff,
    ← List.length_eq_zero_iff]
  omega

/-- Whatever the commands and whatever the order in which the parties move, if
sends arrive one by one then the `k`-th text is a reply to the `k`-th message,
the PID being the first of them. It belongs to the `k`-th command only after
exactly one empty command, and the client that waits after a second one waits
for ever. -/
theorem session_law (pid : UInt32) (commands : List CStr) (cfg : Config)
    (clientResponse : Bytes) (files : Bytes → Option Bytes) (hfiles : Texts files)
    (response : Bytes) (as : List Act) (s : Session)
    (h : run (step cfg) as (start pid commands clientResponse files response) = some s)
    (hw : Meets (step cfg) OneByOne as (start pid commands clientResponse files response)) :
    (∀ (k : ℕ) (p : Printed), s.printed[k]? = some p → p.command = k ∧
      ∃ m len, (messages commands s.sent)[k]? = some m ∧ 0 < len ∧
        p.answered = List.replicate len (block m)) ∧
    (∀ p ∈ s.printed, Matches commands p ↔
      message commands p.command ≠ [] ∧ empties commands p.command = 1) ∧
    ∀ u, s.pc = .receiving → s.server = some u → u.next = .loop →
      (Silent cfg s ↔ empties commands s.sent = 2) := by
  obtain ⟨done, replies, lost, pending, hs⟩ :=
    guarded_invariant (step cfg) OneByOne (InOrder commands) inOrder_step as _ s
      (ordered_start pid clientResponse hfiles response) hw h
  refine ⟨fun k p hp => hs.answers hp, fun p hp => hs.matches_iff hp, ?_⟩
  intro u hpc hserver hnext
  exact hs.waits_iff hpc hserver hnext

/-- An empty line first, then `list`. -/
def emptyFirst : List CStr := [literal "", literal "list"]

def emptyFirstRun : List Act :=
  [.serverRecv 4 true, .send, .clientRecv 15, .send, .serverRecv 4 true, .clientRecv 23]

theorem session_law_empty_first : ∃ s,
    run (step ⟨ascii "srv", none⟩) emptyFirstRun
        (start 1234 emptyFirst [] (fun _ => none) []) = some s ∧
      ∃ p, s.printed[1]? = some p ∧ p.text = ascii "Error reading directory" ∧
        Matches emptyFirst p := by
  refine ⟨_, rfl, ⟨1, _, _⟩, rfl, by decide, ?_⟩
  refine ((session_law 1234 emptyFirst ⟨ascii "srv", none⟩ [] (fun _ => none)
    (fun _ _ h => by cases h) [] emptyFirstRun _ rfl ?_).2.1 _
    (List.mem_of_getElem? (i := 1) rfl)).mpr (by decide)
  refine ⟨⟨.preamble, rfl, by decide⟩, trivial,
    ⟨List.replicate 4 .preamble, rfl, by decide⟩, trivial,
    ⟨.command 1, rfl, by decide⟩, ⟨List.replicate 4 (.command 1), rfl, by decide⟩, trivial⟩

end CSE344.BiboSession
