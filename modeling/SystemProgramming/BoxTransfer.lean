import Mathlib.Algebra.Ring.Nat
import SystemProgramming.BoxServer

/-!
# Where the bytes of a BibakBOX connection go

The command loop records a message for every block that it reads, the inner
loop stores every block. So each byte that arrives is counted once, as part of
a message or as part of a file, and an open target takes all that follows.
-/

set_option autoImplicit false

namespace CSE344.BoxTransfer
open CString BoxServer

theorem serve_append (cfg : Config) (rs us : List Recv) (s : Conn) :
    serve cfg (rs++us) s = serve cfg us (serve cfg rs s) := List.foldl_append

theorem serve_cons (cfg : Config) (r : Recv) (rs : List Recv) (s : Conn) :
    serve cfg (r::rs) s = serve cfg rs (listed (onRecv cfg r s)) := rfl

@[simp] theorem listed_command {s : Conn} (h : s.mode = .command) : listed s = s := by
  simp [listed, h]

theorem listed_requests (s : Conn) : (listed s).requests = s.requests := by
  unfold listed; split <;> rfl

theorem receiveCommand_requests (r : Recv) (s : Conn) (hne : r.block ≠ [])
    (hlen : r.block.length < BoxServer.bufferSize) :
    (receiveCommand r s).requests =
      s.requests ++ [⟨r.block, (tokens (cstr r.block)).1, (tokens (cstr r.block)).2⟩] := by
  have hpair := strtok_pair (terminated r.block s.buffer)
  rw [cstrAt_terminated] at hpair
  rw [receiveCommand, if_neg hne, if_neg (by omega)]
  simp only [perform_requests, ← hpair]

theorem onRecv_requests (cfg : Config) (r : Recv) (s : Conn) :
    s.requests <+: (listed (onRecv cfg r s)).requests := by
  rw [listed_requests]
  unfold onRecv
  split
  · unfold receiveHello
    split_ifs <;> exact List.prefix_refl _
  · unfold receiveCommand
    split_ifs
    · exact List.prefix_refl _
    · exact List.prefix_refl _
    · simp only [perform_requests]
      exact List.prefix_append _ _
  · unfold receiveBody
    split_ifs
    · simp only [writeLog_requests, List.prefix_refl]
    · exact List.prefix_refl _
  · exact List.prefix_refl _

theorem serve_requests (cfg : Config) (rs : List Recv) (s : Conn) :
    s.requests <+: (serve cfg rs s).requests := by
  induction rs generalizing s with
  | nil => exact List.prefix_refl _
  | cons r rs ih => exact (onRecv_requests cfg r s).trans (ih _)

theorem serve_undefined (cfg : Config) (rs : List Recv) (s : Conn) (h : s.mode = .undefined) :
    (serve cfg rs s).mode = .undefined := by
  induction rs generalizing s with
  | nil => exact h
  | cons r rs ih =>
    rw [serve_cons]
    apply ih
    simp [onRecv, listed, h]

/-- What the open target holds so far. -/
def pending (s : Conn) : Bytes :=
  match s.mode with
  | .transfer path _ => (s.files path).getD []
  | _ => []

/-- Bytes that were parsed as messages or stored in files. -/
def weight (s : Conn) : ℕ :=
  (s.requests.map (fun q => q.message.length)).sum + (s.stored.map (fun f => f.2.length)).sum +
    (pending s).length

def Active (s : Conn) : Prop := s.mode = .command ∨ ∃ path p, s.mode = .transfer path p

theorem pending_command {s : Conn} (h : s.mode = .command) : pending s = [] := by
  simp [pending, h]

theorem openTarget_active (o : Outcome) (p : Option ℕ) (s : Conn) (h : s.mode = .command) :
    Active (openTarget o p s) ∧ pending (openTarget o p s) = [] := by
  unfold openTarget
  split
  · exact ⟨.inl h, pending_command h⟩
  · split_ifs
    · exact ⟨.inr ⟨_, _, rfl⟩, by simp [pending]⟩
    · exact ⟨.inl h, pending_command h⟩

theorem perform_active (o : Outcome) (op : Option Bytes) (p : Option ℕ) (s : Conn)
    (h : s.mode = .command) (hu : (perform o op p s).mode ≠ .undefined) :
    Active (perform o op p s) ∧ pending (perform o op p s) = [] := by
  cases op with
  | none => exact absurd rfl hu
  | some w =>
    simp only [perform]
    split_ifs
    · exact openTarget_active o p s h
    · unfold delete
      have hc : ∀ t : Conn, t.mode = .command → Active t ∧ pending t = [] :=
        fun t ht => ⟨.inl ht, pending_command ht⟩
      split_ifs
      · exact hc _ (by simpa using h)
      · exact hc _ h
    · unfold update
      split_ifs
      · exact openTarget_active o p _ h
      · exact ⟨.inl h, pending_command h⟩
    · exact ⟨.inl h, pending_command h⟩

theorem listed_active {s : Conn} (h : Active s) : listed s = s := by
  rcases h with h | ⟨path, p, h⟩ <;> simp [listed, h]

theorem onRecv_body (cfg : Config) {r : Recv} {s : Conn} {path : Bytes} {p : ℕ}
    (hs : s.mode = .transfer path p) (hne : r.block ≠ []) :
    onRecv cfg r s = { s with
      buffer := recvInto r.block s.buffer
      files := Function.update s.files path (some ((s.files path).getD [] ++ r.block)) } := by
  simp only [onRecv, hs, receiveBody, if_neg hne]

theorem listed_body (cfg : Config) {r : Recv} {s : Conn} {path : Bytes} {p : ℕ}
    (hs : s.mode = .transfer path p) (hne : r.block ≠ []) :
    listed (onRecv cfg r s) = { s with
      buffer := recvInto r.block s.buffer
      files := Function.update s.files path (some ((s.files path).getD [] ++ r.block)) } := by
  rw [onRecv_body cfg hs hne]
  exact listed_active (.inr ⟨path, p, hs⟩)

/-- Every byte received is parsed or stored. -/
theorem onRecv_weight (cfg : Config) (r : Recv) (s : Conn) (hs : Active s) (hne : r.block ≠ [])
    (hu : (onRecv cfg r s).mode ≠ .undefined) :
    Active (onRecv cfg r s) ∧ weight (onRecv cfg r s) = weight s + r.block.length := by
  rcases hs with hs | ⟨path, p, hs⟩
  · have hr : onRecv cfg r s = receiveCommand r s := by simp [onRecv, hs]
    rw [hr] at hu ⊢
    by_cases hlen : BoxServer.bufferSize ≤ r.block.length
    · simp [receiveCommand, hne, hlen] at hu
    have hreq := receiveCommand_requests r s hne (by omega)
    have hst : (receiveCommand r s).stored = s.stored := by
      rw [receiveCommand, if_neg hne, if_neg hlen]
      simp only [perform_stored]
    have hact : Active (receiveCommand r s) ∧ pending (receiveCommand r s) = [] := by
      rw [receiveCommand, if_neg hne, if_neg hlen] at hu ⊢
      exact perform_active _ _ _ _ hs hu
    refine ⟨hact.1, ?_⟩
    simp only [weight, hreq, hst, hact.2, pending_command hs, List.map_append, List.sum_append,
      List.map_cons, List.map_nil, List.sum_singleton, List.length_nil]
    omega
  · rw [onRecv_body cfg hs hne]
    refine ⟨.inr ⟨path, p, hs⟩, ?_⟩
    simp only [weight, pending, hs, Function.update_self, Option.getD_some, List.length_append]
    omega

theorem serve_weight (cfg : Config) (rs : List Recv) (s : Conn) (hs : Active s)
    (hne : ∀ r ∈ rs, r.block ≠ []) (hu : (serve cfg rs s).mode ≠ .undefined) :
    Active (serve cfg rs s) ∧
      weight (serve cfg rs s) = weight s + (rs.map (fun r => r.block.length)).sum := by
  induction rs generalizing s with
  | nil => exact ⟨hs, rfl⟩
  | cons r rs ih =>
    rw [serve_cons] at hu ⊢
    have hu' : (onRecv cfg r s).mode ≠ .undefined := by
      intro h
      exact hu (serve_undefined cfg rs _ (by simp [listed, h]))
    obtain ⟨ha, hw⟩ := onRecv_weight cfg r s hs (hne r (by simp)) hu'
    rw [listed_active ha] at hu ⊢
    obtain ⟨ha', hw'⟩ := ih _ ha (fun q hq => hne q (by simp [hq])) hu
    refine ⟨ha', ?_⟩
    rw [hw', hw, List.map_cons, List.sum_cons]
    omega

theorem eof_weight (cfg : Config) (o : Outcome) (s : Conn) (hs : Active s) :
    weight (listed (onRecv cfg ⟨[], o⟩ s)) = weight s ∧
      pending (listed (onRecv cfg ⟨[], o⟩ s)) = [] := by
  rcases hs with hs | ⟨path, p, hs⟩
  · have hr : listed (onRecv cfg ⟨[], o⟩ s) = { s with mode := .closed } := by
      simp [onRecv, hs, receiveCommand, listed]
    rw [hr]
    exact ⟨by simp [weight, pending, hs], rfl⟩
  · have hm : (onRecv cfg ⟨[], o⟩ s).mode = .command := by simp [onRecv, hs, receiveBody]
    rw [listed_command hm]
    refine ⟨?_, pending_command hm⟩
    rw [weight, pending_command hm]
    simp only [onRecv, hs, receiveBody, if_true, writeLog_requests, writeLog_stored, weight,
      pending, List.map_append, List.sum_append, List.map_cons, List.map_nil, List.sum_singleton,
      List.length_nil]
    omega

/-- While a target is open, every block of the connection goes into it. -/
theorem transfer_swallows (cfg : Config) (path : Bytes) (p : ℕ) (rs : List Recv) (s : Conn)
    (hs : s.mode = .transfer path p) (hne : ∀ r ∈ rs, r.block ≠ []) :
    (serve cfg rs s).mode = .transfer path p ∧ (serve cfg rs s).requests = s.requests ∧
      (serve cfg rs s).stored = s.stored ∧
      ((serve cfg rs s).files path).getD [] =
        (s.files path).getD [] ++ (rs.map Recv.block).flatten := by
  induction rs generalizing s with
  | nil => exact ⟨hs, rfl, rfl, by simp [serve]⟩
  | cons r rs ih =>
    rw [serve_cons, listed_body cfg hs (hne r (by simp))]
    obtain ⟨hm, hq, hst, hf⟩ := ih { s with
        buffer := recvInto r.block s.buffer
        files := Function.update s.files path (some ((s.files path).getD [] ++ r.block)) }
      hs (fun q hq => hne q (by simp [hq]))
    refine ⟨hm, hq, hst, ?_⟩
    rw [hf]
    simp

end CSE344.BoxTransfer
