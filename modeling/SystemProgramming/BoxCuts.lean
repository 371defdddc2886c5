import SystemProgramming.BoxClient
import SystemProgramming.BoxServer

/-!
# How the stream is cut into blocks

The client writes its directory name, its listing and then pairs of an
operation and a name, with nothing between them. The server takes each block
that `recv` returns as one whole message, so what it sees depends on the
places where the stream is cut.
-/

set_option autoImplicit false

namespace CSE344.BoxCuts
open CString BoxClient BoxServer

structure Stream where
  directory : CStr
  listing : List CStr
  requests : List (Header × CStr)

def Stream.sends (s : Stream) : List Bytes :=
  hello s.directory s.listing ++
    s.requests.flatMap (fun q => [q.1.bytes, q.2.bytes])

def Stream.bytes (s : Stream) : Bytes := s.sends.flatten

/-- A way for `recv` to return the stream. -/
def Cut (stream : Bytes) (blocks : List Bytes) : Prop :=
  blocks.flatten = stream ∧ ∀ b ∈ blocks, 1 ≤ b.length ∧ b.length < BoxServer.bufferSize

/-- The connection after the blocks; `env` is what the calls made for a block
return. -/
def served (cfg : Config) (env : Bytes → Outcome) (blocks : List Bytes) (s : Conn) : Conn :=
  serve cfg (blocks.map (fun b => ⟨b, env b⟩)) s

/-- The client directory settled on and the requests performed. -/
def observed (s : Conn) : Bytes × List (Option Bytes × Option Bytes) :=
  (s.clientDir, s.requests.map (fun q => (q.operation, q.filename)))

def Uniform (stream : Bytes) : Prop :=
  ∀ (cfg : Config) (env : Bytes → Outcome) (buffer : Bytes) (files : Bytes → Option Bytes)
    (c d : List Bytes), Cut stream c → Cut stream d →
    observed (served cfg env c (accepted buffer files)) =
      observed (served cfg env d (accepted buffer files))

theorem openTarget_clientDir (o : Outcome) (p : Option ℕ) (s : Conn) :
    (openTarget o p s).clientDir = s.clientDir := by
  unfold openTarget; split <;> [rfl; (split_ifs <;> rfl)]

theorem openTarget_hello (o : Outcome) (p : Option ℕ) (s : Conn) (h : s.mode ≠ .hello) :
    (openTarget o p s).mode ≠ .hello := by
  unfold openTarget; split <;> [exact h; (split_ifs <;> simp [h])]

theorem perform_clientDir (o : Outcome) (op : Option Bytes) (p : Option ℕ) (s : Conn)
    (h : s.mode ≠ .hello) :
    (perform o op p s).clientDir = s.clientDir ∧ (perform o op p s).mode ≠ .hello := by
  unfold perform upload delete update
  split
  · exact ⟨rfl, by simp⟩
  · split_ifs
    · exact ⟨openTarget_clientDir o p s, openTarget_hello o p s h⟩
    · exact ⟨by simp [removeFile], by simpa [removeFile] using h⟩
    · exact ⟨rfl, h⟩
    · exact ⟨openTarget_clientDir o p _, openTarget_hello o p _ h⟩
    · exact ⟨rfl, h⟩
    · exact ⟨rfl, h⟩

theorem onRecv_clientDir (cfg : Config) (r : Recv) (s : Conn) (h : s.mode ≠ .hello) :
    (listed (onRecv cfg r s)).clientDir = s.clientDir ∧
      (listed (onRecv cfg r s)).mode ≠ .hello := by
  have hkeep : (onRecv cfg r s).clientDir = s.clientDir ∧ (onRecv cfg r s).mode ≠ .hello := by
    unfold onRecv
    split
    · contradiction
    · unfold receiveCommand
      split_ifs
      · exact ⟨rfl, by simp⟩
      · exact ⟨rfl, by simp⟩
      · exact perform_clientDir _ _ _ _ h
    · unfold receiveBody
      split_ifs
      · exact ⟨by simp, by simp⟩
      · exact ⟨rfl, h⟩
    · exact ⟨rfl, h⟩
  unfold listed
  split
  · exact ⟨hkeep.1, by simp⟩
  · exact hkeep

theorem serve_clientDir (cfg : Config) (rs : List Recv) (s : Conn) (h : s.mode ≠ .hello) :
    (serve cfg rs s).clientDir = s.clientDir := by
  induction rs generalizing s with
  | nil => rfl
  | cons r rs ih =>
    obtain ⟨hdir, hmode⟩ := onRecv_clientDir cfg r s h
    exact (ih _ hmode).trans hdir

theorem served_clientDir (cfg : Config) (env : Bytes → Outcome) (b : Bytes) (bs : List Bytes)
    (buffer : Bytes) (files : Bytes → Option Bytes) (hne : b ≠ [])
    (hlen : b.length < BoxServer.bufferSize) :
    (served cfg env (b::bs) (accepted buffer files)).clientDir =
      snprintf 1028 (joinPath cfg.directory (cstr b)) := by
  have hfirst : onRecv cfg ⟨b, env b⟩ (accepted buffer files) =
      receiveHello cfg ⟨b, env b⟩ (accepted buffer files) := rfl
  have hsize : ¬ BoxServer.bufferSize ≤ b.length := by omega
  have hserve : served cfg env (b::bs) (accepted buffer files) =
      serve cfg (bs.map (fun b => ⟨b, env b⟩))
        (listed (receiveHello cfg ⟨b, env b⟩ (accepted buffer files))) := rfl
  rw [hserve, serve_clientDir]
  · simp [receiveHello, hne, hsize, listed, cstrAt_terminated]
  · simp [receiveHello, hne, hsize, listed]

/-- The stream as blocks of one byte. -/
def bytewise (stream : Bytes) : List Bytes := stream.map (fun b => [b])

theorem bytewise_flatten (stream : Bytes) : (bytewise stream).flatten = stream := by
  induction stream with
  | nil => rfl
  | cons b stream ih => exact congrArg (b :: ·) ih

theorem bytewise_cut (stream : Bytes) : Cut stream (bytewise stream) := by
  refine ⟨bytewise_flatten stream, fun b hb => ?_⟩
  obtain ⟨x, -, rfl⟩ := List.mem_map.mp hb
  simp [BoxServer.bufferSize]

theorem cut_cons {stream b : Bytes} {bs : List Bytes} (hcut : Cut stream bs) (hne : 1 ≤ b.length)
    (hlen : b.length < BoxServer.bufferSize) : Cut (b++stream) (b::bs) := by
  refine ⟨by rw [List.flatten_cons, hcut.1], fun c hc => ?_⟩
  rcases List.mem_cons.mp hc with rfl | hc
  · exact ⟨hne, hlen⟩
  · exact hcut.2 c hc

theorem cut_nil {bs : List Bytes} (h : Cut [] bs) : bs = [] := by
  rcases bs with - | ⟨b, bs⟩
  · rfl
  · have hb := (h.2 b (by simp)).1
    have := congrArg List.length h.1
    simp at this
    simp [this.1] at hb

theorem cut_singleton {x : UInt8} {bs : List Bytes} (h : Cut [x] bs) : bs = [[x]] := by
  rcases bs with - | ⟨b, bs⟩
  · simpa using h.1
  · have hb := (h.2 b (by simp)).1
    have hflat := h.1
    rw [List.flatten_cons] at hflat
    rcases List.append_eq_singleton_iff.mp hflat with ⟨rfl, -⟩ | ⟨rfl, hrest⟩
    · simp at hb
    · rw [cut_nil ⟨hrest, fun c hc => h.2 c (by simp [hc])⟩]

theorem stream_noNul (s : Stream) : 0 ∉ s.bytes := by
  intro h
  obtain ⟨m, hm, hz⟩ := List.mem_flatten.mp h
  rcases List.mem_append.mp hm with hm | hm
  · exact hello_noNul s.directory s.listing m hm hz
  · obtain ⟨q, -, hq⟩ := List.mem_flatMap.mp hm
    rcases List.mem_pair.mp hq with rfl | rfl
    · exact q.1.noNul hz
    · exact q.2.noNul hz

/-- Two first blocks of different lengths give two client directories. -/
theorem first_block_shows (x y : UInt8) (rest : Bytes) (hx : x ≠ 0) (hy : y ≠ 0) :
    ¬ Uniform (x::y::rest) := by
  intro h
  have hone : Cut (x::y::rest) ([x] :: bytewise (y::rest)) := bytewise_cut (x::y::rest)
  have htwo : Cut (x::y::rest) ([x, y] :: bytewise rest) :=
    cut_cons (bytewise_cut rest) (by simp) (by simp [BoxServer.bufferSize])
  have hsame := congrArg Prod.fst
    (h ⟨[], fun _ => none⟩ (fun _ => ⟨true, true, true, []⟩) [] (fun _ => none) _ _ hone htwo)
  simp only [observed] at hsame
  rw [served_clientDir _ _ _ _ _ _ (by simp) (by simp [BoxServer.bufferSize]),
    served_clientDir _ _ _ _ _ _ (by simp) (by simp [BoxServer.bufferSize])] at hsame
  simp [snprintf, joinPath, cstr, hx, hy, ascii] at hsame

/-- What the server sees depends on the cuts as soon as there is one to make. -/
theorem uniform_iff (s : Stream) : Uniform s.bytes ↔ s.bytes.length ≤ 1 := by
  have hnul := stream_noNul s
  generalize s.bytes = stream at hnul ⊢
  constructor
  · intro h
    by_contra hlen
    obtain ⟨x, y, rest, rfl⟩ : ∃ x y rest, stream = x::y::rest := by
      match stream, hlen with
      | [], hlen | [_], hlen => simp at hlen
      | x::y::rest, _ => exact ⟨x, y, rest, rfl⟩
    simp only [List.mem_cons, not_or] at hnul
    exact first_block_shows x y rest (Ne.symm hnul.1) (Ne.symm hnul.2.1) h
  · intro hlen cfg env buffer files c d hc hd
    have heq : c = d := by
      match stream, hlen with
      | [], _ => rw [cut_nil hc, cut_nil hd]
      | [x], _ => rw [cut_singleton hc, cut_singleton hd]
      | _::_::_, hlen => simp at hlen
    rw [heq]

def deleteA : Stream := ⟨literal "d", [], [(.delete, literal "a")]⟩

/-- One stream cut three ways: the delete is performed, it is lost, or it
becomes part of the directory name. -/
theorem cuts_change_requests :
    Cut deleteA.bytes [ascii "d", ascii "delete:a"] ∧
    Cut deleteA.bytes [ascii "d", ascii "delete:", ascii "a"] ∧
    Cut deleteA.bytes [ascii "ddelete:a"] ∧
    observed (served ⟨ascii "srv", fun _ => none⟩ (fun _ => ⟨true, true, true, []⟩)
        [ascii "d", ascii "delete:a"] (accepted [] (fun _ => none))) =
      (ascii "srv/d", [(some (ascii "delete"), some (ascii "a"))]) ∧
    observed (served ⟨ascii "srv", fun _ => none⟩ (fun _ => ⟨true, true, true, []⟩)
        [ascii "d", ascii "delete:", ascii "a"] (accepted [] (fun _ => none))) =
      (ascii "srv/d", [(some (ascii "delete"), none), (some (ascii "a"), none)]) ∧
    observed (served ⟨ascii "srv", fun _ => none⟩ (fun _ => ⟨true, true, true, []⟩)
        [ascii "ddelete:a"] (accepted [] (fun _ => none))) = (ascii "srv/ddelete:a", []) ∧
    ¬ Uniform deleteA.bytes := by
  have hc : Cut deleteA.bytes [ascii "d", ascii "delete:a"] := by unfold Cut; decide
  have hd : Cut deleteA.bytes [ascii "d", ascii "delete:", ascii "a"] := by unfold Cut; decide
  have he : Cut deleteA.bytes [ascii "ddelete:a"] := by unfold Cut; decide
  refine ⟨hc, hd, he, by decide, by decide, by decide, fun h => ?_⟩
  exact absurd (h ⟨ascii "srv", fun _ => none⟩ (fun _ => ⟨true, true, true, []⟩) []
    (fun _ => none) _ _ hc hd) (by decide)

end CSE344.BoxCuts
