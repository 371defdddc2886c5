import SystemProgramming.BoxTransfer

/-!
# The tokens of a message

`strtok` returns a null pointer when only colons are left before the first
NUL. The command loop hands both tokens on without a look.
-/

set_option autoImplicit false

namespace CSE344.BoxParser
open CString BoxServer

/-- What stands behind the colons before the first word of a text. -/
def operationOn (text : Bytes) : Bytes := text.dropWhile (· ∈ colon)

/-- What stands behind the first word and the colons after it. -/
def filenameOn (text : Bytes) : Bytes :=
  ((operationOn text).dropWhile (· ∉ colon)).dropWhile (· ∈ colon)

def fileOperations : List Bytes := [ascii "upload", ascii "delete", ascii "update"]

/-- No null pointer is handed to `strcmp`, and none is used as a file name. -/
def Safe (q : Request) : Prop :=
  q.operation ≠ none ∧ ∀ op ∈ q.operation, op ∈ fileOperations → q.filename ≠ none

/-- A word stands before the first NUL, and another behind it if the first
asks for a file. -/
def Parsable (text : Bytes) : Prop :=
  (∃ b ∈ text, b ∉ colon) ∧
    ((operationOn text).takeWhile (· ∉ colon) ∈ fileOperations →
      ∃ b ∈ (operationOn text).dropWhile (· ∉ colon), b ∉ colon)

theorem operationOn_nil (text : Bytes) : operationOn text = [] ↔ ∀ b ∈ text, b ∈ colon := by
  rw [operationOn, List.dropWhile_eq_nil_iff]
  simp only [decide_eq_true_eq]

theorem filenameOn_nil (text : Bytes) : filenameOn text = [] ↔
    ∀ b ∈ (operationOn text).dropWhile (· ∉ colon), b ∈ colon := by
  rw [filenameOn, List.dropWhile_eq_nil_iff]
  simp only [decide_eq_true_eq]

theorem tokens_eq (text : Bytes) : tokens text =
    (if operationOn text = [] then none else some ((operationOn text).takeWhile (· ∉ colon)),
      if filenameOn text = [] then none else some ((filenameOn text).takeWhile (· ∉ colon))) := by
  unfold tokens nextToken
  dsimp only
  by_cases hop : operationOn text = []
  · have hfile : filenameOn text = [] := by
      rw [filenameOn, hop]
      rfl
    rw [if_pos hop, if_pos hfile]
    rw [operationOn] at hop
    rw [if_pos hop]
  · have hdrop := dropWhile_tail colon (operationOn text)
    rw [if_neg hop]
    rw [operationOn] at hop
    rw [if_neg hop]
    dsimp only
    rw [filenameOn, hdrop, operationOn]
    split_ifs <;> rfl

/-- A message is parsed without a null pointer just where its words are there. -/
theorem parser_safe_iff {r : Recv} {s : Conn} (hne : 1 ≤ r.block.length)
    (hlen : r.block.length ≤ 1023) :
    (∃ q, (receiveCommand r s).requests = s.requests ++ [q] ∧ Safe q) ↔
      Parsable (cstr r.block) := by
  have hrequest := BoxTransfer.receiveCommand_requests r s (List.length_pos_iff.mp hne)
    (Nat.lt_succ_of_le hlen)
  have hone : (∃ q, (receiveCommand r s).requests = s.requests ++ [q] ∧ Safe q) ↔
      Safe ⟨r.block, (tokens (cstr r.block)).1, (tokens (cstr r.block)).2⟩ := by
    rw [hrequest]
    simp only [List.append_cancel_left_eq, List.cons.injEq, and_true, exists_eq_left']
  have hop := (operationOn_nil (cstr r.block)).not
  have hfile := (filenameOn_nil (cstr r.block)).not
  simp only [not_forall, exists_prop] at hop hfile
  rw [hone, Safe, Parsable, tokens_eq, ← hop, ← hfile]
  dsimp only
  by_cases hnone : operationOn (cstr r.block) = []
  · simp [hnone]
  · rw [if_neg hnone]
    simp only [ne_eq, reduceCtorEq, not_false_eq_true, true_and, Option.mem_def,
      Option.some.injEq, forall_eq', hnone]
    split_ifs with hmissing <;> simp [hmissing]

def received (message : String) : Recv := ⟨ascii message, ⟨true, true, true, []⟩⟩

def waiting : Conn :=
  { accepted (List.replicate 1024 0) (fun _ => none) with mode := .command }

theorem parser_safe_iff_delete :
    ∃ q, (receiveCommand (received "delete:a") waiting).requests = waiting.requests ++ [q] ∧
      Safe q :=
  (parser_safe_iff (r := received "delete:a") (by decide) (by decide)).mpr
    ⟨⟨100, by decide, by decide⟩,
      fun _ => ⟨97, by decide, by decide⟩⟩

/-- A colon alone has no operation, and `upload:` no name. -/
theorem null_tokens :
    (receiveCommand (received ":") waiting).requests =
      waiting.requests ++ [⟨ascii ":", none, none⟩] ∧
    ¬ Safe ⟨ascii ":", none, none⟩ ∧
    (receiveCommand (received "upload:") waiting).requests =
      waiting.requests ++ [⟨ascii "upload:", some (ascii "upload"), none⟩] ∧
    ¬ Safe ⟨ascii "upload:", some (ascii "upload"), none⟩ := by
  have hupload : ascii "upload" ∈ fileOperations := by decide
  refine ⟨by decide, fun h => h.1 rfl, by decide, fun h => h.2 _ rfl hupload rfl⟩

end CSE344.BoxParser
