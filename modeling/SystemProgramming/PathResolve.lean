import Mathlib.Data.List.Infix
import Mathlib.Tactic.Common

/-!
# Resolving path names

A path is a word over some alphabet with a separator. Its components are the
pieces between separators, without the empty ones and those that mean "here".
Resolving walks them from a location, a list of names below the root, where
`up` drops the last name and the root is its own parent. Every walk has a
normal form: some steps up, then names to descend through.
-/

set_option autoImplicit false

namespace CSE344.PathResolve

section Walk

variable {β : Type*} [DecidableEq β] (up : β)

def walkStep (dir : List β) (c : β) : List β := if c = up then dir.dropLast else dir ++ [c]

def walk (dir cs : List β) : List β := cs.foldl (walkStep up) dir

/-- One component added to a normal form. -/
def climbStep (n : ℕ × List β) (c : β) : ℕ × List β :=
  if c = up then (if n.2 = [] then (n.1+1, []) else (n.1, n.2.dropLast)) else (n.1, n.2 ++ [c])

/-- How many steps above its start a walk gets, and the names it descends through from there. -/
def climb (cs : List β) : ℕ × List β := cs.foldl (climbStep up) (0, [])

/-- Where a normal form leads to. -/
def land (dir : List β) (n : ℕ × List β) : List β := dir.take (dir.length-n.1) ++ n.2

theorem walk_append (dir cs ds : List β) : walk up dir (cs++ds) = walk up (walk up dir cs) ds :=
  List.foldl_append

theorem land_step (dir : List β) (n : ℕ × List β) (c : β) :
    walkStep up (land dir n) c = land dir (climbStep up n c) := by
  unfold walkStep climbStep
  split_ifs with hup hnil
  · simp only [land, hnil, List.append_nil]
    rw [List.dropLast_eq_take, List.length_take, List.take_take]
    congr 1
    omega
  · simp only [land]
    rw [List.dropLast_append_of_ne_nil hnil]
  · simp only [land, List.append_assoc]

theorem walk_land (dir cs : List β) : walk up dir cs = land dir (climb up cs) := by
  have hfrom (n : ℕ × List β) :
      cs.foldl (walkStep up) (land dir n) = land dir (cs.foldl (climbStep up) n) := by
    induction cs generalizing n with
    | nil => rfl
    | cons c cs ih =>
      rw [List.foldl_cons, List.foldl_cons, land_step]
      exact ih _
  have hstart : land dir (0, []) = dir := by simp [land]
  calc walk up dir cs = cs.foldl (walkStep up) (land dir (0, [])) := by rw [hstart, walk]
    _ = land dir (climb up cs) := hfrom (0, [])

/-- The walk comes back to every name it has left by going up. -/
def Stays (dir cs : List β) : Prop := dir.drop (dir.length-(climb up cs).1) <+: (climb up cs).2

instance (dir cs : List β) : Decidable (Stays up dir cs) :=
  inferInstanceAs (Decidable (_ <+: _))

omit [DecidableEq β] in
theorem prefix_land_iff (dir : List β) (n : ℕ × List β) :
    dir <+: land dir n ↔ dir.drop (dir.length-n.1) <+: n.2 := by
  have hsplit := List.take_append_drop (dir.length-n.1) dir
  calc dir <+: land dir n
      ↔ dir.take (dir.length-n.1) ++ dir.drop (dir.length-n.1) <+: land dir n := by rw [hsplit]
    _ ↔ dir.drop (dir.length-n.1) <+: n.2 := List.prefix_append_right_inj _

theorem inside_walk_iff (dir cs : List β) : dir <+: walk up dir cs ↔ Stays up dir cs := by
  rw [walk_land]
  exact prefix_land_iff dir _

theorem climb_of_no_up {cs : List β} (h : up ∉ cs) : climb up cs = (0, cs) := by
  have hfrom (n : ℕ × List β) : cs.foldl (climbStep up) n = (n.1, n.2++cs) := by
    induction cs generalizing n with
    | nil => simp
    | cons c cs ih =>
      have hc : c ≠ up := fun hc => h (by simp [hc])
      rw [List.foldl_cons, ih (fun hmem => h (List.mem_cons_of_mem c hmem))]
      simp [climbStep, hc]
  exact hfrom (0, [])

/-- A walk that never goes above its start stays below it, wherever that is. -/
theorem stays_of_no_climb (dir : List β) {cs : List β} (h : (climb up cs).1 = 0) :
    Stays up dir cs := by
  rw [Stays, h]
  simp

end Walk

/-- The separator, and the components that mean "here" and "one level up". -/
structure Convention (α : Type*) where
  sep : α
  here : List α
  up : List α

section Resolve

variable {α : Type*} [DecidableEq α] (v : Convention α)

def components (path : List α) : List (List α) :=
  (path.splitOn v.sep).filter (fun c => c ≠ [] ∧ c ≠ v.here)

/-- The location a path denotes for a process in the working directory `cwd`. -/
def resolve (cwd : List (List α)) (path : List α) : List (List α) :=
  walk v.up (if path.head? = some v.sep then [] else cwd) (components v path)

/-- The directory in which the paths `dir/..` start; the empty `dir` is the root. -/
def anchor (cwd : List (List α)) (dir : List α) : List (List α) := resolve v cwd (dir ++ [v.sep])

theorem components_join (dir name : List α) :
    components v (dir ++ v.sep::name) = components v dir ++ components v name := by
  simp only [components, List.splitOn_append_cons_self, List.filter_append]

theorem components_nil : components v [] = [] := rfl

theorem anchor_of_ne_nil (cwd : List (List α)) {dir : List α} (h : dir ≠ []) :
    anchor v cwd dir = resolve v cwd dir := by
  obtain ⟨x, xs, rfl⟩ := List.exists_cons_of_ne_nil h
  have hc : components v (x::xs ++ [v.sep]) = components v (x::xs) := by
    rw [components_join, components_nil, List.append_nil]
  simp only [anchor, resolve, hc]
  rfl

theorem resolve_join (cwd : List (List α)) (dir name : List α) :
    resolve v cwd (dir ++ v.sep::name) = walk v.up (anchor v cwd dir) (components v name) := by
  have hhead : (dir ++ v.sep::name).head? = (dir ++ [v.sep]).head? := by
    cases dir <;> rfl
  simp only [resolve, anchor, hhead, components_join, components_nil, List.append_nil, walk_append]

/-- A path below a directory denotes something in it exactly if its name stays there. -/
theorem inside_iff (cwd : List (List α)) (dir name : List α) :
    anchor v cwd dir <+: resolve v cwd (dir ++ v.sep::name) ↔
      Stays v.up (anchor v cwd dir) (components v name) := by
  rw [resolve_join]
  exact inside_walk_iff _ _ _

theorem components_name {c : List α} (hsep : v.sep ∉ c) (hne : c ≠ []) (hhere : c ≠ v.here) :
    components v c = [c] := by
  rw [components, List.splitOn_eq_singleton hsep]
  simp [hne, hhere]

theorem resolve_join_last (cwd : List (List α)) (dir : List α) {c : List α} (hsep : v.sep ∉ c)
    (hne : c ≠ []) (hhere : c ≠ v.here) (hup : c ≠ v.up) :
    (resolve v cwd (dir ++ v.sep::c)).getLast? = some c := by
  rw [resolve_join, components_name v hsep hne hhere]
  simp [walk, walkStep, hup]

theorem resolve_last (cwd : List (List α)) (front : List α) {tail : List α} (hsep : v.sep ∉ tail)
    (hne : tail ≠ []) (hhere : v.here.length < tail.length) (hup : v.up.length < tail.length) :
    ∃ c, tail <:+ c ∧ (resolve v cwd (front++tail)).getLast? = some c := by
  have hlong {c : List α} (h : tail <:+ c) : c ≠ [] ∧ c ≠ v.here ∧ c ≠ v.up := by
    have hlen := h.length_le
    refine ⟨?_, ?_, ?_⟩
    · rintro rfl
      exact hne (List.suffix_nil.mp h)
    · rintro rfl
      omega
    · rintro rfl
      omega
  by_cases hmem : v.sep ∈ front
  · obtain ⟨dir, name, hname, rfl⟩ : ∃ dir name, v.sep ∉ name ∧ front = dir ++ v.sep::name := by
      obtain ⟨as, bs, heq, has⟩ := List.eq_append_cons_of_mem (List.mem_reverse.mpr hmem)
      refine ⟨bs.reverse, as.reverse, by simpa using has, ?_⟩
      rw [← List.reverse_reverse front, heq]
      simp
    have hc : tail <:+ name++tail := List.suffix_append _ _
    obtain ⟨h1, h2, h3⟩ := hlong hc
    refine ⟨name++tail, hc, ?_⟩
    rw [List.append_assoc, List.cons_append]
    exact resolve_join_last v cwd dir (by simp [hname, hsep]) h1 h2 h3
  · have hc : tail <:+ front++tail := List.suffix_append _ _
    obtain ⟨h1, h2, h3⟩ := hlong hc
    refine ⟨front++tail, hc, ?_⟩
    have hhead : (front++tail).head? ≠ some v.sep := by
      intro hs
      have := List.mem_of_head? hs
      simp [hmem, hsep] at this
    rw [resolve, components_name v (by simp [hmem, hsep]) h1 h2, if_neg hhead]
    simp [walk, walkStep, h3]

end Resolve

end CSE344.PathResolve
