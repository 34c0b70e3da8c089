import Mathlib.Data.List.Basic
import Mathlib.Data.List.Perm.Basic

/-!
# Maps from paths to values

The contents of a trie: a value for every path that has a node. Writing a path
makes the nodes on the way to it, with a blank value. Erasing a path blanks the
value of its node and leaves the node there; a path without a node is left
alone. Edits of different paths commute and edits are idempotent, so a batch of
edits can be made in any order, and once more, with the same result.
-/

set_option autoImplicit false

/-- The values of the paths that have a node. -/
abbrev PathMap (κ α : Type) := List κ → Option α

namespace PathMap

variable {κ α : Type}

/-- The part below the first step `k`. -/
def below (T : PathMap κ α) (k : κ) : PathMap κ α := fun path => T (k :: path)

/-- One node without a child. -/
def single (value : α) : PathMap κ α
  | [] => some value
  | _ :: _ => none

/-- No node. -/
def void : PathMap κ α := fun _ => none

variable [DecidableEq κ] (blank : α)

/-- Write a path and make the nodes on the way to it. -/
def set (T : PathMap κ α) (path : List κ) (value : α) : PathMap κ α := fun p =>
  if p = path then some value else if p <+: path then some ((T p).getD blank) else T p

/-- Blank the value of a path that has a node. -/
def clear (T : PathMap κ α) (path : List κ) : PathMap κ α := fun p =>
  if p = path then (T p).map fun _ => blank else T p

/-- Write the path, or clear it. -/
def edit (T : PathMap κ α) (e : List κ × Option α) : PathMap κ α :=
  match e.2 with
  | some value => T.set blank e.1 value
  | none => T.clear blank e.1

/-! ## Edits by the first step -/

variable {blank} {T : PathMap κ α} {k k' : κ} {path : List κ} {value : α}

theorem set_nil : T.set blank [] value = fun p => if p = [] then some value else T p := by
  funext p
  unfold set
  by_cases here : p = []
  · rw [if_pos here, if_pos here]
  · rw [if_neg here, if_neg here, if_neg (by simpa using here)]

theorem set_cons_nil : T.set blank (k :: path) value [] = some ((T []).getD blank) := by
  simp [set]

theorem below_set : (T.set blank (k :: path) value).below k = (T.below k).set blank path value := by
  funext p
  simp [below, set]

theorem below_set_of_ne (ne : k' ≠ k) : (T.set blank (k :: path) value).below k' = T.below k' := by
  funext p
  simp [below, set, ne]

/-- A missing node is made as a blank one. -/
theorem set_single : (single blank : PathMap κ α).set blank path value = void.set blank path value := by
  funext p
  unfold set
  cases p with
  | nil => simp [single, void]
  | cons k p => simp [single, void]

theorem clear_cons_nil : T.clear blank (k :: path) [] = T [] := by
  simp [clear]

theorem below_clear : (T.clear blank (k :: path)).below k = (T.below k).clear blank path := by
  funext p
  simp [below, clear]

theorem below_clear_of_ne (ne : k' ≠ k) : (T.clear blank (k :: path)).below k' = T.below k' := by
  funext p
  simp [below, clear, ne]

theorem clear_cons_of_below (same : (T.below k).clear blank path = T.below k) : T.clear blank (k :: path) = T := by
  funext p
  cases p with
  | nil => exact clear_cons_nil
  | cons k' p =>
    by_cases eq : k' = k
    · subst eq
      exact congrFun (below_clear.trans same) p
    · exact congrFun (below_clear_of_ne eq) p

/-- Clearing changes nothing where there is no node, or a blank one. -/
theorem clear_of_blank (blanked : ∀ v, T path = some v → v = blank) : T.clear blank path = T := by
  funext p
  unfold clear
  split
  · rename_i here
    subst here
    cases found : T p with
    | none => rfl
    | some v => rw [blanked v found]; rfl
  · rfl

/-! ## Batches of edits -/

variable {e e' : List κ × Option α}

omit [DecidableEq κ] in
@[simp] theorem getD_blanked (v : Option α) : (v.map fun _ => blank).getD blank = blank := by
  cases v <;> rfl

omit [DecidableEq κ] in
@[simp] theorem blanked_blanked (v : Option α) : (v.map fun _ => blank).map (fun _ => blank) = v.map fun _ => blank := by
  cases v <;> rfl

section Comm

variable (T) {path' : List κ} (ne : path ≠ path')
include ne

theorem set_comm (value value' : α) :
    (T.set blank path value).set blank path' value' = (T.set blank path' value').set blank path value := by
  funext p
  unfold set
  by_cases here : p = path
  · simp [here, ne]
  · by_cases there : p = path'
    · simp [there, Ne.symm ne]
    · simp only [here, there, if_false]
      split_ifs <;> rfl

/-- A node that is made on the way is blank, as clearing would leave it. -/
theorem clear_set_comm (value : α) :
    (T.set blank path value).clear blank path' = (T.clear blank path').set blank path value := by
  funext p
  unfold set clear
  by_cases there : p = path'
  · subst there
    simp only [if_true, Ne.symm ne, if_false, getD_blanked]
    split
    · rfl
    · rfl
  · simp only [there, if_false]

theorem clear_comm : (T.clear blank path).clear blank path' = (T.clear blank path').clear blank path := by
  funext p
  unfold clear
  by_cases here : p = path
  · simp [here, ne]
  · simp [here]

end Comm

/-- Edits of different paths commute. -/
theorem edit_comm (T : PathMap κ α) (ne : e.1 ≠ e'.1) :
    (T.edit blank e).edit blank e' = (T.edit blank e').edit blank e := by
  obtain ⟨path, value⟩ := e
  obtain ⟨path', value'⟩ := e'
  cases value with
  | none => cases value' with
    | none => exact clear_comm T ne
    | some value' => exact (clear_set_comm T (Ne.symm ne) value').symm
  | some value => cases value' with
    | none => exact clear_set_comm T ne value
    | some value' => exact set_comm T ne value value'

/-- An edit made twice. -/
theorem edit_idem (T : PathMap κ α) : (T.edit blank e).edit blank e = T.edit blank e := by
  obtain ⟨path, value⟩ := e
  funext p
  by_cases here : p = path
  · cases value with
    | none => simp only [edit, clear, here, if_true, blanked_blanked]
    | some value => simp only [edit, set, here, if_true]
  · cases value with
    | none => simp only [edit, clear, here, if_false]
    | some value =>
      simp only [edit, set, here, if_false]
      split
      · rfl
      · rfl

/-- All edits of a batch, one after the other. -/
def edits (blank : α) (T : PathMap κ α) (batch : List (List κ × Option α)) : PathMap κ α := batch.foldl (edit blank) T

variable {batch batch' : List (List κ × Option α)}

/-- The paths of a batch are different. -/
def Distinct (batch : List (List κ × Option α)) : Prop := ∀ e ∈ batch, ∀ e' ∈ batch, e.1 = e'.1 → e = e'

/-- **The order of a batch does not matter.** -/
theorem edits_perm (T : PathMap κ α) (distinct : Distinct batch) (perm : batch.Perm batch') :
    T.edits blank batch = T.edits blank batch' := by
  refine perm.foldl_eq' (fun e member e' member' T => ?_) T
  by_cases same : e.1 = e'.1
  · rw [distinct e member e' member' same]
  · exact edit_comm T same

/-- A later edit of a batch does not undo an earlier one. -/
theorem edit_edits (T : PathMap κ α) (distinct : Distinct batch) (member : e ∈ batch) :
    (T.edits blank batch).edit blank e = T.edits blank batch := by
  obtain ⟨front, back, split⟩ := List.append_of_mem member
  have last : batch.Perm (front ++ back ++ [e]) := by
    rw [split]
    exact List.perm_middle.trans (List.perm_append_singleton e (front ++ back)).symm
  rw [edits_perm T distinct last]
  simp only [edits, List.foldl_append, List.foldl_cons, List.foldl_nil]
  exact edit_idem _

/-- **A batch made twice.** -/
theorem edits_twice (T : PathMap κ α) (distinct : Distinct batch) (perm : batch'.Perm batch) :
    (T.edits blank batch).edits blank batch' = T.edits blank batch := by
  have absorbed : ∀ rest : List (List κ × Option α), (∀ e ∈ rest, e ∈ batch) →
      (T.edits blank batch).edits blank rest = T.edits blank batch := by
    intro rest
    induction rest with
    | nil => exact fun _ => rfl
    | cons e rest ih =>
      intro members
      have first : (T.edits blank batch).edit blank e = T.edits blank batch :=
        edit_edits T distinct (members e List.mem_cons_self)
      change ((T.edits blank batch).edit blank e).edits blank rest = _
      rw [first]
      exact ih fun e' member => members e' (List.mem_cons_of_mem e member)
  exact absorbed batch' fun e member => perm.subset member

/-! ## Edits that change nothing -/

/-- A node has the nodes on the way to it. -/
def Closed (T : PathMap κ α) : Prop := ∀ path p, p <+: path → T path ≠ none → T p ≠ none

/-- Writing a value that is there. -/
theorem set_present (closed : Closed T) (found : T path = some value) : T.set blank path value = T := by
  funext p
  unfold set
  split
  · rename_i here
    rw [here, found]
  · split
    · rename_i way
      obtain ⟨v, present⟩ := Option.ne_none_iff_exists'.mp (closed path p way (by simp [found]))
      rw [present]
      rfl
    · rfl

/-- Writing changes nothing exactly if the value is there. -/
theorem set_eq_iff (closed : Closed T) : T.set blank path value = T ↔ T path = some value := by
  constructor
  · intro same
    have here := congrFun same path
    rw [set, if_pos rfl] at here
    exact here.symm
  · exact set_present closed

/-- Clearing changes nothing exactly if there is no node, or a blank one. -/
theorem clear_eq_iff : T.clear blank path = T ↔ (T path).getD blank = blank := by
  constructor
  · intro same
    rw [← same, clear, if_pos rfl]
    exact getD_blanked _
  · intro empty
    refine clear_of_blank fun v found => ?_
    rw [found] at empty
    exact empty

theorem edits_append (T : PathMap κ α) (batch batch' : List (List κ × Option α)) :
    T.edits blank (batch ++ batch') = (T.edits blank batch).edits blank batch' := List.foldl_append

theorem edits_idle (idle : ∀ e ∈ batch, T.edit blank e = T) : T.edits blank batch = T := by
  induction batch with
  | nil => rfl
  | cons e batch ih =>
    change (T.edit blank e).edits blank batch = T
    rw [idle e List.mem_cons_self]
    exact ih fun e member => idle e (List.mem_cons_of_mem _ member)

end PathMap
