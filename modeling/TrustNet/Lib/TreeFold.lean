import TrustNet.Lib.ParentTree

/-!
# Folds along the branches of a tree

Every node of a tree has a state, which follows from the state of its parent by one step.
Then the state of a node is the fold of the steps along its branch.
-/

namespace ParentTree
set_option autoImplicit false

variable {α σ : Type} {parent : α → Option α} {g a : α}

/-- The nodes on the way down from `g` to a node, without `g`. -/
inductive PathTo (parent : α → Option α) (g : α) : α → List α → Prop where
  | root : PathTo parent g g []
  | child {c p : α} {path : List α} (edge : parent c = some p) (above : PathTo parent g p path) :
      PathTo parent g c (path ++ [c])

theorem Anc.exists_path (up : Anc parent a g) : ∃ path, PathTo parent g a path := by
  induction up using Relation.ReflTransGen.head_induction_on with
  | refl => exact ⟨[], .root⟩
  | head edge _ ih =>
    obtain ⟨path, above⟩ := ih
    exact ⟨path ++ [_], .child edge above⟩

/-- The path has the branch of the node, down to `g`. -/
theorem PathTo.mem_iff {path : List α} (top : parent g = none) (down : PathTo parent g a path) (x : α) :
    x ∈ path ↔ Anc parent a x ∧ x ≠ g := by
  induction down with
  | root =>
    constructor
    · intro member
      cases member
    · rintro ⟨up, ne⟩
      rcases up.cases_head with same | ⟨p, edge, -⟩
      · exact absurd same.symm ne
      · rw [top] at edge
        cases edge
  | @child c p path edge above ih =>
    rw [List.mem_append, ih, List.mem_singleton]
    constructor
    · rintro (⟨up, ne⟩ | rfl)
      · exact ⟨Anc.head edge up, ne⟩
      · refine ⟨Anc.refl, fun same => ?_⟩
        rw [same, top] at edge
        cases edge
    · rintro ⟨up, ne⟩
      rcases up.cases_head with same | ⟨q, first, rest⟩
      · exact Or.inr same.symm
      · rw [edge, Option.some.injEq] at first
        subst first
        exact Or.inl ⟨rest, ne⟩

/-- **The state of a node is the fold along its branch.** -/
theorem PathTo.foldlM {step : σ → α → Option σ} {state : α → σ} {path : List α} (down : PathTo parent g a path)
    (follows : ∀ c p, Anc parent a c → parent c = some p → step (state p) c = some (state c)) :
    path.foldlM step (state g) = some (state a) := by
  induction down with
  | root => rfl
  | @child c p path edge above ih =>
    rw [List.foldlM_append, ih fun x y up => follows x y (Anc.head edge up)]
    change [c].foldlM step (state p) = some (state c)
    rw [List.foldlM_cons, follows c p Anc.refl edge]
    rfl

end ParentTree
