import Mathlib.Data.List.Nodup
import Mathlib.Logic.Relation

/-!
# Forests given by a parent function

Every node has at most one parent, so the ancestors of a node form a chain.
`Ranked` rules out cycles. The last section is the set-level argument for a
change of branch: a walk up from `p` to the first node `q` of the old branch, and a
walk down the old branch from `q`, leave the branch of `p`.
-/

namespace ParentTree
set_option autoImplicit false

variable {α : Type}

/-- `b` is `a` or one of its ancestors. -/
def Anc (parent : α → Option α) (a b : α) : Prop := Relation.ReflTransGen (fun x y => parent x = some y) a b

/-- Parents rank below their children. -/
def Ranked (parent : α → Option α) (rank : α → Nat) : Prop := ∀ a b, parent a = some b → rank b < rank a

variable {parent parent' : α → Option α} {rank : α → Nat} {a b c m p q x : α}

theorem Anc.refl : Anc parent a a := Relation.ReflTransGen.refl

theorem Anc.trans (first : Anc parent a b) (second : Anc parent b c) : Anc parent a c :=
  Relation.ReflTransGen.trans first second

theorem Anc.head (edge : parent a = some b) (rest : Anc parent b c) : Anc parent a c :=
  Relation.ReflTransGen.head edge rest

theorem Anc.single (edge : parent a = some b) : Anc parent a b := Anc.head edge Anc.refl

theorem Anc.cases_head (h : Anc parent a b) : a = b ∨ ∃ p, parent a = some p ∧ Anc parent p b :=
  Relation.ReflTransGen.cases_head h

/-- The last edge on the way from a proper descendant. -/
theorem Anc.child (h : Anc parent a b) (ne : a ≠ b) : ∃ c, Anc parent a c ∧ parent c = some b := by
  rcases Relation.ReflTransGen.cases_tail h with eq | last
  · exact absurd eq.symm ne
  · exact last

/-- Ancestors of one node are comparable. -/
theorem Anc.total (left : Anc parent a b) (right : Anc parent a c) : Anc parent b c ∨ Anc parent c b := by
  refine Relation.ReflTransGen.total_of_right_unique (fun x y z xy xz => ?_) left right
  rw [xy] at xz
  exact Option.some.inj xz

theorem Anc.rank_le (ranked : Ranked parent rank) (h : Anc parent a b) : rank b ≤ rank a := by
  induction h with
  | refl => exact Nat.le_refl _
  | tail _ edge ih => exact Nat.le_trans (Nat.le_of_lt (ranked _ _ edge)) ih

theorem Anc.antisymm (ranked : Ranked parent rank) (ab : Anc parent a b) (ba : Anc parent b a) : a = b := by
  rcases ab.cases_head with eq | ⟨p, edge, rest⟩
  · exact eq
  · have below := ranked _ _ edge
    have up := Anc.rank_le ranked (rest.trans ba)
    omega

/-- A parent is not a descendant of its child. -/
theorem Ranked.not_anc_child (ranked : Ranked parent rank) (edge : parent c = some q) : ¬ Anc parent q c := by
  intro h
  have below := ranked _ _ edge
  have up := h.rank_le ranked
  omega

/-- At most one child of a node lies on the branch of `m`. -/
theorem Anc.child_unique (ranked : Ranked parent rank) (ma : Anc parent m a) (mb : Anc parent m b)
    (edgeA : parent a = some q) (edgeB : parent b = some q) : a = b := by
  rcases ma.total mb with ab | ba
  · rcases ab.cases_head with eq | ⟨p, edge, rest⟩
    · exact eq
    · rw [edgeA] at edge
      cases edge
      exact absurd rest (ranked.not_anc_child edgeB)
  · rcases ba.cases_head with eq | ⟨p, edge, rest⟩
    · exact eq.symm
    · rw [edgeB] at edge
      cases edge
      exact absurd rest (ranked.not_anc_child edgeA)

/-- Below `q`, the branch of `m` runs through the child `c` of `q`. -/
theorem Anc.through_child (ranked : Ranked parent rank) (mc : Anc parent m c) (edge : parent c = some q)
    (ma : Anc parent m a) : Anc parent a c ↔ Anc parent a q ∧ a ≠ q := by
  constructor
  · intro ac
    refine ⟨ac.trans (Anc.single edge), fun eq => ?_⟩
    subst eq
    exact ranked.not_anc_child edge ac
  · rintro ⟨aq, ne⟩
    obtain ⟨c', ac', edge'⟩ := aq.child ne
    rw [Anc.child_unique ranked mc (ma.trans ac') edge edge']
    exact ac'

theorem Anc.mono (imp : ∀ x y, parent x = some y → parent' x = some y) (up : Anc parent a b) : Anc parent' a b :=
  Relation.ReflTransGen.mono imp a b up

/-- Ancestry only depends on the parents of a set that is closed under parents. -/
theorem Anc.congr {S : α → Prop} (closed : ∀ y, S y → ∀ z, parent y = some z → S z)
    (agree : ∀ y, S y → parent' y = parent y) (member : S a) : Anc parent' a b ↔ Anc parent a b := by
  constructor
  · intro h
    induction h using Relation.ReflTransGen.head_induction_on with
    | refl => exact Anc.refl
    | @head y z edge _ ih =>
      rw [agree y member] at edge
      exact Anc.head edge (ih (closed y member z edge))
  · intro h
    induction h using Relation.ReflTransGen.head_induction_on with
    | refl => exact Anc.refl
    | @head y z edge _ ih =>
      refine Anc.head ?_ (ih (closed y member z edge))
      rw [agree y member]
      exact edge

section Leaf

variable (leaf : ∀ y, parent y ≠ some x) (agree : ∀ y, y ≠ x → parent' y = parent y)
include leaf agree

/-- A new leaf is nobody's ancestor but its own. -/
theorem anc_of_ne_leaf (ne : a ≠ x) : Anc parent' a b ↔ Anc parent a b := by
  refine Anc.congr (fun y _ z edge => ?_) agree ne
  intro eq
  subst eq
  exact leaf y edge

theorem anc_leaf (edge : parent' x = some p) (ne : p ≠ x) : Anc parent' x b ↔ b = x ∨ Anc parent p b := by
  constructor
  · intro h
    rcases h.cases_head with eq | ⟨p', edge', rest⟩
    · exact Or.inl eq.symm
    · rw [edge] at edge'
      cases edge'
      exact Or.inr ((anc_of_ne_leaf leaf agree ne).mp rest)
  · rintro (eq | rest)
    · subst eq
      exact Anc.refl
    · exact Anc.head edge ((anc_of_ne_leaf leaf agree ne).mpr rest)

end Leaf

/-- **Change of branch.** Mark the nodes from `p` up to `q`, the first one on the branch of `m`, and
unmark the branch of `m` below `q`: the marked nodes are the branch of `p`. -/
theorem anc_reorganise (ranked : Ranked parent rank) (mq : Anc parent m q) (pq : Anc parent p q)
    (first : ∀ b, Anc parent p b → Anc parent b q → b ≠ q → ¬ Anc parent m b) :
    ((Anc parent m b ∨ (Anc parent p b ∧ Anc parent b q)) ∧ ¬ (Anc parent m b ∧ Anc parent b q ∧ b ≠ q)) ↔
      Anc parent p b := by
  constructor
  · rintro ⟨mb | ⟨pb, -⟩, kept⟩
    · rcases mb.total mq with bq | qb
      · by_cases eq : b = q
        · rw [eq]; exact pq
        · exact absurd ⟨mb, bq, eq⟩ kept
      · exact pq.trans qb
    · exact pb
  · intro pb
    rcases pb.total pq with bq | qb
    · refine ⟨Or.inr ⟨pb, bq⟩, ?_⟩
      rintro ⟨mb, -, ne⟩
      exact first b pb bq ne mb
    · refine ⟨Or.inl (mq.trans qb), ?_⟩
      rintro ⟨-, bq, ne⟩
      exact ne (bq.antisymm ranked qb)

/-- Searches below different children of one node find different nodes. -/
theorem nodup_flatMap_children (ranked : Ranked parent rank) {children : List α} (once : children.Nodup)
    (edge : ∀ k ∈ children, parent k = some q) {search : α → List α} (below : ∀ k ∈ children, ∀ x ∈ search k, Anc parent x k)
    (nodup : ∀ k ∈ children, (search k).Nodup) : (children.flatMap search).Nodup := by
  refine List.nodup_flatMap.mpr ⟨nodup, once.imp_of_mem fun {k l} memberK memberL ne => ?_⟩
  intro x foundK foundL
  exact ne (Anc.child_unique ranked (below k memberK x foundK) (below l memberL x foundL) (edge k memberK) (edge l memberL))

/-! ## Lowest common ancestors -/

/-- `q` is the lowest common ancestor of `a` and `b`. -/
structure Lowest (parent : α → Option α) (a b q : α) : Prop where
  left : Anc parent a q
  right : Anc parent b q
  above : ∀ x, Anc parent a x → Anc parent b x → Anc parent q x

theorem Lowest.symm (lowest : Lowest parent a b q) : Lowest parent b a q :=
  ⟨lowest.right, lowest.left, fun x bx ax => lowest.above x ax bx⟩

theorem Lowest.unique (ranked : Ranked parent rank) (first : Lowest parent a b p) (second : Lowest parent a b q) : p = q :=
  (first.above q second.left second.right).antisymm ranked (second.above p first.left first.right)

/-- Nodes with a common ancestor have a lowest one. -/
theorem Anc.exists_lowest (ac : Anc parent a c) (bc : Anc parent b c) : ∃ q, Lowest parent a b q := by
  induction ac using Relation.ReflTransGen.head_induction_on with
  | refl => exact ⟨c, Anc.refl, bc, fun _ cx _ => cx⟩
  | @head a p edge rest ih =>
    by_cases ba : Anc parent b a
    · exact ⟨a, Anc.refl, ba, fun _ ax _ => ax⟩
    · obtain ⟨q, left, right, above⟩ := ih
      refine ⟨q, Anc.head edge left, right, fun x ax bx => ?_⟩
      rcases ax.cases_head with eq | ⟨p', edge', px⟩
      · exact absurd (eq ▸ bx) ba
      · rw [edge] at edge'
        cases edge'
        exact above x px bx

/-- From an ancestor of `a` that `b` does not have, the lowest common ancestor is the same. -/
theorem Lowest.of_anc (lowest : Lowest parent a b q) (ac : Anc parent a c) (cq : Anc parent c q) : Lowest parent c b q :=
  ⟨cq, lowest.right, fun x cx bx => lowest.above x (ac.trans cx) bx⟩

/-! ## Levels -/

section Leveled

/-- Parents are one level below their children. -/
def Leveled (parent : α → Option α) (level : α → Nat) : Prop := ∀ a b, parent a = some b → level a = level b + 1

variable {level : α → Nat}

theorem Leveled.ranked (leveled : Leveled parent level) : Ranked parent level := by
  intro a b edge
  have step := leveled a b edge
  omega

theorem Anc.eq_of_level (leveled : Leveled parent level) (up : Anc parent a b) (same : level a = level b) : a = b := by
  rcases up.cases_head with eq | ⟨p, edge, rest⟩
  · exact eq
  · have step := leveled a p edge
    have below := rest.rank_le leveled.ranked
    omega

/-- A branch passes through every level. -/
theorem Anc.at_level (leveled : Leveled parent level) (up : Anc parent a b) {l : Nat} (low : level b ≤ l)
    (high : l ≤ level a) : ∃ x, Anc parent a x ∧ Anc parent x b ∧ level x = l := by
  induction up using Relation.ReflTransGen.head_induction_on with
  | refl => exact ⟨b, Anc.refl, Anc.refl, by omega⟩
  | @head a p edge rest ih =>
    by_cases top : l = level a
    · exact ⟨a, Anc.refl, Anc.head edge rest, top.symm⟩
    · have step := leveled a p edge
      obtain ⟨x, px, xb, eq⟩ := ih (by omega)
      exact ⟨x, Anc.head edge px, xb, eq⟩

/-- The nodes of a branch are different. -/
theorem Anc.exists_branch (leveled : Leveled parent level) (up : Anc parent a b) :
    ∃ branch : List α, branch.Nodup ∧ branch.length = level a - level b + 1 ∧ ∀ x ∈ branch, Anc parent a x := by
  induction up using Relation.ReflTransGen.head_induction_on with
  | refl => exact ⟨[b], List.nodup_singleton b, by simp, by simpa using Anc.refl⟩
  | @head a p edge rest ih =>
    obtain ⟨branch, nodup, length, above⟩ := ih
    have step := leveled a p edge
    have below := Anc.rank_le leveled.ranked rest
    refine ⟨a :: branch, List.nodup_cons.mpr ⟨fun again => ?_, nodup⟩, by rw [List.length_cons]; omega, ?_⟩
    · exact leveled.ranked.not_anc_child edge (above a again)
    · exact List.forall_mem_cons.mpr ⟨Anc.refl, fun x member => Anc.head edge (above x member)⟩

/-- Two ancestors of one node, one of them no deeper than the other. -/
theorem Anc.of_level_le (leveled : Leveled parent level) (left : Anc parent a b) (right : Anc parent a c)
    (le : level c ≤ level b) : Anc parent b c := by
  rcases left.total right with bc | cb
  · exact bc
  · have above := cb.rank_le leveled.ranked
    rw [cb.eq_of_level leveled (by omega)]
    exact Anc.refl

end Leveled

/-! ## Generations -/

/-- `b` is the ancestor of `a` that is `n` generations above. -/
inductive Above (parent : α → Option α) : Nat → α → α → Prop where
  | self (a : α) : Above parent 0 a a
  | up {n : Nat} {a b c : α} (edge : parent a = some b) (rest : Above parent n b c) : Above parent (n + 1) a c

theorem Above.anc {n : Nat} (above : Above parent n a b) : Anc parent a b := by
  induction above with
  | self a => exact Anc.refl
  | up edge _ ih => exact Anc.head edge ih

/-- One generation more. -/
theorem Above.last {n : Nat} (above : Above parent n a b) (edge : parent b = some c) : Above parent (n + 1) a c := by
  induction above with
  | self a => exact .up edge (.self c)
  | up first _ ih => exact .up first (ih edge)

/-- Generations only depend on the parents of a set that is closed under parents. -/
theorem Above.congr {S : α → Prop} {n : Nat} (closed : ∀ y, S y → ∀ z, parent y = some z → S z)
    (agree : ∀ y, S y → parent' y = parent y) (member : S a) (above : Above parent n a b) : Above parent' n a b := by
  induction above with
  | self a => exact .self a
  | up edge _ ih => exact .up ((agree _ member).trans edge) (ih (closed _ member _ edge))

/-! ## Branches that part -/

/-- The branches of `a` and `b` part at `q`, from which they leave by different children. -/
def PartAt (parent : α → Option α) (a b q : α) : Prop :=
  ∃ x y, Anc parent a x ∧ parent x = some q ∧ Anc parent b y ∧ parent y = some q ∧ x ≠ y

theorem PartAt.of_anc (up : Anc parent c a) (part : PartAt parent a b q) : PartAt parent c b q := by
  obtain ⟨x, y, ax, edgeX, rest⟩ := part
  exact ⟨x, y, up.trans ax, edgeX, rest⟩

theorem PartAt.mono (imp : ∀ x y, parent x = some y → parent' x = some y) (part : PartAt parent a b q) :
    PartAt parent' a b q := by
  obtain ⟨x, y, ax, edgeX, bY, edgeY, ne⟩ := part
  exact ⟨x, y, ax.mono imp, imp _ _ edgeX, bY.mono imp, imp _ _ edgeY, ne⟩

theorem PartAt.symm (part : PartAt parent a b q) : PartAt parent b a q := by
  obtain ⟨x, y, ax, edgeX, bY, edgeY, ne⟩ := part
  exact ⟨y, x, bY, edgeY, ax, edgeX, Ne.symm ne⟩

theorem PartAt.anc (part : PartAt parent a b q) : Anc parent a q ∧ Anc parent b q := by
  obtain ⟨x, y, ax, edgeX, bY, edgeY, -⟩ := part
  exact ⟨ax.trans (Anc.single edgeX), bY.trans (Anc.single edgeY)⟩

/-- Common ancestors lie at `q` or above it. -/
theorem PartAt.meet (ranked : Ranked parent rank) (part : PartAt parent a b q) (ac : Anc parent a c)
    (bc : Anc parent b c) : Anc parent q c := by
  obtain ⟨x, y, ax, edgeX, bY, edgeY, ne⟩ := part
  have apart : ¬ Anc parent b x := fun bx => ne (Anc.child_unique ranked bx bY edgeX edgeY)
  rcases ax.total ac with xc | cx
  · rcases xc.cases_head with eq | ⟨q', edge, rest⟩
    · exact absurd (eq ▸ bc) apart
    · rw [edgeX] at edge
      cases edge
      exact rest
  · exact absurd (bc.trans cx) apart

/-- Neither lies on the branch of the other. -/
theorem PartAt.not_anc (ranked : Ranked parent rank) (part : PartAt parent a b q) : ¬ Anc parent a b := by
  intro ab
  have above := part.meet ranked ab Anc.refl
  obtain ⟨x, y, -, -, bY, edgeY, -⟩ := part
  exact ranked.not_anc_child edgeY (above.trans bY)

end ParentTree
