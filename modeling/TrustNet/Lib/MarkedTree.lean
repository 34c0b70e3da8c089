import TrustNet.Lib.ParentTree

/-!
# A stored tree with a marked branch

Nodes are stored by their keys and name their parent and their children. One branch of
the tree is marked, from the root to a leaf. A new leaf is linked to its parent, and the
marks may move to it: a walk up from the parent sets marks until it meets a marked node,
and a walk down the old branch from there clears them. The loops count down a fuel, and
say so when it does not suffice.

`NodeStore` is what the walks need of a store and of its nodes. The results are about any
store: after a leaf is attached the keys still form a tree, the marked nodes are exactly
one branch, and nothing else about the nodes has changed.
-/

/-- A store of nodes. `payload` is what a node carries besides its links and its mark, and `size` grows with
every write. -/
class NodeStore (σ : Type) (K N P : outParam Type) [DecidableEq K] where
  get : σ → K → Option N
  put : σ → N → σ
  size : σ → Nat
  key : N → K
  parent : N → K
  children : N → List K
  payload : N → P
  marked : N → Bool
  mark : N → Bool → N
  addChild : N → K → N
  get_put : ∀ s n k, get (put s n) k = if k = key n then some n else get s k
  size_put : ∀ s n, size s < size (put s n)
  links_mark : ∀ n b, (key (mark n b), parent (mark n b), children (mark n b), payload (mark n b)) =
    (key n, parent n, children n, payload n)
  marked_mark : ∀ n b, marked (mark n b) = b
  links_addChild : ∀ n k, (key (addChild n k), parent (addChild n k), children (addChild n k), payload (addChild n k)) =
    (key n, parent n, children n ++ [k], payload n)
  marked_addChild : ∀ n k, marked (addChild n k) = marked n

namespace MarkedTree
set_option autoImplicit false
open NodeStore ParentTree

/-- Why a walk does not end: it followed a link to a node that is not stored, or it ran out of fuel. -/
inductive Fault where
  | nilPointer
  | endless
  deriving DecidableEq, Repr

variable {σ K N P : Type} [DecidableEq K] [NodeStore σ K N P]

/-! ## The walks -/

/-- Set marks upwards from `node`, until a node has one: that node and the last node below it. -/
def markUp : Nat → σ → N → N → σ × Except Fault (N × N)
  | 0, s, _, _ => (s, .error .endless)
  | fuel + 1, s, node, below =>
    if marked σ node then (s, .ok (node, below))
    else
      let node := mark σ node true
      let s := put s node
      match get s (parent σ node) with
      | none => (s, .error .nilPointer)
      | some up => markUp fuel s up node

/-- The first marked child of a node, other than `skip`. -/
def markedChild (s : σ) (node : N) (skip : Option N) : Option N :=
  (children σ node).findSome? fun k =>
    match get s k with
    | none => none
    | some child => if marked σ child && decide (∀ b ∈ skip, key σ b ≠ key σ child) then some child else none

theorem markedChild_some {s : σ} {pn cn : N} {skip : Option N} (found : markedChild s pn skip = some cn) :
    ∃ k ∈ children σ pn, get s k = some cn ∧ NodeStore.marked σ cn = true ∧ ∀ b ∈ skip, key σ b ≠ key σ cn := by
  obtain ⟨k, member, hit⟩ := List.exists_of_findSome?_eq_some found
  cases stored : get s k with
  | none => simp [stored] at hit
  | some n =>
    simp only [stored, Bool.and_eq_true, decide_eq_true_eq, Option.ite_none_right_eq_some, Option.some.injEq] at hit
    obtain ⟨⟨on, other⟩, eq⟩ := hit
    subst eq
    exact ⟨k, member, stored, on, other⟩

/-- Clear the marks downwards. -/
def unmarkDown : Nat → σ → Option N → σ × Option Fault
  | _, s, none => (s, none)
  | 0, s, some _ => (s, some .endless)
  | fuel + 1, s, some child =>
    let child := mark σ child false
    let s := put s child
    unmarkDown fuel s (markedChild s child none)

/-- Store the new leaf `child` below `parent` and move the marks to it. -/
def moveMarks (s : σ) (child parent : N) : σ × Option Fault :=
  let child := mark σ child true
  match markUp (size s + 1) s parent child with
  | (s, .error fault) => (s, some fault)
  | (s, .ok (parent, below)) =>
    let s := put s child
    unmarkDown (size s + 1) s (markedChild s parent (some below))

/-! ## What the walks leave alone -/

section Invariant

variable {I : σ → Prop} {Q : N → Prop} (reads : ∀ s k n, I s → get s k = some n → Q n)
  (marks : ∀ n b, Q n → Q (mark σ n b)) (puts : ∀ s n, I s → Q n → I (put s n))
include reads marks puts

theorem markUp_invariant (fuel : Nat) {s : σ} {node : N} (inv : I s) (good : Q node) (below : N) :
    I (markUp fuel s node below).1 := by
  induction fuel generalizing s node below with
  | zero => exact inv
  | succ fuel ih =>
    unfold markUp
    split
    · exact inv
    · have inv' := puts s _ inv (marks node true good)
      simp only
      split
      · exact inv'
      · rename_i up found
        exact ih inv' (reads _ _ up inv' found) _

theorem unmarkDown_invariant (fuel : Nat) {s : σ} {child : Option N} (inv : I s) (good : ∀ n ∈ child, Q n) :
    I (unmarkDown fuel s child).1 := by
  induction fuel generalizing s child with
  | zero => cases child with
    | none => exact inv
    | some child => exact inv
  | succ fuel ih => cases child with
    | none => exact inv
    | some child =>
      have inv' := puts s _ inv (marks child false (good child rfl))
      refine ih inv' fun n found => ?_
      obtain ⟨k, -, stored, -⟩ := markedChild_some found
      exact reads _ k n inv' stored

/-- What holds of a store, and is kept when a node that was read or given is marked and written back, holds after the
walks. -/
theorem moveMarks_invariant {s : σ} {child parent : N} (inv : I s) (goodC : Q child) (goodP : Q parent) :
    I (moveMarks s child parent).1 := by
  have up := markUp_invariant reads marks puts (size s + 1) inv goodP (mark σ child true)
  unfold moveMarks
  simp only
  split
  · rename_i s' fault walked
    rw [walked] at up
    exact up
  · rename_i s' parent' below walked
    rw [walked] at up
    have inv' := puts s' _ up (marks child true goodC)
    refine unmarkDown_invariant reads marks puts _ inv' fun n found => ?_
    obtain ⟨k, -, stored, -⟩ := markedChild_some found
    exact reads _ k n inv' stored

end Invariant

/-- What a write of a node does not change, the walks do not change. -/
theorem moveMarks_frame {β : Type} {f : σ → β} (keeps : ∀ s n, f (put s n) = f s) (s : σ) (child parent : N) :
    f (moveMarks s child parent).1 = f s := by
  refine moveMarks_invariant (I := fun t => f t = f s) (Q := fun _ => True) (fun _ _ _ _ _ => trivial)
    (fun _ _ _ => trivial) (fun t n same _ => ?_) rfl trivial trivial
  rw [keeps, same]

/-! ## Stores that hold the same nodes -/

/-- The stores hold the same nodes. -/
def SameNodes (s t : σ) : Prop := ∀ k : K, get s k = get t k

section Agree

variable {s t s' t' : σ} {node below : N} {r r' : N × N}

theorem SameNodes.put (same : SameNodes s t) (n : N) : SameNodes (put s n) (put t n) := by
  intro k
  rw [get_put, get_put, same k]

theorem SameNodes.markedChild_eq (same : SameNodes s t) (node : N) (skip : Option N) :
    markedChild s node skip = markedChild t node skip := by
  unfold markedChild
  simp only [same _]

/-- Walks up that end, whatever their fuel, do the same. -/
theorem SameNodes.markUp {fuel fuel' : Nat} (same : SameNodes s t) (up : markUp fuel s node below = (s', .ok r))
    (up' : markUp fuel' t node below = (t', .ok r')) : SameNodes s' t' ∧ r = r' := by
  induction fuel generalizing fuel' s t node below with
  | zero => cases up
  | succ fuel ih =>
    cases fuel' with
    | zero => cases up'
    | succ fuel' =>
      unfold MarkedTree.markUp at up up'
      split at up
      · rename_i on
        rw [if_pos on] at up'
        cases up
        cases up'
        exact ⟨same, rfl⟩
      · rename_i off
        rw [if_neg off] at up'
        have same' := same.put (mark σ node true)
        simp only [← same' _] at up'
        simp only at up
        split at up
        · cases up
        · rename_i found
          rw [found] at up'
          exact ih same' up up'

/-- So do walks down. -/
theorem SameNodes.unmarkDown {fuel fuel' : Nat} {child : Option N} (same : SameNodes s t)
    (down : unmarkDown fuel s child = (s', none)) (down' : unmarkDown fuel' t child = (t', none)) :
    SameNodes s' t' := by
  induction fuel generalizing fuel' s t child with
  | zero =>
    cases child with
    | none =>
      cases down
      simp only [MarkedTree.unmarkDown] at down'
      cases down'
      exact same
    | some child => cases down
  | succ fuel ih =>
    cases child with
    | none =>
      cases down
      simp only [MarkedTree.unmarkDown] at down'
      cases down'
      exact same
    | some child =>
      cases fuel' with
      | zero => cases down'
      | succ fuel' =>
        have same' := same.put (mark σ child false)
        simp only [MarkedTree.unmarkDown] at down down'
        rw [← same'.markedChild_eq] at down'
        exact ih same' down down'

theorem SameNodes.moveMarks {child parent : N} (same : SameNodes s t) (moved : moveMarks s child parent = (s', none))
    (moved' : moveMarks t child parent = (t', none)) : SameNodes s' t' := by
  unfold MarkedTree.moveMarks at moved moved'
  simp only at moved moved'
  split at moved
  · cases moved
  · rename_i s₁ q below up
    split at moved'
    · cases moved'
    · rename_i t₁ q' below' up'
      obtain ⟨same₁, eq⟩ := same.markUp up up'
      cases eq
      have same₂ := same₁.put (mark σ child true)
      rw [← same₂.markedChild_eq] at moved'
      exact same₂.unmarkDown moved moved'

end Agree

/-! ## Trees -/

/-- The parent edge of a stored node; the root has none. -/
def parentOf (s : σ) (g k : K) : Option K := if k = g then none else (get s k).map (parent σ)

/-- The node is stored and marked. -/
def Marked (s : σ) (k : K) : Prop := ∃ n, get s k = some n ∧ marked σ n = true

/-- What a node has besides its mark. -/
def links (σ : Type) {K N P : Type} [DecidableEq K] [NodeStore σ K N P] (n : N) : K × K × List K × P :=
  (key σ n, parent σ n, children σ n, payload σ n)

/-- The stores hold the same nodes, up to the marks. -/
def SameLinks (s s' : σ) : Prop := ∀ k : K, (get s' k).map (links σ) = (get s k).map (links σ)

/-- The nodes form a tree with root `g`. -/
structure Tree (s : σ) (g : K) : Prop where
  keyed : ∀ {k n}, get s k = some n → key σ n = k
  root : (get s g).isSome
  listed : ∀ {k n}, get s k = some n → k ≠ g → ∃ p, get s (parent σ n) = some p ∧ k ∈ children σ p
  children : ∀ {p pn c cn}, get s p = some pn → c ∈ children σ pn → get s c = some cn → parent σ cn = p ∧ c ≠ g
  ranked : ∃ rank, Ranked (parentOf s g) rank ∧ ∀ k, (get s k).isSome → rank k < size s

/-- Every child that a node lists is stored. -/
def Complete (s : σ) : Prop := ∀ k n c, get s k = some n → c ∈ children σ n → (get s c).isSome

/-- The marked nodes are the branch of `m`. -/
def Branch (s : σ) (g m : K) : Prop := (get s m).isSome ∧ ∀ k, Marked s k ↔ Anc (parentOf s g) m k

section Links

variable {s s' s'' : σ} {g k : K} {n : N}

@[simp] theorem key_mark (n : N) (b : Bool) : key σ (mark σ n b) = key σ n :=
  (Prod.ext_iff.mp (links_mark (σ := σ) n b)).1

@[simp] theorem links_mark_eq (n : N) (b : Bool) : links σ (mark σ n b) = links σ n := links_mark n b

@[simp] theorem children_mark (n : N) (b : Bool) : children σ (mark σ n b) = children σ n :=
  congrArg (fun l => l.2.2.1) (links_mark (σ := σ) n b)

@[simp] theorem parent_mark (n : N) (b : Bool) : parent σ (mark σ n b) = parent σ n :=
  congrArg (fun l => l.2.1) (links_mark (σ := σ) n b)

theorem get_put_self (s : σ) (n : N) : get (put s n) (key σ n) = some n := by rw [get_put, if_pos rfl]

theorem get_put_of_ne (s : σ) (n : N) (ne : k ≠ key σ n) : get (put s n) k = get s k := by rw [get_put, if_neg ne]

theorem SameLinks.refl (s : σ) : SameLinks s s := fun _ => rfl

theorem SameLinks.trans (first : SameLinks s s') (second : SameLinks s' s'') : SameLinks s s'' :=
  fun k => (second k).trans (first k)

theorem SameLinks.symm (same : SameLinks s s') : SameLinks s' s := fun k => (same k).symm

theorem SameLinks.of_eq (same : ∀ k : K, get s' k = get s k) : SameLinks s s' := fun k => by rw [same k]

theorem SameLinks.some (same : SameLinks s s') (found : get s k = some n) :
    ∃ n', get s' k = Option.some n' ∧ links σ n' = links σ n := by
  have eq := same k
  rw [found, Option.map_some] at eq
  obtain ⟨n', found', eq⟩ := Option.map_eq_some_iff.mp eq
  exact ⟨n', found', eq⟩

theorem SameLinks.isSome (same : SameLinks s s') : (get s' k).isSome = (get s k).isSome := by
  have eq := congrArg Option.isSome (same k)
  rw [Option.isSome_map, Option.isSome_map] at eq
  exact eq

theorem SameLinks.parentOf_eq (same : SameLinks s s') : parentOf s' g = parentOf s g := by
  funext k
  unfold parentOf
  split
  · rfl
  · have eq := congrArg (Option.map fun l : K × K × List K × P => l.2.1) (same k)
    rw [Option.map_map, Option.map_map] at eq
    exact eq

theorem parentOf_of_found (found : get s k = some n) (ne : k ≠ g) : parentOf s g k = some (parent σ n) := by
  simp [parentOf, ne, found]

theorem SameLinks.tree (same : SameLinks s s') (grow : size s ≤ size s') (tree : Tree s g) : Tree s' g where
  keyed found := by
    obtain ⟨n, found', eq⟩ := same.symm.some found
    simp only [links, Prod.mk.injEq] at eq
    rw [← eq.1]
    exact tree.keyed found'
  root := by
    rw [same.isSome]
    exact tree.root
  listed found ne := by
    obtain ⟨n, found', eq⟩ := same.symm.some found
    obtain ⟨p, stored, member⟩ := tree.listed found' ne
    obtain ⟨p', stored', eqP⟩ := same.some stored
    simp only [links, Prod.mk.injEq] at eq eqP
    rw [← eq.2.1]
    exact ⟨p', stored', by rw [eqP.2.2.1]; exact member⟩
  children foundP member foundC := by
    obtain ⟨pn, foundP', eqP⟩ := same.symm.some foundP
    obtain ⟨cn, foundC', eqC⟩ := same.symm.some foundC
    simp only [links, Prod.mk.injEq] at eqP eqC
    rw [← eqC.2.1]
    exact tree.children foundP' (by rw [eqP.2.2.1]; exact member) foundC'
  ranked := by
    obtain ⟨rank, ranked, bound⟩ := tree.ranked
    refine ⟨rank, by rw [same.parentOf_eq]; exact ranked, fun k stored => ?_⟩
    rw [same.isSome] at stored
    exact Nat.lt_of_lt_of_le (bound k stored) grow

theorem SameLinks.complete (same : SameLinks s s') (complete : Complete s) : Complete s' := by
  intro k n c found member
  obtain ⟨n₀, found₀, eq⟩ := same.symm.some found
  simp only [links, Prod.mk.injEq] at eq
  rw [same.isSome]
  exact complete k n₀ c found₀ (by rw [eq.2.2.1]; exact member)

theorem Tree.parent_stored (tree : Tree s g) {a b : K} (edge : parentOf s g a = some b) : (get s b).isSome := by
  unfold parentOf at edge
  split at edge
  · cases edge
  · rename_i ne
    obtain ⟨n, found, eq⟩ := Option.map_eq_some_iff.mp edge
    obtain ⟨p, stored, -⟩ := tree.listed found ne
    rw [← eq, stored]
    rfl

theorem Tree.anc_stored (tree : Tree s g) {a b : K} (stored : (get s a).isSome) (up : Anc (parentOf s g) a b) :
    (get s b).isSome := by
  induction up with
  | refl => exact stored
  | tail _ edge _ => exact tree.parent_stored edge

/-- Every node descends from the root. -/
theorem Tree.anc_root (tree : Tree s g) (stored : (get s k).isSome) : Anc (parentOf s g) k g := by
  obtain ⟨rank, ranked, -⟩ := tree.ranked
  induction level : rank k using Nat.strongRecOn generalizing k with
  | _ level ih =>
    by_cases eq : k = g
    · rw [eq]
      exact Anc.refl
    · obtain ⟨n, found⟩ := Option.isSome_iff_exists.mp stored
      have edge := parentOf_of_found found eq
      exact Anc.head edge (ih _ (level ▸ ranked _ _ edge) (tree.parent_stored edge) rfl)

/-- A stored node is written back with another mark. -/
theorem put_mark (b : Bool) (stored : get s (key σ n) = some n) :
    SameLinks s (put s (mark σ n b)) ∧
      ∀ k, Marked (put s (mark σ n b)) k ↔ if k = key σ n then b = true else Marked s k := by
  refine ⟨fun k => ?_, fun k => ?_⟩
  · rw [get_put, key_mark]
    split
    · rename_i eq
      rw [eq, stored, Option.map_some, Option.map_some, links_mark_eq]
    · rfl
  · unfold Marked
    rw [get_put, key_mark]
    split
    · simp [marked_mark]
    · rfl

end Links

/-! ## The walk up -/

section Up

variable {s s₁ s' : σ} {g : K} {par : K → Option K} {rank : K → Nat} {pn below next qn last : N}

/-- The walk up from `pn` ended at `qn`, the first marked node; `last` is the node below it. -/
structure WalkedUp (par : K → Option K) (s : σ) (pn below : N) (s' : σ) (qn last : N) : Prop where
  reached : Anc par (key σ pn) (key σ qn)
  stored : get s' (key σ qn) = some qn
  marked : Marked s (key σ qn)
  first : ∀ k, Anc par (key σ pn) k → Anc par k (key σ qn) → k ≠ key σ qn → ¬ Marked s k
  marks : ∀ k, Marked s' k ↔ Marked s k ∨ (Anc par (key σ pn) k ∧ Anc par k (key σ qn))
  same : SameLinks s s'
  grown : size s ≤ size s'
  last : (last = below ∧ qn = pn) ∨ (Anc par (key σ pn) (key σ last) ∧ par (key σ last) = some (key σ qn))

theorem WalkedUp.stop (ranked : Ranked par rank) (below : N) (stored : get s (key σ pn) = some pn)
    (mark : NodeStore.marked σ pn = true) : WalkedUp par s pn below s pn below where
  reached := Anc.refl
  stored := stored
  marked := ⟨pn, stored, mark⟩
  first k up down ne := absurd (down.antisymm ranked up) ne
  marks k := by
    refine ⟨Or.inl, ?_⟩
    rintro (old | ⟨up, down⟩)
    · exact old
    · rw [down.antisymm ranked up]
      exact ⟨pn, stored, mark⟩
  same := SameLinks.refl s
  grown := Nat.le_refl _
  last := Or.inl ⟨rfl, rfl⟩

/-- A round at an unmarked node, and the walk from its parent. -/
theorem WalkedUp.climb (ranked : Ranked par rank) (unmarked : ¬ Marked s (key σ pn))
    (edge : par (key σ pn) = some (key σ next)) (same : SameLinks s s₁) (grown : size s ≤ size s₁)
    (marks : ∀ k, Marked s₁ k ↔ Marked s k ∨ k = key σ pn)
    (rest : WalkedUp par s₁ next (mark σ pn true) s' qn last) : WalkedUp par s pn below s' qn last := by
  have reached : Anc par (key σ pn) (key σ qn) := Anc.head edge rest.reached
  have notPn : key σ pn ≠ key σ qn := by
    intro eq
    apply ranked.not_anc_child edge
    rw [eq]
    exact rest.reached
  -- a node above `pn` is `pn` itself or lies above `next`
  have between : ∀ {k}, Anc par (key σ pn) k → k = key σ pn ∨ Anc par (key σ next) k := by
    intro k up
    rcases up.cases_head with eq | ⟨p, edge', up⟩
    · exact Or.inl eq.symm
    · rw [edge] at edge'
      cases edge'
      exact Or.inr up
  refine ⟨reached, rest.stored, ?_, fun k up down ne old => ?_, fun k => ?_, same.trans rest.same,
    Nat.le_trans grown rest.grown, ?_⟩
  · rcases (marks (key σ qn)).mp rest.marked with old | eq
    · exact old
    · exact absurd eq.symm notPn
  · rcases between up with eq | above
    · rw [eq] at old
      exact unmarked old
    · exact rest.first k above down ne ((marks k).mpr (Or.inl old))
  · rw [rest.marks k, marks k]
    constructor
    · rintro ((old | eq) | ⟨above, down⟩)
      · exact Or.inl old
      · rw [eq]
        exact Or.inr ⟨Anc.refl, reached⟩
      · exact Or.inr ⟨Anc.head edge above, down⟩
    · rintro (old | ⟨up, down⟩)
      · exact Or.inl (Or.inl old)
      · rcases between up with eq | above
        · exact Or.inl (Or.inr eq)
        · exact Or.inr ⟨above, down⟩
  · rcases rest.last with ⟨eq, same⟩ | ⟨above, edgeL⟩
    · rw [eq, same, key_mark]
      exact Or.inr ⟨Anc.refl, edge⟩
    · exact Or.inr ⟨Anc.head edge above, edgeL⟩

/-- The walk up ends at a node that is marked already. -/
theorem markUp_spec (ranked : Ranked par rank) (fuel : Nat) {r : K} (below : N) (tree : Tree s g)
    (edges : parentOf s g = par) (stored : get s (key σ pn) = some pn) (up : Anc par (key σ pn) r) (marked : Marked s r)
    (enough : rank (key σ pn) < fuel) :
    ∃ s' qn last, markUp fuel s pn below = (s', .ok (qn, last)) ∧ WalkedUp par s pn below s' qn last := by
  -- induction on the fuel; the rank of the node falls with each round
  induction fuel generalizing s pn below with
  | zero => omega
  | succ fuel ih =>
    rw [markUp]
    by_cases on : NodeStore.marked σ pn = true
    · rw [if_pos on]
      exact ⟨s, pn, below, rfl, WalkedUp.stop ranked below stored on⟩
    · rw [if_neg on]
      have unmarked : ¬ Marked s (key σ pn) := by
        rintro ⟨n, found, on'⟩
        rw [stored] at found
        cases found
        exact on on'
      rcases up.cases_head with same | ⟨p, edge, up'⟩
      · rw [same] at unmarked
        exact absurd marked unmarked
      · have notRoot : key σ pn ≠ g := by
          intro eq
          rw [← edges, eq] at edge
          simp [parentOf] at edge
        have edgeP : par (key σ pn) = some (parent σ pn) := by
          rw [← edges]
          exact parentOf_of_found stored notRoot
        rw [edgeP] at edge
        cases edge
        obtain ⟨same, marks⟩ := put_mark true stored
        have grown := Nat.le_of_lt (size_put s (mark σ pn true))
        have marks' : ∀ k, Marked (put s (mark σ pn true)) k ↔ Marked s k ∨ k = key σ pn := by
          intro k
          rw [marks k]
          split
          · simp [*]
          · simp [*]
        simp only [parent_mark]
        generalize put s (mark σ pn true) = s₁ at same grown marks' ⊢
        obtain ⟨p, storedP, -⟩ := tree.listed stored notRoot
        obtain ⟨next, found, eq⟩ := same.some storedP
        have key' : key σ next = parent σ pn := by
          simp only [links, Prod.mk.injEq] at eq
          rw [eq.1]
          exact tree.keyed storedP
        have lower := ranked _ _ edgeP
        rw [← key'] at edgeP up' found lower
        obtain ⟨s', qn, last, run, walked⟩ := ih (mark σ pn true) (same.tree grown tree) (same.parentOf_eq.trans edges)
          found up' ((marks' r).mpr (Or.inl marked)) (by omega)
        rw [← key', found]
        exact ⟨s', qn, last, run, WalkedUp.climb ranked unmarked edgeP same grown marks' walked⟩

end Up

/-! ## The walk down -/

section Down

variable {s : σ} {g m : K} {par : K → Option K} {rank : K → Nat} {pn cn : N} {skip : Option N}

theorem markedChild_none (missed : markedChild s pn skip = none) {k : K} (member : k ∈ children σ pn)
    (stored : get s k = some cn) (on : NodeStore.marked σ cn = true) : ∃ b ∈ skip, key σ b = key σ cn := by
  have miss := List.findSome?_eq_none_iff.mp missed k member
  simp only [stored, on, Bool.true_and, decide_eq_true_eq, ite_eq_right_iff, reduceCtorEq, imp_false,
    not_forall, not_not] at miss
  obtain ⟨b, member, eq⟩ := miss
  exact ⟨b, member, eq⟩

/-- On a branch, the marked child of a node is the next node of the branch. -/
theorem markedChild_eq (qn : N) (skip : Option N) (tree : Tree s g) (edges : parentOf s g = par)
    (stored : get s (key σ qn) = some qn) (branch : Anc par m (key σ qn))
    (only : ∀ k cn, par k = some (key σ qn) → get s k = some cn → NodeStore.marked σ cn = true →
      (∀ b ∈ skip, key σ b ≠ k) → Anc par m k)
    (on : ∀ k, Anc par m k → par k = some (key σ qn) → Marked s k ∧ ∀ b ∈ skip, key σ b ≠ k) :
    (m = key σ qn ∧ markedChild s qn skip = none) ∨
      ∃ cn, markedChild s qn skip = some cn ∧ get s (key σ cn) = some cn ∧ Anc par m (key σ cn) ∧
        par (key σ cn) = some (key σ qn) := by
  cases found : markedChild s qn skip with
  | none =>
    refine Or.inl ⟨?_, rfl⟩
    by_contra ne
    obtain ⟨c, mc, edge⟩ := branch.child ne
    obtain ⟨⟨cn, storedC, mark⟩, other⟩ := on c mc edge
    have notRoot : c ≠ g := by
      intro eq
      rw [← edges, eq] at edge
      simp [parentOf] at edge
    obtain ⟨p, storedP, member⟩ := tree.listed storedC notRoot
    have parentC : parent σ cn = key σ qn := by
      rw [← edges, parentOf_of_found storedC notRoot] at edge
      exact Option.some.inj edge
    rw [parentC, stored] at storedP
    cases storedP
    obtain ⟨b, isSkip, eq⟩ := markedChild_none found member storedC mark
    apply other b isSkip
    rw [eq]
    exact tree.keyed storedC
  | some cn =>
    right
    obtain ⟨k, member, storedC, mark, other⟩ := markedChild_some found
    have key' := tree.keyed storedC
    subst key'
    obtain ⟨parentC, notRoot⟩ := tree.children stored member storedC
    have edge : par (key σ cn) = some (key σ qn) := by
      rw [← edges, parentOf_of_found storedC notRoot, parentC]
    exact ⟨cn, rfl, storedC, only (key σ cn) cn edge storedC mark other, edge⟩

/-- The walk down from `c` cleared the marks of the branch of `m`. -/
structure WalkedDown (par : K → Option K) (m c : K) (s s' : σ) : Prop where
  marks : ∀ k, Marked s' k ↔ Marked s k ∧ ¬ (Anc par m k ∧ Anc par k c)
  same : SameLinks s s'
  grown : size s ≤ size s'

/-- The walk down follows the branch of `m` to its end. -/
theorem unmarkDown_spec (ranked : Ranked par rank) (fuel : Nat) (tree : Tree s g) (edges : parentOf s g = par)
    (stored : get s (key σ cn) = some cn) (branch : Anc par m (key σ cn))
    (marked : ∀ k, Anc par m k → Anc par k (key σ cn) → Marked s k)
    (only : ∀ k, Marked s k → Anc par k (key σ cn) → Anc par m k) (enough : rank m < rank (key σ cn) + fuel) :
    ∃ s', unmarkDown fuel s (some cn) = (s', none) ∧ WalkedDown par m (key σ cn) s s' := by
  induction fuel generalizing s cn with
  | zero =>
    have := branch.rank_le ranked
    omega
  | succ fuel ih =>
    obtain ⟨same, marks⟩ := put_mark false stored
    have grown := Nat.le_of_lt (size_put s (mark σ cn false))
    have marks' : ∀ k, Marked (put s (mark σ cn false)) k ↔ Marked s k ∧ k ≠ key σ cn := by
      intro k
      rw [marks k]
      split
      · simp [*]
      · simp [*]
    have stored₁ := get_put_self s (mark σ cn false)
    rw [unmarkDown]
    generalize put s (mark σ cn false) = s₁ at same grown marks' stored₁ ⊢
    have tree₁ := same.tree grown tree
    have edges₁ := same.parentOf_eq.trans edges
    have branch₁ : Anc par m (key σ (mark σ cn false)) := by rw [key_mark]; exact branch
    have next := markedChild_eq (mark σ cn false) none tree₁ edges₁ stored₁ branch₁
      (by
        intro k n edge found on _
        rw [key_mark] at edge
        exact only k ((marks' k).mp ⟨n, found, on⟩).1 (Anc.single edge))
      (by
        intro k mq edge
        rw [key_mark] at edge
        refine ⟨(marks' k).mpr ⟨marked k mq (Anc.single edge), fun eq => ?_⟩, by simp⟩
        subst eq
        exact ranked.not_anc_child edge Anc.refl)
    rw [key_mark] at next
    rcases next with ⟨eq, none'⟩ | ⟨nn, found, storedN, mn, edge⟩
    · -- `m` itself: the walk ends here
      simp only [none', unmarkDown]
      refine ⟨s₁, rfl, fun k => ?_, same, grown⟩
      rw [marks' k, eq]
      refine and_congr_right fun _ => not_congr ⟨?_, fun ⟨mq, km⟩ => km.antisymm ranked mq⟩
      rintro rfl
      exact ⟨Anc.refl, Anc.refl⟩
    · simp only [found]
      have below : ∀ {k}, Anc par k (key σ nn) → Anc par k (key σ cn) := fun up => up.trans (Anc.single edge)
      obtain ⟨s', run, rest⟩ := ih tree₁ edges₁ storedN mn
        (by
          intro k mq kn
          refine (marks' k).mpr ⟨marked k mq (below kn), fun eq => ?_⟩
          subst eq
          exact ranked.not_anc_child edge kn)
        (fun k on kn => only k ((marks' k).mp on).1 (below kn))
        (by
          have := ranked _ _ edge
          omega)
      refine ⟨s', run, fun k => ?_, same.trans rest.same, Nat.le_trans grown rest.grown⟩
      rw [rest.marks k, marks' k, and_assoc]
      refine and_congr_right fun on => ?_
      rw [← not_or]
      refine not_congr ⟨?_, ?_⟩
      · rintro (rfl | ⟨mq, kn⟩)
        · exact ⟨branch, Anc.refl⟩
        · exact ⟨mq, below kn⟩
      · rintro ⟨mq, kc⟩
        by_cases eq : k = key σ cn
        · exact Or.inl eq
        · exact Or.inr ⟨mq, (Anc.through_child ranked mn edge mq).mpr ⟨kc, eq⟩⟩

/-- With both branches marked, the walk down from their meeting point `qn` leaves the branch of `x`. -/
theorem unmarkDown_branch {x : K} (qn last : N) (tree : Tree s g) (stored : get s (key σ qn) = some qn)
    (storedM : (get s m).isSome) (mq : Anc (parentOf s g) m (key σ qn)) (xq : Anc (parentOf s g) x (key σ qn))
    (marks : ∀ k, Marked s k ↔ Anc (parentOf s g) m k ∨ (Anc (parentOf s g) x k ∧ Anc (parentOf s g) k (key σ qn)))
    (first : ∀ k, Anc (parentOf s g) x k → Anc (parentOf s g) k (key σ qn) → k ≠ key σ qn → ¬ Anc (parentOf s g) m k)
    (onBranch : Anc (parentOf s g) x (key σ last)) (edge : parentOf s g (key σ last) = some (key σ qn)) :
    ∃ s', unmarkDown (size s + 1) s (markedChild s qn (some last)) = (s', none) ∧ SameLinks s s' ∧ size s ≤ size s' ∧
      ∀ k, Marked s' k ↔ Anc (parentOf s g) x k := by
  obtain ⟨rank, ranked, bound⟩ := tree.ranked
  have reorganise := fun k => anc_reorganise (b := k) ranked mq xq first
  -- the children of `qn` on the two branches are different nodes
  have apart : ∀ {k}, parentOf s g k = some (key σ qn) → Anc (parentOf s g) x k → ¬ Anc (parentOf s g) m k := by
    intro k edgeK xk
    refine first k xk (Anc.single edgeK) fun eq => ?_
    rw [eq] at edgeK
    exact ranked.not_anc_child edgeK Anc.refl
  have next := markedChild_eq (m := m) qn (some last) tree rfl stored mq
    (by
      intro k cn edgeK found on other
      rcases (marks k).mp ⟨cn, found, on⟩ with up | ⟨xk, -⟩
      · exact up
      · exact absurd (Anc.child_unique ranked onBranch xk edge edgeK) (other last rfl))
    (by
      intro k up edgeK
      refine ⟨(marks k).mpr (Or.inl up), fun b isLast eq => ?_⟩
      cases isLast
      rw [← eq] at up
      exact apart edge onBranch up)
  rcases next with ⟨eq, none'⟩ | ⟨cn, found, storedC, mc, edgeC⟩
  · rw [none', unmarkDown]
    refine ⟨s, rfl, SameLinks.refl s, Nat.le_refl _, fun k => ?_⟩
    refine Iff.trans ?_ (reorganise k)
    rw [marks k, iff_self_and]
    rintro - ⟨up, down, ne⟩
    rw [eq] at up
    exact ne (down.antisymm ranked up)
  · rw [found]
    obtain ⟨s', run, walked⟩ := unmarkDown_spec ranked (size s + 1) tree rfl storedC mc
      (fun k up _ => (marks k).mpr (Or.inl up))
      (by
        intro k on up
        rcases (marks k).mp on with mk' | ⟨xk, -⟩
        · exact mk'
        · exact absurd mc (apart edgeC (xk.trans up)))
      (by
        have := bound m storedM
        omega)
    refine ⟨s', run, walked.same, walked.grown, fun k => ?_⟩
    refine Iff.trans ?_ (reorganise k)
    rw [walked.marks k, marks k]
    refine and_congr_right fun _ => not_congr (and_congr_right fun up => ?_)
    exact Anc.through_child ranked mc edgeC up

end Down

end MarkedTree
