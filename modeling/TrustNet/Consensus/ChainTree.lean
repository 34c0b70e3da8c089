import TrustNet.Consensus.Records
import TrustNet.Lib.ParentTree

/-!
# The stored tree of chain nodes

The parent fields of the chain nodes form a tree that is rooted at genesis, and
the children lists repeat its edges. `ChainTree` is the part of the database
invariant that does not mention the main list flag, so the two walks of a
reorganisation keep it; what they do to the flags is stated with the
ancestors of `ParentTree`.
-/

namespace TrustNet
set_option autoImplicit false
open WriteLog (WritesOnly)
open ParentTree (Anc Ranked)

/-- The parent edge of a stored node; genesis has none. -/
def parentOf (d : Disk) (g h : Byte64) : Option Byte64 :=
  if h = g then none else (getChainNode d h).map (·.parent)

/-- The node is stored and on the main list. -/
def Flagged (d : Disk) (h : Byte64) : Prop := ∃ n, getChainNode d h = some n ∧ n.isMainList = true

/-- The databases hold the same chain nodes, up to the main list flag. -/
def SameNodes (d d' : Disk) : Prop :=
  ∀ h, (getChainNode d' h).map (·.setMainList false) = (getChainNode d h).map (·.setMainList false)

/-- The chain nodes form a tree with root `g`. -/
structure ChainTree (d : Disk) (g : Byte64) : Prop where
  keyed : ∀ {h n}, getChainNode d h = some n → n.hash = h
  genesis : (getChainNode d g).isSome
  listed : ∀ {h n}, getChainNode d h = some n → h ≠ g → ∃ p, getChainNode d n.parent = some p ∧ h ∈ p.children
  children : ∀ {p pn c cn}, getChainNode d p = some pn → c ∈ pn.children → getChainNode d c = some cn →
    cn.parent = p ∧ c ≠ g
  ranked : ∃ rank, Ranked (parentOf d g) rank ∧ ∀ h, (getChainNode d h).isSome → rank h < d.log.length

/-- The flagged nodes are the ancestors of `m`. -/
def MainListOf (d : Disk) (g m : Byte64) : Prop :=
  (getChainNode d m).isSome ∧ ∀ h, Flagged d h ↔ Anc (parentOf d g) m h

variable {d d' d'' : Disk} {g h : Byte64}

/-! ## Databases with the same nodes -/

theorem SameNodes.refl (d : Disk) : SameNodes d d := fun _ => rfl

theorem SameNodes.trans (first : SameNodes d d') (second : SameNodes d' d'') : SameNodes d d'' :=
  fun h => (second h).trans (first h)

theorem SameNodes.of_eq (same : ∀ h, getChainNode d' h = getChainNode d h) : SameNodes d d' := by
  intro h
  rw [same h]

theorem SameNodes.symm (same : SameNodes d d') : SameNodes d' d := fun h => (same h).symm

/-- What the flag does not change. -/
theorem SameNodes.some (same : SameNodes d d') {n : ChainNode} (found : getChainNode d h = some n) :
    ∃ n', getChainNode d' h = Option.some n' ∧ n'.parent = n.parent ∧ n'.children = n.children ∧ n'.hash = n.hash ∧
      n'.depth = n.depth ∧ n'.weight = n.weight := by
  have eq := same h
  rw [found] at eq
  cases found' : getChainNode d' h with
  | none => rw [found'] at eq; cases eq
  | some n' =>
    rw [found'] at eq
    simp only [Option.map_some, Option.some.injEq, ChainNode.setMainList, ChainNode.mk.injEq] at eq
    exact ⟨n', rfl, eq.1, eq.2.2.2.2.1, eq.2.2.2.2.2, eq.2.1, eq.2.2.1⟩

theorem SameNodes.isSome (same : SameNodes d d') : (getChainNode d' h).isSome = (getChainNode d h).isSome := by
  have eq := congrArg Option.isSome (same h)
  simpa using eq

theorem SameNodes.parentOf_eq (same : SameNodes d d') : parentOf d' g = parentOf d g := by
  funext h
  unfold parentOf
  split
  · rfl
  · cases found : getChainNode d h with
    | none =>
      have none' : (getChainNode d' h).isSome = false := by rw [same.isSome, found]; rfl
      rw [Option.isSome_eq_false_iff, Option.isNone_iff_eq_none] at none'
      rw [none']
    | some n =>
      obtain ⟨n', found', parent, -⟩ := same.some found
      rw [found', Option.map_some, Option.map_some, parent]

theorem SameNodes.chainTree (same : SameNodes d d') (grow : d.log.length ≤ d'.log.length) (tree : ChainTree d g) :
    ChainTree d' g where
  keyed found := by
    obtain ⟨n, found', -, -, hash, -⟩ := same.symm.some found
    rw [← hash]
    exact tree.keyed found'
  genesis := by
    rw [same.isSome]
    exact tree.genesis
  listed found ne := by
    obtain ⟨n, found', parent, -⟩ := same.symm.some found
    obtain ⟨p, stored, member⟩ := tree.listed found' ne
    obtain ⟨p', stored', -, children, -⟩ := same.some stored
    rw [← parent]
    exact ⟨p', stored', by rw [children]; exact member⟩
  children foundP member foundC := by
    obtain ⟨pn, foundP', -, children, -⟩ := same.symm.some foundP
    obtain ⟨cn, foundC', parent, -⟩ := same.symm.some foundC
    rw [← parent]
    exact tree.children foundP' (by rw [children]; exact member) foundC'
  ranked := by
    obtain ⟨rank, ranked, bound⟩ := tree.ranked
    refine ⟨rank, by rw [same.parentOf_eq]; exact ranked, fun h stored => ?_⟩
    rw [same.isSome] at stored
    exact Nat.lt_of_lt_of_le (bound h stored) grow

/-! ## Flags -/

/-- The flags after one node was written. -/
theorem flagged_write (d : Disk) (n : ChainNode) (h : Byte64) :
    Flagged (d.write (.chainNode n.hash) (some (.chainNode n))) h ↔
      if h = n.hash then n.isMainList = true else Flagged d h := by
  unfold Flagged
  by_cases eq : h = n.hash
  · subst eq
    simp
  · simp only [eq, if_false, getChainNode_write_of_ne _ d (show Key.chainNode n.hash ≠ .chainNode h by simpa using Ne.symm eq)]

theorem Flagged.congr {d d' : Disk} (same : ∀ h, getChainNode d' h = getChainNode d h) (h : Byte64) :
    Flagged d' h ↔ Flagged d h := by
  unfold Flagged
  rw [same h]

theorem sameNodes_write {d : Disk} {n : ChainNode} (n' : ChainNode) (stored : getChainNode d n.hash = some n)
    (same : n'.setMainList false = n.setMainList false) (hash : n'.hash = n.hash) :
    SameNodes d (d.write (.chainNode n'.hash) (some (.chainNode n'))) := by
  intro h
  by_cases eq : h = n.hash
  · subst eq
    rw [hash, getChainNode_write_self, stored, Option.map_some, Option.map_some, same]
  · rw [getChainNode_write_of_ne _ d (by rw [hash]; simpa using Ne.symm eq)]

/-! ## Adding a leaf -/

theorem ChainTree.parent_stored (tree : ChainTree d g) {a b : Byte64} (edge : parentOf d g a = some b) :
    (getChainNode d b).isSome := by
  unfold parentOf at edge
  split at edge
  · cases edge
  · rename_i ne
    obtain ⟨n, found, parent⟩ := Option.map_eq_some_iff.mp edge
    obtain ⟨p, stored, -⟩ := tree.listed found ne
    rw [← parent, stored]
    rfl

theorem parentOf_of_found {n : ChainNode} (found : getChainNode d h = some n) (ne : h ≠ g) :
    parentOf d g h = some n.parent := by
  simp [parentOf, ne, found]

/-- Every stored node descends from genesis. -/
theorem ChainTree.anc_genesis (tree : ChainTree d g) (stored : (getChainNode d h).isSome) :
    Anc (parentOf d g) h g := by
  obtain ⟨rank, ranked, -⟩ := tree.ranked
  induction level : rank h using Nat.strong_induction_on generalizing h with
  | _ level ih =>
    by_cases eq : h = g
    · rw [eq]
      exact Anc.refl
    · obtain ⟨n, found⟩ := Option.isSome_iff_exists.mp stored
      have edge := parentOf_of_found found eq
      exact Anc.head edge (ih _ (level ▸ ranked _ _ edge) (tree.parent_stored edge) rfl)

/-- Ancestors are stored. -/
theorem ChainTree.anc_stored (tree : ChainTree d g) {a b : Byte64} (stored : (getChainNode d a).isSome)
    (up : Anc (parentOf d g) a b) : (getChainNode d b).isSome := by
  induction up with
  | refl => exact stored
  | tail _ edge _ => exact tree.parent_stored edge

/-- Replacing a stored node by one with the same parent keeps the edges. -/
theorem parentOf_write_same {p : ChainNode} (p' : ChainNode) (stored : getChainNode d h = some p) (same : p'.parent = p.parent) :
    parentOf (d.write (.chainNode h) (some (.chainNode p'))) g = parentOf d g := by
  funext q
  unfold parentOf
  split
  · rfl
  · by_cases eq : q = h
    · subst eq
      rw [getChainNode_write_self, stored, Option.map_some, Option.map_some, same]
    · rw [getChainNode_write_of_ne _ _ (by simpa using Ne.symm eq)]

/-- The parent's list may name a child before the child is stored. -/
theorem ChainTree.link (tree : ChainTree d g) {p : ChainNode} (stored : getChainNode d p.hash = some p)
    (fresh : getChainNode d h = none) :
    ChainTree (d.write (.chainNode p.hash) (some (.chainNode (p.addChild h)))) g := by
  have read : ∀ {q n}, getChainNode (d.write (.chainNode p.hash) (some (.chainNode (p.addChild h)))) q = some n →
      ∃ n₀, getChainNode d q = some n₀ ∧ n.parent = n₀.parent ∧ n.hash = n₀.hash ∧
        ∀ c ∈ n.children, c ∈ n₀.children ∨ c = h := by
    intro q n found
    by_cases eq : p.hash = q
    · subst eq
      rw [getChainNode_write_self] at found
      cases found
      exact ⟨p, stored, rfl, rfl, by simp [ChainNode.addChild]⟩
    · rw [getChainNode_write_of_ne _ _ (by simpa using eq)] at found
      exact ⟨n, found, rfl, rfl, fun c member => Or.inl member⟩
  have keep : ∀ {q n}, getChainNode d q = some n →
      ∃ n₁, getChainNode (d.write (.chainNode p.hash) (some (.chainNode (p.addChild h)))) q = some n₁ ∧
        ∀ c ∈ n.children, c ∈ n₁.children := by
    intro q n found
    by_cases eq : p.hash = q
    · subst eq
      rw [stored] at found
      cases found
      exact ⟨_, getChainNode_write_self _ _ _, by simp +contextual [ChainNode.addChild]⟩
    · exact ⟨n, by rw [getChainNode_write_of_ne _ _ (by simpa using eq)]; exact found, fun c member => member⟩
  constructor
  · intro q n found
    obtain ⟨n₀, found₀, -, hash, -⟩ := read found
    rw [hash]
    exact tree.keyed found₀
  · obtain ⟨n, found⟩ := Option.isSome_iff_exists.mp tree.genesis
    obtain ⟨n₁, found₁, -⟩ := keep found
    rw [found₁]
    rfl
  · intro q n found ne
    obtain ⟨n₀, found₀, parent, -⟩ := read found
    obtain ⟨pn, foundP, member⟩ := tree.listed found₀ ne
    obtain ⟨pn₁, foundP₁, sub⟩ := keep foundP
    rw [parent]
    exact ⟨pn₁, foundP₁, sub q member⟩
  · intro q qn c cn foundQ member foundC
    obtain ⟨qn₀, foundQ₀, -, -, sub⟩ := read foundQ
    obtain ⟨cn₀, foundC₀, parent, -⟩ := read foundC
    rcases sub c member with old | new
    · rw [parent]
      exact tree.children foundQ₀ old foundC₀
    · subst new
      rw [fresh] at foundC₀
      cases foundC₀
  · obtain ⟨rank, ranked, bound⟩ := tree.ranked
    refine ⟨rank, by rw [parentOf_write_same (p.addChild h) stored rfl]; exact ranked, fun q found => ?_⟩
    obtain ⟨n, found⟩ := Option.isSome_iff_exists.mp found
    obtain ⟨n₀, found₀, -⟩ := read found
    have := bound q (by rw [found₀]; rfl)
    simp only [WriteLog.write, List.length_cons]
    omega

section Leaf

variable {n pn : ChainNode} (tree : ChainTree d g) (fresh : getChainNode d n.hash = none)
include tree fresh

theorem ChainTree.ne_of_fresh : n.hash ≠ g := by
  intro eq
  have stored := tree.genesis
  rw [← eq, fresh] at stored
  cases stored

theorem ChainTree.no_edge_to_fresh (y : Byte64) : parentOf d g y ≠ some n.hash := by
  intro edge
  have stored := tree.parent_stored edge
  rw [fresh] at stored
  cases stored

omit tree fresh in
theorem parentOf_write_of_ne {y : Byte64} (ne : y ≠ n.hash) :
    parentOf (d.write (.chainNode n.hash) (some (.chainNode n))) g y = parentOf d g y := by
  unfold parentOf
  rw [getChainNode_write_of_ne _ _ (by simpa using Ne.symm ne)]

theorem ChainTree.parentOf_leaf :
    parentOf (d.write (.chainNode n.hash) (some (.chainNode n))) g n.hash = some n.parent :=
  parentOf_of_found (getChainNode_write_self _ _ _) (tree.ne_of_fresh fresh)

/-- A stored leaf keeps the tree, if its parent and nobody else lists it. -/
theorem ChainTree.addLeaf (leaf : n.children = []) (parent : getChainNode d n.parent = some pn)
    (member : n.hash ∈ pn.children)
    (only : ∀ q qn, getChainNode d q = some qn → n.hash ∈ qn.children → q = n.parent) :
    ChainTree (d.write (.chainNode n.hash) (some (.chainNode n))) g := by
  have old : ∀ {q}, (getChainNode d q).isSome →
      getChainNode (d.write (.chainNode n.hash) (some (.chainNode n))) q = getChainNode d q := by
    intro q stored
    refine getChainNode_write_of_ne _ _ fun eq => ?_
    cases eq
    rw [fresh] at stored
    cases stored
  have read : ∀ {q m}, getChainNode (d.write (.chainNode n.hash) (some (.chainNode n))) q = some m →
      (q = n.hash ∧ m = n) ∨ getChainNode d q = some m := by
    intro q m found
    by_cases eq : n.hash = q
    · subst eq
      rw [getChainNode_write_self] at found
      exact Or.inl ⟨rfl, (Option.some.inj found).symm⟩
    · rw [getChainNode_write_of_ne _ _ (by simpa using eq)] at found
      exact Or.inr found
  have parentStored : (getChainNode d n.parent).isSome := by rw [parent]; rfl
  constructor
  · intro q m found
    rcases read found with ⟨rfl, rfl⟩ | found
    · rfl
    · exact tree.keyed found
  · rw [old tree.genesis]
    exact tree.genesis
  · intro q m found ne
    rcases read found with ⟨rfl, rfl⟩ | found
    · exact ⟨pn, by rw [old parentStored]; exact parent, member⟩
    · obtain ⟨p, stored, listed⟩ := tree.listed found ne
      exact ⟨p, by rw [old (by rw [stored]; rfl)]; exact stored, listed⟩
  · intro q qn c cn foundQ listed foundC
    rcases read foundQ with ⟨rfl, rfl⟩ | oldQ
    · rw [leaf] at listed
      cases listed
    · rcases read foundC with ⟨rfl, rfl⟩ | oldC
      · exact ⟨(only q qn oldQ listed).symm, tree.ne_of_fresh fresh⟩
      · exact tree.children oldQ listed oldC
  · obtain ⟨rank, ranked, bound⟩ := tree.ranked
    have parentNe : n.parent ≠ n.hash := by
      intro eq
      rw [eq, fresh] at parentStored
      cases parentStored
    refine ⟨fun y => if y = n.hash then rank n.parent + 1 else rank y, ?_, ?_⟩
    · intro a b edge
      by_cases eq : a = n.hash
      · subst eq
        rw [tree.parentOf_leaf fresh] at edge
        cases edge
        simp [parentNe]
      · rw [parentOf_write_of_ne eq] at edge
        have ne : b ≠ n.hash := fun eq => tree.no_edge_to_fresh fresh a (by rw [← eq]; exact edge)
        simpa [eq, ne] using ranked a b edge
    · intro q stored
      obtain ⟨m, found⟩ := Option.isSome_iff_exists.mp stored
      simp only [WriteLog.write, List.length_cons]
      rcases read found with ⟨rfl, rfl⟩ | found
      · have := bound _ parentStored
        simp only [if_true]
        omega
      · have ne : q ≠ n.hash := by
          intro eq
          rw [eq, fresh] at found
          cases found
        have := bound q (by rw [found]; rfl)
        simp only [ne, if_false]
        omega

end Leaf

end TrustNet
