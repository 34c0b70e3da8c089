import TrustNet.Consensus.Dag
import TrustNet.Lib.While

/-!
# The uncle finder and the uncle validator

`findUncles` searches downwards from the ancestors of the tip, `isUncleValid` climbs
from the parent and from the uncle to the block where their branches part. An uncle
that the finder collects leaves the branch of the tip at one of its next five
ancestors and is no deeper than the tip; the climbs of the validator then count the
distance of the tip to that ancestor.
-/

namespace TrustNet
set_option autoImplicit false
open ParentTree (Anc Leveled Lowest PartAt)

/-! ## The loops of the validator -/

/-- The condition of the first two loops: the node is there, and deeper than `depth`. -/
def deeperThan (depth : UInt64) (s : Option ChainNode × UInt64) : Bool := s.1.any fun n => decide (n.depth > depth)

/-- Their body. -/
def climb (d : Disk) (s : Option ChainNode × UInt64) : Option ChainNode × UInt64 :=
  (s.1.bind fun n => getChainNode d n.parent, s.2 + 1)

/-- The condition of the third loop: both nodes are there, and they differ. -/
def apart (s : Option ChainNode × Option ChainNode × UInt64) : Bool :=
  s.1.any fun p => s.2.1.any fun u => decide (p.hash ≠ u.hash)

/-- Its body. -/
def climbPair (d : Disk) (s : Option ChainNode × Option ChainNode × UInt64) : Option ChainNode × Option ChainNode × UInt64 :=
  (s.1.bind fun n => getChainNode d n.parent, s.2.1.bind fun n => getChainNode d n.parent, s.2.2 + 1)

section Loops

variable {d : Disk} {fuel : Nat}

theorem climbParent_of_loop {depth : UInt64} {s t : Option ChainNode × UInt64}
    (ends : While.loop (deeperThan depth) (climb d) fuel s = some t) : climbParent d depth fuel s.1 s.2 = t := by
  induction fuel generalizing s with
  | zero => cases ends
  | succ fuel ih =>
    obtain ⟨node, distance⟩ := s
    cases node with
    | none =>
      cases ends
      rfl
    | some n =>
      rw [climbParent]
      split
      · rename_i deeper
        rw [While.loop_next (by simpa [deeperThan] using deeper)] at ends
        exact ih ends
      · rename_i level
        rw [While.loop_stop (by simpa [deeperThan] using level)] at ends
        cases ends
        rfl

/-- The second loop is the first, down to the depth of `p`. -/
theorem climbUncle_eq (p : ChainNode) (node : Option ChainNode) (distance : UInt64) :
    climbUncle d (some p) fuel node distance = climbParent d p.depth fuel node distance := by
  induction fuel generalizing node distance with
  | zero =>
    cases node with
    | none => rfl
    | some n => rfl
  | succ fuel ih =>
    cases node with
    | none => rfl
    | some n => simp only [climbUncle, climbParent, ih]

theorem climbUncle_of_loop {p : ChainNode} {s t : Option ChainNode × UInt64}
    (ends : While.loop (deeperThan p.depth) (climb d) fuel s = some t) : climbUncle d (some p) fuel s.1 s.2 = t := by
  rw [climbUncle_eq]
  exact climbParent_of_loop ends

theorem climbBoth_of_loop {s t : Option ChainNode × Option ChainNode × UInt64}
    (ends : While.loop apart (climbPair d) fuel s = some t) : climbBoth d fuel s.1 s.2.1 s.2.2 = t := by
  induction fuel generalizing s with
  | zero => cases ends
  | succ fuel ih =>
    obtain ⟨parent, uncle, distance⟩ := s
    cases parent with
    | none =>
      cases ends
      rfl
    | some p =>
      cases uncle with
      | none =>
        cases ends
        rfl
      | some u =>
        simp only [climbBoth]
        split
        · rename_i ne
          rw [While.loop_next (by simpa [apart] using ne)] at ends
          exact ih ends
        · rename_i eq
          rw [While.loop_stop (by simpa [apart] using eq)] at ends
          cases ends
          rfl

end Loops

/-! ## The climbs of the validator -/

/-- What the loops need of the chain nodes: they lie under their hashes, at the depth of their level, below their
parents. -/
structure Climbs (d : Disk) (g : Byte64) (level : Byte64 → Nat) : Prop where
  view : ∀ {x}, (getChainNode d x).isSome → ∃ n, getChainNode d x = some n ∧ n.hash = x ∧ n.depth = UInt64.ofNat (level x)
  edge : Leveled (parentOf d g) level
  stored : ∀ {x p}, parentOf d g x = some p → (getChainNode d p).isSome

section Climbs

variable {d : Disk} {g m : Byte64} {level : Byte64 → Nat}

theorem Climbs.anc_stored (climbs : Climbs d g level) {x q : Byte64} (stored : (getChainNode d x).isSome)
    (up : Anc (parentOf d g) x q) : (getChainNode d q).isSome := by
  induction up with
  | refl => exact stored
  | tail _ edge _ => exact climbs.stored edge

theorem parentOf_found {x p : Byte64} {n : ChainNode} (found : getChainNode d x = some n)
    (edge : parentOf d g x = some p) : n.parent = p := by
  unfold parentOf at edge
  split at edge
  · cases edge
  · rw [found, Option.map_some, Option.some.injEq] at edge
    exact edge

theorem ofNat_lt_ofNat {a b : Nat} (lt : a < b) (small : b < 2 ^ 64) : UInt64.ofNat a < UInt64.ofNat b := by
  rw [UInt64.lt_iff_toNat_lt, UInt64.toNat_ofNat', UInt64.toNat_ofNat', Nat.mod_eq_of_lt (by omega), Nat.mod_eq_of_lt small]
  exact lt

/-- The first two loops climb to the ancestor at the level of the other block. -/
theorem Climbs.up (climbs : Climbs d g level) {p q : Byte64} (up : Anc (parentOf d g) p q)
    (stored : (getChainNode d p).isSome) (small : level p < 2 ^ 64) {fuel : Nat} (enough : level p - level q < fuel)
    (distance : UInt64) :
    While.loop (deeperThan (UInt64.ofNat (level q))) (climb d) fuel (getChainNode d p, distance) =
      some (getChainNode d q, distance + UInt64.ofNat (level p - level q)) := by
  induction up using Relation.ReflTransGen.head_induction_on generalizing fuel distance with
  | refl =>
    obtain ⟨fuel, rfl⟩ : ∃ k, fuel = k + 1 := ⟨fuel - 1, by omega⟩
    obtain ⟨n, found, -, depth⟩ := climbs.view stored
    rw [found, While.loop_stop (by simp [deeperThan, depth]), Nat.sub_self]
    simp
  | @head x p edge rest ih =>
    obtain ⟨fuel, rfl⟩ : ∃ k, fuel = k + 1 := ⟨fuel - 1, by omega⟩
    obtain ⟨n, found, -, depth⟩ := climbs.view stored
    have step := climbs.edge x p edge
    have below := Anc.rank_le climbs.edge.ranked rest
    have deeper : UInt64.ofNat (level q) < UInt64.ofNat (level x) := ofNat_lt_ofNat (by omega) small
    have count : level x - level q = 1 + (level p - level q) := by omega
    rw [found, While.loop_next (by simpa [deeperThan, depth] using deeper)]
    show While.loop _ _ _ (getChainNode d n.parent, distance + 1) = _
    rw [parentOf_found found edge, ih (climbs.stored edge) (by omega) (by omega), count, UInt64.ofNat_add,
      UInt64.add_assoc]
    rfl

/-- The third loop climbs to the block where the branches part. -/
theorem Climbs.up_both (climbs : Climbs d g level) {p u q : Byte64} (lowest : Lowest (parentOf d g) p u q)
    (stored : (getChainNode d p).isSome) (storedU : (getChainNode d u).isSome) (same : level p = level u)
    {fuel : Nat} (enough : level p - level q < fuel) (distance : UInt64) :
    While.loop apart (climbPair d) fuel (getChainNode d p, getChainNode d u, distance) =
      some (getChainNode d q, getChainNode d q, distance + UInt64.ofNat (level p - level q)) := by
  induction fuel generalizing p u distance with
  | zero => omega
  | succ fuel ih =>
    obtain ⟨n, found, hash, -⟩ := climbs.view stored
    obtain ⟨k, foundU, hashU, -⟩ := climbs.view storedU
    rcases lowest.left.cases_head with eq | ⟨p', edge, rest⟩
    · have eqU : u = q := lowest.right.eq_of_level climbs.edge (by rw [← same, eq])
      rw [eq, eqU, Nat.sub_self, While.loop_stop]
      · simp
      · rw [eq] at found
        simp [apart, found]
    · have step := climbs.edge p p' edge
      have below := Anc.rank_le climbs.edge.ranked rest
      rcases lowest.right.cases_head with eq | ⟨u', edgeU, restU⟩
      · rw [eq] at same
        omega
      · have stepU := climbs.edge u u' edgeU
        have ne : p ≠ u := by
          rintro rfl
          have above := Anc.rank_le climbs.edge.ranked (lowest.above p Anc.refl Anc.refl)
          omega
        have next : Lowest (parentOf d g) p' u' q :=
          ⟨rest, restU, fun x px ux => lowest.above x (Anc.head edge px) (Anc.head edgeU ux)⟩
        have count : level p - level q = 1 + (level p' - level q) := by omega
        rw [found, foundU, While.loop_next (by simp [apart, hash, hashU, ne])]
        show While.loop _ _ _ (getChainNode d n.parent, getChainNode d k.parent, distance + 1) = _
        rw [parentOf_found found edge, parentOf_found foundU edgeU,
          ih next (climbs.stored edge) (climbs.stored edgeU) (by omega) (by omega), count, UInt64.ofNat_add,
          UInt64.add_assoc]
        rfl

end Climbs

section Reach

variable {d : Disk} {g m : Byte64} {level : Byte64 → Nat} (inv : Canonical d g m) (levels : Levels d g level)

include inv levels in
/-- The chain nodes of a node can be climbed. -/
theorem Levels.climbs : Climbs d g level where
  view {x} stored := by
    obtain ⟨n, found⟩ := Option.isSome_iff_exists.mp stored
    have header := inv.headers x
    rw [nodeHeader, found] at header
    obtain ⟨spec, foundSpec, same⟩ := Option.map_eq_some_iff.mp header.symm
    simp only [BlockSpec.header, ChainNode.header, Prod.mk.injEq] at same
    exact ⟨n, found, inv.chain.tree.keyed found, by rw [← same.2.1, levels.depth foundSpec]⟩
  edge := levels.edge
  stored := inv.chain.tree.parent_stored

include inv levels in
/-- **What the validator accepts**: a block that is no deeper than the parent and whose branch leaves that of
the parent at most five levels below. -/
theorem uncleInReach_of_partAt {p u q : Byte64} (part : PartAt (parentOf d g) p u q) (stored : (getChainNode d p).isSome)
    (storedU : (getChainNode d u).isSome) (deeper : level u ≤ level p) (near : level p ≤ level q + 5)
    (small : level p < 2 ^ 64) : uncleInReach d p u = true := by
  have climbs := levels.climbs inv
  have ranked := levels.edge.ranked
  obtain ⟨pq, uq⟩ := part.anc
  have belowU := uq.rank_le ranked
  -- the ancestor of the parent at the level of the uncle
  obtain ⟨x, px, xq, atLevel⟩ := pq.at_level levels.edge belowU deeper
  have storedX := inv.chain.tree.anc_stored stored px
  obtain ⟨n, found, hash, depth⟩ := climbs.view storedX
  obtain ⟨k, foundU, hashU, depthU⟩ := climbs.view storedU
  have ne : x ≠ u := fun eq => part.not_anc ranked (eq ▸ px)
  have fuel : ∀ {y}, (getChainNode d y).isSome → level y < Database.calls d + 1 := by
    intro y storedY
    rw [inv.stored_iff] at storedY
    obtain ⟨spec, foundY⟩ := Option.isSome_iff_exists.mp storedY
    exact Nat.lt_succ_of_lt (Nat.lt_of_lt_of_le (levels.bound foundY) (acceptedBlocks_length_le d))
  have lowest : Lowest (parentOf d g) x u q := ⟨xq, uq, fun y xy uy => part.meet ranked (px.trans xy) uy⟩
  have first := climbParent_of_loop
    (climbs.up px stored small (Nat.lt_of_le_of_lt (Nat.sub_le _ _) (fuel stored)) 0)
  have last := climbBoth_of_loop (climbs.up_both lowest storedX storedU atLevel
    (Nat.lt_of_le_of_lt (Nat.sub_le _ _) (fuel storedX)) (0 + UInt64.ofNat (level p - level x)))
  obtain ⟨qn, foundQ, -, -⟩ := climbs.view (inv.chain.tree.anc_stored stored pq)
  have total : 0 + UInt64.ofNat (level p - level x) + UInt64.ofNat (level x - level q) = UInt64.ofNat (level p - level q) := by
    rw [UInt64.zero_add, ← UInt64.ofNat_add]
    have belowX := xq.rank_le ranked
    congr 1
    omega
  simp only at first last
  unfold uncleInReach
  rw [foundU]
  simp only [depthU, ← atLevel, first, found, climbUncle, depth, gt_iff_lt, UInt64.lt_irrefl, if_false, hash, hashU, ne]
  rw [← found, ← foundU, last, foundQ, total]
  simp only [decide_eq_true_eq, UInt64.le_iff_toNat_le, UInt64.toNat_ofNat']
  exact Nat.le_trans (Nat.mod_le _ _) (by change _ ≤ 5; omega)

end Reach

/-! ## The search of the finder -/

/-- The hashes that the search collects at `k` and below it. -/
def searchBelow (d : Disk) (maxDepth : UInt64) (remainingDistance : Nat) (k : Byte64) : List Byte64 :=
  match getSpec d k with
  | none => []
  | some b =>
    if b.depth ≤ maxDepth then k :: (findNonDirectAncestors d maxDepth remainingDistance k).map Uncle.hash else []

/-- The hashes that the search collects at a child `k` of an ancestor, whose child on the branch is `parent`. -/
def searchBeside (d : Disk) (maxDepth : UInt64) (remainingDistance : Nat) (parent k : Byte64) : List Byte64 :=
  if k = parent then []
  else
    match getSpec d k with
    | none => []
    | some _ => k :: (findNonDirectAncestors d maxDepth remainingDistance k).map Uncle.hash

section Search

variable {d : Disk} {g m tip : Byte64} {level : Byte64 → Nat}

theorem mem_searchBelow {maxDepth : UInt64} {remainingDistance : Nat} {k u : Byte64}
    (found : u ∈ searchBelow d maxDepth remainingDistance k) :
    (∃ b, getSpec d k = some b ∧ b.depth ≤ maxDepth) ∧
      (u = k ∨ u ∈ (findNonDirectAncestors d maxDepth remainingDistance k).map Uncle.hash) := by
  unfold searchBelow at found
  split at found
  · cases found
  · rename_i b stored
    split at found
    · rename_i shallow
      exact ⟨⟨b, stored, shallow⟩, List.mem_cons.mp found⟩
    · cases found

theorem nodup_searchBelow {maxDepth : UInt64} {remainingDistance : Nat} {k : Byte64}
    (nodup : (k :: (findNonDirectAncestors d maxDepth remainingDistance k).map Uncle.hash).Nodup) :
    (searchBelow d maxDepth remainingDistance k).Nodup := by
  unfold searchBelow
  split
  · exact List.nodup_nil
  · split
    · exact nodup
    · exact List.nodup_nil

theorem mem_searchBeside {maxDepth : UInt64} {remainingDistance : Nat} {parent k u : Byte64}
    (found : u ∈ searchBeside d maxDepth remainingDistance parent k) :
    k ≠ parent ∧ (u = k ∨ u ∈ (findNonDirectAncestors d maxDepth remainingDistance k).map Uncle.hash) := by
  unfold searchBeside at found
  split at found
  · cases found
  · rename_i ne
    split at found
    · cases found
    · exact ⟨ne, List.mem_cons.mp found⟩

theorem nodup_searchBeside {maxDepth : UInt64} {remainingDistance : Nat} (parent : Byte64) {k : Byte64}
    (nodup : (k :: (findNonDirectAncestors d maxDepth remainingDistance k).map Uncle.hash).Nodup) :
    (searchBeside d maxDepth remainingDistance parent k).Nodup := by
  unfold searchBeside
  split
  · exact List.nodup_nil
  · split
    · exact List.nodup_nil
    · exact nodup

theorem findNonDirectAncestors_succ (maxDepth : UInt64) (remainingDistance : Nat) (c : Byte64) :
    (findNonDirectAncestors d maxDepth (remainingDistance + 1) c).map Uncle.hash =
      (childrenOf d c).flatMap (searchBelow d maxDepth remainingDistance) := by
  rw [findNonDirectAncestors, childrenOf]
  cases getChainNode d c with
  | none => rfl
  | some node =>
    simp only [Option.map_some, Option.getD_some, List.map_flatMap]
    congr 1
    funext k
    rw [searchBelow, getBlock_eq]
    cases getSpec d k with
    | none => rfl
    | some b =>
      simp only [Option.map_some, BlockSpec.toBlock]
      split
      · rfl
      · rfl

theorem findUncles_succ (maxDepth : UInt64) (remainingDistance : Nat) {grandParent parent : Byte64} {node : ChainNode}
    (proper : grandParent ≠ genesisParent) (found : getChainNode d grandParent = some node) :
    (findUncles d maxDepth (remainingDistance + 1) grandParent parent).map Uncle.hash =
      (childrenOf d grandParent).flatMap (searchBeside d maxDepth remainingDistance parent) ++
        (findUncles d maxDepth remainingDistance node.parent node.hash).map Uncle.hash := by
  rw [findUncles, if_neg proper, childrenOf_of_found found, found]
  simp only [List.map_append, List.map_flatMap]
  congr 2
  funext k
  rw [searchBeside, getBlock_eq]
  split
  · rfl
  · cases getSpec d k with
    | none => rfl
    | some b => rfl

variable (inv : Canonical d g m) (dag : Dag d g) (levels : Levels d g level)

include inv in
theorem Canonical.child_edge {q k : Byte64} (listed : k ∈ childrenOf d q) :
    parentOf d g k = some q ∧ (getChainNode d k).isSome := by
  obtain ⟨qn, found, member⟩ := mem_childrenOf.mp listed
  have stored := inv.complete found member
  obtain ⟨kn, foundK⟩ := Option.isSome_iff_exists.mp stored
  obtain ⟨parent, ne⟩ := inv.chain.tree.children found member foundK
  exact ⟨by rw [parentOf_of_found foundK ne, parent], stored⟩

theorem le_of_ofNat_le {a b : Nat} (le : UInt64.ofNat a ≤ UInt64.ofNat b) (smallA : a < 2 ^ 64) (smallB : b < 2 ^ 64) :
    a ≤ b := by
  rwa [UInt64.le_iff_toNat_le, UInt64.toNat_ofNat', UInt64.toNat_ofNat', Nat.mod_eq_of_lt smallA,
    Nat.mod_eq_of_lt smallB] at le

include inv in
/-- The search below `c` finds descendants of the children of `c` that are not too deep. -/
theorem mem_findNonDirectAncestors {maxDepth : UInt64} (remainingDistance : Nat) {c u : Byte64}
    (member : u ∈ (findNonDirectAncestors d maxDepth remainingDistance c).map Uncle.hash) :
    ∃ k, parentOf d g k = some c ∧ Anc (parentOf d g) u k ∧ ∃ b, getSpec d u = some b ∧ b.depth ≤ maxDepth := by
  induction remainingDistance generalizing c with
  | zero => cases member
  | succ remainingDistance ih =>
    rw [findNonDirectAncestors_succ] at member
    obtain ⟨k, listed, found⟩ := List.mem_flatMap.mp member
    obtain ⟨edge, storedK⟩ := inv.child_edge listed
    refine ⟨k, edge, ?_⟩
    obtain ⟨shallow, rfl | deeper⟩ := mem_searchBelow found
    · exact ⟨Anc.refl, shallow⟩
    · obtain ⟨k', edge', up, rest⟩ := ih deeper
      exact ⟨up.trans (Anc.single edge'), rest⟩

include inv in
theorem anc_of_mem_search {maxDepth : UInt64} {remainingDistance : Nat} {c u : Byte64}
    (found : u = c ∨ u ∈ (findNonDirectAncestors d maxDepth remainingDistance c).map Uncle.hash) :
    Anc (parentOf d g) u c := by
  rcases found with rfl | deeper
  · exact Anc.refl
  · obtain ⟨k, edge, up, -⟩ := mem_findNonDirectAncestors inv _ deeper
    exact up.trans (Anc.single edge)

include inv dag levels in
theorem nodup_findNonDirectAncestors (maxDepth : UInt64) (remainingDistance : Nat) (c : Byte64) :
    (c :: (findNonDirectAncestors d maxDepth remainingDistance c).map Uncle.hash).Nodup := by
  induction remainingDistance generalizing c with
  | zero => exact List.nodup_singleton c
  | succ remainingDistance ih =>
    refine List.nodup_cons.mpr ⟨fun self => ?_, ?_⟩
    · obtain ⟨k, edge, up, -⟩ := mem_findNonDirectAncestors inv _ self
      exact levels.edge.ranked.not_anc_child edge up
    · rw [findNonDirectAncestors_succ]
      exact ParentTree.nodup_flatMap_children levels.edge.ranked (dag.once c) (fun k listed => (inv.child_edge listed).1)
        (fun k _ u found => anc_of_mem_search inv (mem_searchBelow found).2) fun k _ => nodup_searchBelow (ih k)

/-- The place of the search: `grandParent` is the parent of `parent`, which is on the branch of the tip, and the
remaining distance counts down from there. Above genesis there is nothing left. -/
structure SearchAt (d : Disk) (g : Byte64) (level : Byte64 → Nat) (tip grandParent parent : Byte64)
    (remainingDistance : Nat) : Prop where
  branch : Anc (parentOf d g) tip parent
  edge : grandParent ≠ genesisParent → parentOf d g parent = some grandParent
  count : grandParent ≠ genesisParent → level tip + remainingDistance = level grandParent + 6

include inv dag levels in
/-- The next place is one ancestor further. -/
theorem SearchAt.next {grandParent parent : Byte64} {remainingDistance : Nat} {node : ChainNode}
    (place : SearchAt d g level tip grandParent parent (remainingDistance + 1)) (proper : grandParent ≠ genesisParent)
    (found : getChainNode d grandParent = some node) :
    SearchAt d g level tip node.parent node.hash remainingDistance := by
  have edge := place.edge proper
  have hash := inv.chain.tree.keyed found
  have edge' : node.parent ≠ genesisParent → parentOf d g grandParent = some node.parent := by
    intro proper'
    refine parentOf_of_found found ?_
    rintro rfl
    have header := inv.headers grandParent
    rw [nodeHeader, found] at header
    obtain ⟨spec, foundSpec, same⟩ := Option.map_eq_some_iff.mp header.symm
    simp only [BlockSpec.header, ChainNode.header, Prod.mk.injEq] at same
    exact proper' (same.1.symm.trans (dag.root foundSpec))
  rw [hash]
  refine ⟨place.branch.trans (Anc.single edge), edge', fun proper' => ?_⟩
  have step := levels.edge _ _ (edge' proper')
  have count := place.count proper
  omega

include inv dag levels in
/-- **What the finder collects**: blocks that leave the branch of the tip at one of its next five ancestors and
are not deeper than the tip. -/
theorem mem_findUncles {maxDepth : UInt64} {remainingDistance : Nat} {grandParent parent u : Byte64}
    (place : SearchAt d g level tip grandParent parent remainingDistance)
    (member : u ∈ (findUncles d maxDepth remainingDistance grandParent parent).map Uncle.hash) :
    ∃ q, PartAt (parentOf d g) parent u q ∧ level tip ≤ level q + 5 ∧ (getChainNode d u).isSome ∧
      (level u ≤ level tip ∨ ∃ b, getSpec d u = some b ∧ b.depth ≤ maxDepth) := by
  induction remainingDistance generalizing grandParent parent with
  | zero => cases member
  | succ remainingDistance ih =>
    by_cases proper : grandParent = genesisParent
    · rw [findUncles, if_pos proper] at member
      cases member
    · have edge := place.edge proper
      obtain ⟨node, found⟩ := Option.isSome_iff_exists.mp (inv.chain.tree.parent_stored edge)
      rw [findUncles_succ _ _ proper found, List.mem_append] at member
      rcases member with beside | further
      · obtain ⟨k, listed, foundU⟩ := List.mem_flatMap.mp beside
        obtain ⟨edgeK, storedK⟩ := inv.child_edge listed
        obtain ⟨ne, spot⟩ := mem_searchBeside foundU
        have count := place.count proper
        refine ⟨grandParent, ⟨parent, k, Anc.refl, edge, anc_of_mem_search inv spot, edgeK, Ne.symm ne⟩, by omega, ?_⟩
        rcases spot with rfl | deeper
        · have below := place.branch.rank_le levels.edge.ranked
          have levelK := levels.edge _ _ edgeK
          have levelP := levels.edge _ _ edge
          exact ⟨storedK, Or.inl (by omega)⟩
        · obtain ⟨-, -, -, b, foundB, shallow⟩ := mem_findNonDirectAncestors inv _ deeper
          exact ⟨by rw [inv.stored_iff, foundB]; rfl, Or.inr ⟨b, foundB, shallow⟩⟩
      · obtain ⟨q, part, rest⟩ := ih (place.next inv dag levels proper found) further
        rw [inv.chain.tree.keyed found] at part
        exact ⟨q, part.of_anc (Anc.single edge), rest⟩

include inv dag levels in
theorem nodup_findUncles (maxDepth : UInt64) {remainingDistance : Nat} {grandParent parent : Byte64}
    (place : SearchAt d g level tip grandParent parent remainingDistance) :
    ((findUncles d maxDepth remainingDistance grandParent parent).map Uncle.hash).Nodup := by
  induction remainingDistance generalizing grandParent parent with
  | zero => exact List.nodup_nil
  | succ remainingDistance ih =>
    by_cases proper : grandParent = genesisParent
    · rw [findUncles, if_pos proper]
      exact List.nodup_nil
    · obtain ⟨node, found⟩ := Option.isSome_iff_exists.mp (inv.chain.tree.parent_stored (place.edge proper))
      have next := place.next inv dag levels proper found
      rw [findUncles_succ _ _ proper found]
      refine List.Nodup.append ?_ (ih next) fun u beside further => ?_
      · exact ParentTree.nodup_flatMap_children levels.edge.ranked (dag.once grandParent)
          (fun k listed => (inv.child_edge listed).1)
          (fun k _ u found => anc_of_mem_search inv (mem_searchBeside found).2)
          fun k _ => nodup_searchBeside parent (nodup_findNonDirectAncestors inv dag levels _ _ k)
      · -- what is found further up does not descend from `grandParent`
        obtain ⟨k, listed, foundU⟩ := List.mem_flatMap.mp beside
        obtain ⟨q, part, -⟩ := mem_findUncles inv dag levels next further
        rw [inv.chain.tree.keyed found] at part
        refine part.symm.not_anc levels.edge.ranked ?_
        exact (anc_of_mem_search inv (mem_searchBeside foundU).2).trans (Anc.single (inv.child_edge listed).1)

end Search

/-! ## Candidates -/

section Candidates

variable [Sha512] {g : Byte64} {s : System} {c : BlockChainConsensus} {now : UInt64} {d' : Disk} {b : Block}

/-- What `NewCandidateBlock` returns in a reachable state. -/
structure Candidate (s : System) (g : Byte64) (c : BlockChainConsensus) (b : Block) : Prop where
  stored : getSpec s.db b.phash = some c.tip.toBlockSpec
  depth : b.depth = c.tip.depth + 1
  weight : b.wt = c.tip.wt + 1 + UInt64.ofNat b.uncles.length
  once : b.uncles.Nodup
  uncles : ∀ level, Levels s.db g level → ∀ u ∈ b.uncles, ∃ q, PartAt (parentOf s.db g) b.phash u q ∧
    level b.phash ≤ level q + 5 ∧ (getSpec s.db u).isSome ∧
    (level u ≤ level b.phash ∨ ∃ spec, getSpec s.db u = some spec ∧ spec.depth ≤ c.tip.depth)
  empty : b.txs = []

theorem OnTip.candidate (inv : OnTip g s) (ready : SystemReady s) (dag : Dag s.db g) (engine : s.engine = some c)
    (made : newCandidateBlock c s.db now = (d', some b)) : Candidate s g c b := by
  obtain ⟨m, canonical, synced⟩ := inv
  obtain ⟨hash, spec, -, -⟩ := synced c engine
  rcases newCandidateBlock_cases ready.log c now hash with ⟨-, eq⟩ | ⟨d₁, t, miners, rebased, eq⟩
  · rw [made] at eq
    cases eq
  · rw [made] at eq
    cases eq
    have steps : TrieSteps (fun _ => False) s.db d' := rebased.fresh_steps
    have same := SameRecords.of_steps steps
    have inv := canonical.of_records same steps.length_le
    have dag := dag.of_records same
    have edges := (SameNodes.of_eq same.chainNode).parentOf_eq (g := g)
    have stored : getSpec d' m = some c.tip.toBlockSpec := (same.spec m).trans spec
    -- the search starts at the parent of the tip
    have place : ∀ {level}, Levels d' g level → SearchAt d' g level m c.tip.phash m 5 := by
      intro level levels
      have edge : c.tip.phash ≠ genesisParent → parentOf d' g m = some c.tip.phash := by
        intro proper
        rw [inv.parentOf_eq, if_neg, stored, Option.map_some]
        rintro rfl
        exact proper (dag.root stored)
      refine ⟨Anc.refl, edge, fun proper => ?_⟩
      have step := levels.edge _ _ (edge proper)
      omega
    refine ⟨spec, rfl, rfl, ?_, fun level levels u member => ?_, rfl⟩
    · obtain ⟨level, levels⟩ := dag.levels
      exact nodup_findUncles inv dag levels c.tip.depth (place levels)
    · have levels' := levels.of_records same
      obtain ⟨q, part, near, storedU, shallow⟩ := mem_findUncles inv dag levels' (place levels') member
      rw [edges] at part
      rw [inv.stored_iff, same.spec] at storedU
      rw [same.spec] at shallow
      exact ⟨q, part, near, storedU, shallow⟩

omit [Sha512] in
/-- The uncles of a candidate are accepted by the validator, now and in a database that has grown. -/
theorem Candidate.uncleOk {m m' : Byte64} {level level' : Byte64 → Nat} (candidate : Candidate s g c b)
    (inv : Canonical s.db g m) (levels : Levels s.db g level) (room : (acceptedBlocks s.db).length ≤ 2 ^ 64)
    (kept : SpecsKept s.db d') (inv' : Canonical d' g m') (levels' : Levels d' g level') {u : Byte64}
    (member : u ∈ b.uncles) : UncleOk d' b.phash u ∧ ¬ Anc (parentOf d' g) b.phash u := by
  obtain ⟨q, part, near, storedU, shallow⟩ := candidate.uncles level levels u member
  have part' := part.mono (kept.edge inv inv')
  have small : ∀ {h spec}, getSpec s.db h = some spec → level h < 2 ^ 64 :=
    fun found => Nat.lt_of_lt_of_le (levels.bound found) room
  have deeper : level u ≤ level b.phash := by
    rcases shallow with le | ⟨spec, found, le⟩
    · exact le
    · rw [levels.depth found, levels.depth candidate.stored] at le
      exact le_of_ofNat_le le (small found) (small candidate.stored)
  -- the three blocks are stored in both, at the same levels
  have storedNode : ∀ {h}, (getSpec s.db h).isSome → (getChainNode s.db h).isSome := by
    intro h found
    rw [inv.stored_iff]
    exact found
  have storedP := storedNode (by rw [candidate.stored]; rfl)
  have levelEq : ∀ {h}, (getChainNode s.db h).isSome → level' h = level h := kept.level inv inv' levels levels'
  have later : ∀ {h}, (getChainNode s.db h).isSome → (getSpec d' h).isSome := by
    intro h found
    rw [inv.stored_iff] at found
    obtain ⟨spec, found⟩ := Option.isSome_iff_exists.mp found
    rw [kept h spec found]
    rfl
  refine ⟨⟨uncleInReach_of_partAt inv' levels' part' ?_ ?_ ?_ ?_ ?_, later (storedNode storedU)⟩,
    part'.not_anc levels'.edge.ranked⟩
  · rw [inv'.stored_iff]
    exact later storedP
  · rw [inv'.stored_iff]
    exact later (storedNode storedU)
  · rw [levelEq (storedNode storedU), levelEq storedP]
    exact deeper
  · rw [levelEq storedP, levelEq (inv.chain.tree.anc_stored storedP part.anc.1)]
    exact near
  · rw [levelEq storedP]
    exact small candidate.stored

/-- **The finder and the validator agree.** A candidate passes validation when it is created and in every later
state: its parent, depth and weight are right, and each of its uncles is stored, is no ancestor of it, comes once and
is accepted. The depth of a block counts up to `2 ^ 64`. -/
theorem candidate_stays_valid (reached : Reached RebaseOk g s) (engine : s.engine = some c)
    (room : (acceptedBlocks s.db).length ≤ 2 ^ 64) (made : newCandidateBlock c s.db now = (d', some b))
    {i : Nat} {actions : List Action} (along : System.Along RebaseOk (s.next (.candidate i now)) actions) :
    let s' := (s.next (.candidate i now)).run actions
    (∃ b' parent, validateBlock s'.db b = (b', .ok parent)) ∧
      (∃ parent, getSpec s'.db b.phash = some parent ∧ b.depth = parent.depth + 1 ∧
        b.wt = parent.wt + 1 + UInt64.ofNat b.uncles.length) ∧
      b.uncles.Nodup ∧ ∀ u ∈ b.uncles, (getSpec s'.db u).isSome ∧ ¬ Anc (parentOf s'.db g) b.phash u ∧
        (isUncleValid s'.db b u).2 = true := by
  intro s'
  have candidate := reached.onTip.candidate reached.ready reached.dag engine made
  have fine : System.Along RebaseOk s (.candidate i now :: actions) := ⟨rfl, along⟩
  have reached' : Reached RebaseOk g s' := reached.run fine
  have kept : SpecsKept s.db s'.db := reached.specsKept fine
  obtain ⟨m, inv, -⟩ := reached.onTip
  obtain ⟨m', inv', -⟩ := reached'.onTip
  obtain ⟨level, levels⟩ := reached.dag.levels
  obtain ⟨level', levels'⟩ := reached'.dag.levels
  have parent := kept _ _ candidate.stored
  have uncles := fun u member => candidate.uncleOk inv levels room kept inv' levels' (u := u) member
  have valid : Valid s'.db b.toBlockSpec c.tip.toBlockSpec :=
    ⟨parent, candidate.depth, fun u member => (uncles u member).1, candidate.weight⟩
  obtain ⟨miners, validated⟩ := validateBlock_of_valid valid
  refine ⟨⟨_, _, validated⟩, ⟨_, parent, candidate.depth, candidate.weight⟩, candidate.once, fun u member => ?_⟩
  obtain ⟨ok, apart⟩ := uncles u member
  obtain ⟨miners', accepted⟩ := isUncleValid_of_ok ok
  exact ⟨ok.2, apart, by rw [accepted]⟩

end Candidates

section Worked

attribute [local instance] workedSha512

/-- The candidate on `left` has `right` for its uncle. -/
theorem Worked.leftFirst_candidate :
    let s := (System.boot 1 1 [7]).run Worked.leftFirst
    (s.engine.bind fun c => (newCandidateBlock c s.db 2).2.map (·.uncles)) = some [digest rightDigest] ∧
      (acceptedBlocks s.db).length = 3 ∧ System.Along RebaseOk (s.next (.candidate 1 2)) [.restart 1 1 [7]] := by
  decide +kernel

theorem candidate_stays_valid_leftFirst :
    let s := (System.boot 1 1 [7]).run Worked.leftFirst
    ∃ c d' b, s.engine = some c ∧ newCandidateBlock c s.db 2 = (d', some b) ∧ b.uncles = [digest rightDigest] ∧
      ∃ b' parent, validateBlock ((s.next (.candidate 1 2)).run [.restart 1 1 [7]]).db b = (b', .ok parent) := by
  intro s
  obtain ⟨made, count, along⟩ := Worked.leftFirst_candidate
  obtain ⟨c, engine, found⟩ := Option.bind_eq_some_iff.mp made
  obtain ⟨b, block, uncles⟩ := Option.map_eq_some_iff.mp found
  have room : (acceptedBlocks s.db).length ≤ 2 ^ 64 := by
    rw [count]
    decide
  have made : newCandidateBlock c s.db 2 = ((newCandidateBlock c s.db 2).1, some b) := Prod.ext rfl block
  exact ⟨c, _, b, engine, made, uncles,
    (candidate_stays_valid Worked.rivals_reached.1 engine room made along).1⟩

end Worked

end TrustNet
