import TrustNet.Consensus.AddBlock

/-!
# Additions keep the tree and move the main list

`ChainInv d g m`: the chain nodes form a tree rooted at `g`, and the flagged
ones are the ancestors of `m`. The lemmas follow the ways an addition can end.
An addition that stops between the link in the parent's list and the node of
the block leaves a list entry without a node; so the one thing a later addition
has to bring is that nobody but its parent lists it (`only`).
-/

namespace TrustNet
set_option autoImplicit false
open WriteLog (WritesOnly)
open ParentTree (Anc)

/-- The tree of chain nodes with the branch of `m` flagged. -/
structure ChainInv (d : Disk) (g m : Byte64) : Prop where
  tree : ChainTree d g
  main : MainListOf d g m

variable {d d' : Disk} {g m h : Byte64}

theorem ChainInv.of_nodes (inv : ChainInv d g m) (same : ∀ h, getChainNode d' h = getChainNode d h)
    (grow : d.log.length ≤ d'.log.length) : ChainInv d' g m := by
  have nodes := SameNodes.of_eq same
  refine ⟨nodes.chainTree grow inv.tree, by rw [same]; exact inv.main.1, fun h => ?_⟩
  rw [Flagged.congr same, nodes.parentOf_eq]
  exact inv.main.2 h

/-- Nobody but `p` lists `h` as a child. -/
def OnlyChildOf (d : Disk) (h p : Byte64) : Prop :=
  ∀ q qn, getChainNode d q = some qn → h ∈ qn.children → q = p

theorem OnlyChildOf.of_nodes {p : Byte64} (only : OnlyChildOf d h p)
    (same : ∀ h, getChainNode d' h = getChainNode d h) : OnlyChildOf d' h p := by
  intro q qn found listed
  rw [same] at found
  exact only q qn found listed

/-- A flagged node other than `m` lists exactly one flagged child. -/
theorem ChainInv.existsUnique_child {n : ChainNode} (inv : ChainInv d g m)
    (found : getChainNode d h = some n) (flagged : Flagged d h) (ne : h ≠ m) :
    ∃! k, k ∈ n.children ∧ Flagged d k := by
  obtain ⟨rank, ranked, -⟩ := inv.tree.ranked
  have edge_of_listed : ∀ {k}, k ∈ n.children → Flagged d k → parentOf d g k = some h := by
    rintro k listed ⟨kn, foundK, -⟩
    obtain ⟨parent, notGenesis⟩ := inv.tree.children found listed foundK
    rw [parentOf_of_found foundK notGenesis, parent]
  obtain ⟨k, up, edge⟩ := ((inv.main.2 h).mp flagged).child (Ne.symm ne)
  have flaggedK := (inv.main.2 k).mpr up
  refine ⟨k, ⟨?_, flaggedK⟩, ?_⟩
  · obtain ⟨kn, foundK, -⟩ := flaggedK
    have notGenesis : k ≠ g := by
      rintro rfl
      simp [parentOf] at edge
    obtain ⟨p, stored, listed⟩ := inv.tree.listed foundK notGenesis
    rw [parentOf_of_found foundK notGenesis, Option.some.injEq] at edge
    rw [edge, found] at stored
    cases stored
    exact listed
  · rintro k' ⟨listed, flagged'⟩
    exact Anc.child_unique ranked ((inv.main.2 k').mp flagged') up (edge_of_listed listed flagged') edge

section Admitted

variable [Sha512] {child : Block} {pn : ChainNode}

omit [Sha512] in
theorem putBlock_nodes (d : Disk) (hash : child.hash = some h) (q : Byte64) :
    getChainNode (putBlock d child).1 q = getChainNode d q :=
  getChainNode_of_writes (putBlock_writes d child hash) (by simp)

variable (inv : ChainInv d g m) (admitted : Admitted d child h pn)
include inv admitted

theorem Admitted.parent_hash : pn.hash = child.phash := inv.tree.keyed admitted.parent

/-- The nodes after the parent has listed its new child. -/
theorem linkParent_parent : getChainNode (linkParent d child h pn) child.phash = some (pn.addChild h) := by
  rw [← admitted.parent_hash inv]
  exact getChainNode_write_self _ _ _

omit inv in
theorem linkParent_other {q : Byte64} (ne : pn.hash ≠ q) :
    getChainNode (linkParent d child h pn) q = getChainNode d q := by
  unfold linkParent
  rw [getChainNode_write_of_ne _ _ (by simpa using ne), putBlock_nodes d admitted.hash]

theorem linkParent_fresh : getChainNode (linkParent d child h pn) h = none := by
  rw [linkParent_other admitted, admitted.fresh]
  intro eq
  have stored := admitted.parent
  rw [← admitted.parent_hash inv, eq, admitted.fresh] at stored
  cases stored

theorem linkParent_only (only : OnlyChildOf d h child.phash) : OnlyChildOf (linkParent d child h pn) h child.phash := by
  intro q qn found listed
  by_cases eq : pn.hash = q
  · rw [← eq]
    exact admitted.parent_hash inv
  · rw [linkParent_other admitted eq] at found
    exact only q qn found listed

theorem linkParent_inv : ChainInv (linkParent d child h pn) g m := by
  have before := inv.of_nodes (putBlock_nodes d admitted.hash)
    (putBlock_writes d child admitted.hash).length_le
  have stored : getChainNode (putBlock d child).1 pn.hash = some pn := by
    rw [putBlock_nodes d admitted.hash, admitted.parent_hash inv, admitted.parent]
  have fresh : getChainNode (putBlock d child).1 h = none := by
    rw [putBlock_nodes d admitted.hash, admitted.fresh]
  have edges := parentOf_write_same (g := g) (pn.addChild h) stored rfl
  refine ⟨before.tree.link stored fresh, ?_, fun q => ?_⟩
  · by_cases eq : pn.hash = m
    · rw [← eq, admitted.parent_hash inv, linkParent_parent inv admitted]
      rfl
    · rw [linkParent_other admitted eq]
      exact inv.main.1
  · unfold linkParent
    rw [edges, ← before.main.2 q]
    refine (flagged_write (putBlock d child).1 (pn.addChild h) q).trans ?_
    by_cases eq : q = pn.hash
    · subst eq
      simp [Flagged, stored, ChainNode.addChild]
    · simp [eq, ChainNode.addChild]

/-- A block that does not beat the tip becomes a leaf off the main list. -/
theorem side_inv (only : OnlyChildOf d h child.phash) :
    ChainInv ((linkParent d child h pn).write (.chainNode h) (some (.chainNode (newChainNode child.toBlockSpec h))))
      g m := by
  have linked := linkParent_inv inv admitted
  have fresh : getChainNode (linkParent d child h pn) (newChainNode child.toBlockSpec h).hash = none :=
    linkParent_fresh inv admitted
  have tree := linked.tree.addLeaf (n := newChainNode child.toBlockSpec h) fresh rfl
    (linkParent_parent inv admitted) (by simp [ChainNode.addChild, newChainNode]) (linkParent_only inv admitted only)
  have mNe : m ≠ h := by
    intro eq
    have stored := linked.main.1
    rw [eq, linkParent_fresh inv admitted] at stored
    cases stored
  have old := fun {b : Byte64} => ParentTree.anc_of_ne_leaf (b := b) (linked.tree.no_edge_to_fresh fresh)
    (fun y ne => parentOf_write_of_ne (d := linkParent d child h pn) (g := g) (n := newChainNode child.toBlockSpec h) ne)
    mNe
  refine ⟨tree, ?_, fun q => ?_⟩
  · rw [getChainNode_write_of_ne _ _ (by simpa using Ne.symm mNe)]
    exact linked.main.1
  · refine (flagged_write (linkParent d child h pn) (newChainNode child.toBlockSpec h) q).trans (Iff.trans ?_ old.symm)
    by_cases eq : q = h
    · subst eq
      simp only [newChainNode, if_true, Bool.false_eq_true, false_iff]
      intro up
      have stored := linked.tree.anc_stored linked.main.1 up
      rw [linkParent_fresh inv admitted] at stored
      cases stored
    · simp only [newChainNode, eq, if_false]
      exact linked.main.2 q

omit [Sha512] inv admitted in
theorem moveDagTip_nodes (q : Byte64) : getChainNode (moveDagTip d child h pn) q = getChainNode (linkParent d child h pn) q :=
  getChainNode_write_of_ne _ _ (by simp)

/-- A failed rebase leaves the main list where it was. -/
theorem moveDagTip_inv : ChainInv (moveDagTip d child h pn) g m :=
  (linkParent_inv inv admitted).of_nodes (moveDagTip_nodes) (by simp [moveDagTip, WriteLog.write])

omit inv admitted in
/-- The database in which the main list is switched has the nodes of the linked one. -/
theorem registered_nodes {d₁ : Disk} {state : MptWorldState} (rebased : Rebased (moveDagTip d child h pn) child.state d₁ state)
    (q : Byte64) :
    getChainNode (registerTransactions d₁ h child.txs).1 q = getChainNode (linkParent d child h pn) q := by
  rw [getChainNode_of_writes (registerTransactions_writes d₁ h child.txs).2.1 (by simp),
    (SameRecords.of_steps rebased.steps).chainNode, moveDagTip_nodes]

omit inv admitted in
theorem registered_length {d₁ : Disk} {state : MptWorldState}
    (rebased : Rebased (moveDagTip d child h pn) child.state d₁ state) :
    (linkParent d child h pn).log.length ≤ (registerTransactions d₁ h child.txs).1.log.length := by
  have first := (registerTransactions_writes d₁ h child.txs).2.1.length_le
  have second := rebased.steps.length_le
  simp only [moveDagTip, WriteLog.write, List.length_cons] at second
  omega

/-- A new tip takes the main list over. -/
theorem moved_switched {d₁ : Disk} {state : MptWorldState} {outcome : Outcome} (only : OnlyChildOf d h child.phash)
    (rebased : Rebased (moveDagTip d child h pn) child.state d₁ state)
    (switched : switchMainList (registerTransactions d₁ h child.txs).1 (newChainNode child.toBlockSpec h)
      (pn.addChild h) = (d', outcome)) :
    outcome = .ok ∧ ∃ d₂ qn last, Switched g m (registerTransactions d₁ h child.txs).1
      ((newChainNode child.toBlockSpec h).setMainList true) (pn.addChild h) d₂ d' qn last := by
  have nodes := registered_nodes rebased
  have parent : (pn.addChild h).hash = child.phash := id (admitted.parent_hash inv : pn.hash = child.phash)
  have before : ChainInv (registerTransactions d₁ h child.txs).1 g m :=
    (linkParent_inv inv admitted).of_nodes nodes (registered_length rebased)
  obtain ⟨d₂, d'', qn, last, run, done⟩ := switchMainList_spec (n := newChainNode child.toBlockSpec h) before.tree
    before.main
    (by rw [nodes, parent]; exact linkParent_parent inv admitted) rfl (by rw [nodes]; exact linkParent_fresh inv admitted) rfl parent.symm
    (by simp [ChainNode.addChild, newChainNode, ChainNode.setMainList])
    ((linkParent_only inv admitted only).of_nodes nodes)
  rw [switched] at run
  cases run
  exact ⟨rfl, d₂, qn, last, done⟩

end Admitted

end TrustNet
