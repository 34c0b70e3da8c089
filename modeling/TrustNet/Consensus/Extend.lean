import TrustNet.Consensus.ChainInvariant

/-!
# A database with one more block

Whether a new block becomes the tip or not, the tables hold the old records and
the block. `Extended` says so without the flags, which are the business of
`ChainInv`.
-/

namespace TrustNet
set_option autoImplicit false
open WriteLog (WritesOnly)
open ParentTree (Anc)

/-- What a chain node repeats of its block. -/
def ChainNode.header (n : ChainNode) : Byte64 × UInt64 × UInt64 := (n.parent, n.depth, n.weight)

@[inherit_doc ChainNode.header]
def BlockSpec.header (spec : BlockSpec) : Byte64 × UInt64 × UInt64 := (spec.phash, spec.depth, spec.wt)

/-- The header of a stored node. -/
def nodeHeader (d : Disk) (h : Byte64) : Option (Byte64 × UInt64 × UInt64) := (getChainNode d h).map ChainNode.header

theorem SameNodes.nodeHeader {d d' : Disk} (same : SameNodes d d') (h : Byte64) : nodeHeader d' h = nodeHeader d h := by
  have eq := congrArg (Option.map ChainNode.header) (same h)
  rw [Option.map_map, Option.map_map] at eq
  exact eq

theorem nodeHeader_isSome {d : Disk} {h : Byte64} : (nodeHeader d h).isSome = (getChainNode d h).isSome :=
  Option.isSome_map

/-- The edges are a function of the headers. -/
theorem parentOf_eq_header (d : Disk) (g h : Byte64) :
    parentOf d g h = if h = g then none else (nodeHeader d h).map Prod.fst := by
  rw [nodeHeader, Option.map_map]
  rfl

theorem parentOf_congr {d d' : Disk} (same : ∀ h, nodeHeader d' h = nodeHeader d h) (g : Byte64) :
    parentOf d' g = parentOf d g := by
  funext h
  rw [parentOf_eq_header, parentOf_eq_header, same]

/-- The database `d'` holds the records of `d` and the block `child` with hash `h`, flags aside. -/
structure Extended (d : Disk) (child : Block) (h : Byte64) (d' : Disk) : Prop where
  spec : ∀ q, getSpec d' q = if q = h then some child.toBlockSpec else getSpec d q
  header : ∀ q, nodeHeader d' q = if q = h then some child.header else nodeHeader d q
  children : ∀ {q qn k}, getChainNode d' q = some qn → k ∈ qn.children →
    (q = child.phash ∧ k = h) ∨ ∃ qn₀, getChainNode d q = some qn₀ ∧ k ∈ qn₀.children
  order : acceptedBlocks d' = acceptedBlocks d ++ [(h, child.toBlockSpec)]
  grown : d.log.length ≤ d'.log.length

theorem Extended.of_nodes {d d' d'' : Disk} {child : Block} {h : Byte64} (first : Extended d child h d')
    (specs : ∀ q, getSpec d'' q = getSpec d' q) (same : SameNodes d' d'')
    (order : acceptedBlocks d'' = acceptedBlocks d') (grow : d'.log.length ≤ d''.log.length) :
    Extended d child h d'' where
  spec q := (specs q).trans (first.spec q)
  header q := (same.nodeHeader q).trans (first.header q)
  children found listed := by
    obtain ⟨qn', found', -, children, -⟩ := same.symm.some found
    exact first.children found' (by rw [children]; exact listed)
  order := order.trans first.order
  grown := first.grown.trans grow

/-! ## The tree with one more leaf -/

section Tree

variable {d d' : Disk} {child : Block} {g h b : Byte64} (extended : Extended d child h d') (tree : ChainTree d g)
  (fresh : getChainNode d h = none)
include extended

theorem Extended.isSome (q : Byte64) : (getChainNode d' q).isSome ↔ q = h ∨ (getChainNode d q).isSome := by
  rw [← nodeHeader_isSome, extended.header]
  split
  · simp [*]
  · simp [*, nodeHeader_isSome]

include tree fresh

theorem Extended.parentOf_new : parentOf d' g h = some child.phash := by
  have ne : h ≠ g := by
    rintro rfl
    have stored := tree.genesis
    rw [fresh] at stored
    cases stored
  rw [parentOf_eq_header, if_neg ne, extended.header, if_pos rfl]
  rfl

omit tree fresh in
theorem Extended.parentOf_old {q : Byte64} (ne : q ≠ h) : parentOf d' g q = parentOf d g q := by
  rw [parentOf_eq_header, parentOf_eq_header, extended.header, if_neg ne]

omit extended in
theorem ChainTree.no_edge (q : Byte64) : parentOf d g q ≠ some h := by
  intro edge
  have stored := tree.parent_stored edge
  rw [fresh] at stored
  cases stored

/-- The branches of the old nodes do not change. -/
theorem Extended.anc_old {q : Byte64} (ne : q ≠ h) : Anc (parentOf d' g) q b ↔ Anc (parentOf d g) q b :=
  ParentTree.anc_of_ne_leaf (tree.no_edge fresh) (fun _ => extended.parentOf_old) ne

/-- The branch of the new leaf. -/
theorem Extended.anc_new (parent : (getChainNode d child.phash).isSome) :
    Anc (parentOf d' g) h b ↔ b = h ∨ Anc (parentOf d g) child.phash b := by
  refine ParentTree.anc_leaf (tree.no_edge fresh) (fun _ => extended.parentOf_old) (extended.parentOf_new tree fresh) ?_
  rintro eq
  rw [eq, fresh] at parent
  cases parent

end Tree

variable [Sha512]

section Leaf

variable {d : Disk} {g m h : Byte64} {child : Block} {pn : ChainNode} (inv : ChainInv d g m)
  (admitted : Admitted d child h pn)
  (stored : (putBlock d child).1 = d.write (.block h) (some (.block child.toBlockSpec)))

omit [Sha512] in
include stored in
theorem linkParent_spec (q : Byte64) :
    getSpec (linkParent d child h pn) q = if q = h then some child.toBlockSpec else getSpec d q := by
  unfold linkParent
  rw [getSpec_write_of_ne _ _ (by simp), stored]
  split
  · rename_i eq
    subst eq
    exact getSpec_write_self _ _ _
  · rename_i ne
    exact getSpec_write_of_ne _ _ (by simpa using Ne.symm ne)

include inv admitted in
theorem linkParent_header (q : Byte64) : nodeHeader (linkParent d child h pn) q = nodeHeader d q := by
  unfold nodeHeader
  by_cases eq : pn.hash = q
  · subst eq
    rw [admitted.parent_hash inv, linkParent_parent inv admitted, admitted.parent]
    rfl
  · rw [linkParent_other admitted eq]

include inv admitted in
/-- The children lists after the link. -/
theorem linkParent_children {q k : Byte64} {qn : ChainNode} (found : getChainNode (linkParent d child h pn) q = some qn)
    (listed : k ∈ qn.children) :
    (q = child.phash ∧ k = h) ∨ ∃ qn₀, getChainNode d q = some qn₀ ∧ k ∈ qn₀.children := by
  by_cases isParent : pn.hash = q
  · rw [← isParent, admitted.parent_hash inv, linkParent_parent inv admitted] at found
    cases found
    rw [ChainNode.addChild, List.mem_append, List.mem_singleton] at listed
    rw [← isParent, admitted.parent_hash inv]
    exact listed.elim (fun old => Or.inr ⟨pn, admitted.parent, old⟩) fun new => Or.inl ⟨rfl, new⟩
  · rw [linkParent_other admitted isParent] at found
    exact Or.inr ⟨qn, found, listed⟩

/-- The link with any node of the block written over it. -/
theorem extended_leaf (d₁ : Disk) (x : ChainNode) (header : x.header = child.header) (leaf : x.children = [])
    (hash : x.hash = h) (inv : ChainInv d g m) (admitted : Admitted d child h pn)
    (stored : (putBlock d child).1 = d.write (.block h) (some (.block child.toBlockSpec)))
    (specs : ∀ q, getSpec d₁ q = getSpec (linkParent d child h pn) q) (same : SameNodes (linkParent d child h pn) d₁)
    (order : acceptedBlocks d₁ = acceptedBlocks (linkParent d child h pn))
    (grow : (linkParent d child h pn).log.length ≤ d₁.log.length) :
    Extended d child h (d₁.write (.chainNode x.hash) (some (.chainNode x))) := by
  subst hash
  constructor
  · intro q
    rw [getSpec_write_of_ne _ _ (by simp), specs, linkParent_spec stored]
  · intro q
    by_cases eq : q = x.hash
    · subst eq
      rw [if_pos rfl, nodeHeader, getChainNode_write_self, Option.map_some, header]
    · rw [if_neg eq, nodeHeader, getChainNode_write_of_ne _ _ (by simpa using Ne.symm eq)]
      exact (same.nodeHeader q).trans (linkParent_header inv admitted q)
  · intro q qn k found listed
    by_cases eq : q = x.hash
    · subst eq
      rw [getChainNode_write_self] at found
      cases found
      rw [leaf] at listed
      cases listed
    · rw [getChainNode_write_of_ne _ _ (by simpa using Ne.symm eq)] at found
      obtain ⟨qn', found', -, children, -⟩ := same.symm.some found
      exact linkParent_children inv admitted found' (by rw [children]; exact listed)
  · rw [acceptedBlocks_write_of_ne _ _ (by simp), order, linkParent, acceptedBlocks_write_of_ne _ _ (by simp), stored,
      acceptedBlocks_write]
  · have first := (linkParent_writes d child pn admitted.hash).length_le
    simp only [WriteLog.write, List.length_cons]
    omega

end Leaf

section Ends

variable {d d' d₁ : Disk} {g m h : Byte64} {child : Block} {pn : ChainNode} {state : MptWorldState}

/-- A block that does not beat the tip is stored. -/
theorem side_extended (inv : ChainInv d g m) (admitted : Admitted d child h pn)
    (stored : (putBlock d child).1 = d.write (.block h) (some (.block child.toBlockSpec))) :
    Extended d child h
      ((linkParent d child h pn).write (.chainNode h) (some (.chainNode (newChainNode child.toBlockSpec h)))) :=
  extended_leaf _ (newChainNode child.toBlockSpec h) rfl rfl rfl inv admitted stored (fun _ => rfl) (SameNodes.refl _)
    rfl (Nat.le_refl _)

/-- The records between the link and the switch of the main list. -/
theorem registered_specs (rebased : Rebased (moveDagTip d child h pn) child.state d₁ state) (q : Byte64) :
    getSpec (registerTransactions d₁ h child.txs).1 q = getSpec (linkParent d child h pn) q := by
  rw [getSpec_of_writes (registerTransactions_writes d₁ h child.txs).2.1 (by simp),
    (SameRecords.of_steps rebased.steps).spec]
  exact getSpec_write_of_ne _ _ (by simp)

theorem registered_accepted (rebased : Rebased (moveDagTip d child h pn) child.state d₁ state) :
    acceptedBlocks (registerTransactions d₁ h child.txs).1 = acceptedBlocks (linkParent d child h pn) := by
  rw [acceptedBlocks_of_writes (registerTransactions_writes d₁ h child.txs).2.1 (by simp),
    (SameRecords.of_steps rebased.steps).accepted]
  exact acceptedBlocks_write_of_ne _ _ (by simp)

theorem upWrite_spec {par : Byte64 → Option Byte64} {specs : Byte64 → Option BlockSpec} {p q k : Byte64}
    {v : Option Value} : ¬ UpWrite par specs p q (.block k, v) := by
  rintro ⟨_, _, _, _, ⟨_, eq⟩ | ⟨_, _, _, _, eq⟩⟩
  · cases eq
  · cases eq

/-- The switch of the main list stores no block. -/
theorem switched_specs {d₂ : Disk} {x qn last : ChainNode} (switched : Switched g m d x pn d₂ d' qn last) (q : Byte64) :
    getSpec d' q = getSpec d q := by
  rw [getSpec_of_writes switched.down (by rintro v ⟨k, n, eq, -⟩; cases eq), getSpec_write_of_ne _ _ (by simp),
    getSpec_of_writes switched.up.writes fun _ => upWrite_spec]

/-- A block that becomes the tip is stored. -/
theorem moved_extended {d₂ : Disk} {qn last : ChainNode} (inv : ChainInv d g m) (admitted : Admitted d child h pn)
    (stored : (putBlock d child).1 = d.write (.block h) (some (.block child.toBlockSpec)))
    (rebased : Rebased (moveDagTip d child h pn) child.state d₁ state)
    (switched : Switched g m (registerTransactions d₁ h child.txs).1
      ((newChainNode child.toBlockSpec h).setMainList true) (pn.addChild h) d₂ d' qn last) :
    Extended d child h d' := by
  have middle := extended_leaf d₂ ((newChainNode child.toBlockSpec h).setMainList true) rfl rfl rfl inv
    admitted stored
    (fun q => (getSpec_of_writes switched.up.writes fun _ => upWrite_spec).trans (registered_specs rebased q))
    ((SameNodes.of_eq (registered_nodes rebased)).trans switched.up.same)
    ((acceptedBlocks_of_writes switched.up.writes fun _ _ => upWrite_spec).trans (registered_accepted rebased))
    ((registered_length rebased).trans switched.up.writes.length_le)
  exact middle.of_nodes
    (fun q => getSpec_of_writes switched.down (by rintro v ⟨k, n, eq, -⟩; cases eq)) switched.nodes
    (acceptedBlocks_of_writes switched.down (by rintro k v ⟨_, n, eq, -⟩; cases eq)) switched.down.length_le

/-- The tip record after a switch. -/
theorem moved_dagTip {d₂ : Disk} {x qn last : ChainNode}
    (rebased : Rebased (moveDagTip d child h pn) child.state d₁ state)
    (switched : Switched g m (registerTransactions d₁ h child.txs).1 x (pn.addChild h) d₂ d' qn last) :
    getDagTip d' = some h := by
  rw [getDagTip_of_writes switched.down (by rintro v ⟨k, n, eq, -⟩; cases eq), getDagTip_write_of_ne _ _ (by simp),
    getDagTip_of_writes switched.up.writes (by
      rintro v ⟨_, _, _, _, ⟨_, eq⟩ | ⟨_, _, _, _, eq⟩⟩
      · cases eq
      · cases eq),
    getDagTip_of_writes (registerTransactions_writes d₁ h child.txs).2.1 (by simp),
    (SameRecords.of_steps rebased.steps).dagTip]
  exact getDagTip_write_self _ _

end Ends

end TrustNet
