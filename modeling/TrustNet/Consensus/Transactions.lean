import TrustNet.Consensus.MainList

/-!
# Transactions on the main list

The duplicate check of `addValidatedBlock` finds a transaction of a new block in
the main list of the moment, through the index. It does not look at the
transactions of the block itself, nor at those of its ancestors off the main
list. `TxInv` holds in every run in which the submitted blocks bring no such
repetition, whether or not the engine could rebase to its tips. After a failed
rebase a parent lists a child that has no node yet; that the child comes back
under the same parent only, is where SHA-512 must not collide: the hash of the
parent is the beginning of the data that is hashed.
-/

namespace TrustNet
set_option autoImplicit false
open WriteLog (WritesOnly Wrote)
open ParentTree (Anc)

section Invariant

variable [Sha512]

/-- The transaction ids of a block. -/
def BlockSpec.txIds (spec : BlockSpec) : List Byte64 := spec.txs.map Transaction.id

/-- The transaction ids of a stored block. -/
def txIds (d : Disk) (h : Byte64) : List Byte64 :=
  match getSpec d h with
  | some spec => spec.txIds
  | none => []

theorem txIds_of_spec {d : Disk} {h : Byte64} {spec : BlockSpec} (found : getSpec d h = some spec) :
    txIds d h = spec.txIds := by
  simp only [txIds, found]

theorem txIds_congr {d d' : Disk} {h : Byte64} (same : getSpec d' h = getSpec d h) : txIds d' h = txIds d h := by
  simp only [txIds, same]

/-- The hash `k` is the digest of data that was hashed for a child of `p`. -/
def HashedUnder (X : Set Bytes) (p k : Byte64) : Prop := ∃ data ∈ X, k = sum512 data ∧ data.take 64 = p.bytes

/-- Without collisions a hash has one parent. -/
theorem HashedUnder.unique {X : Set Bytes} (free : Set.InjOn sum512 X) {p q k : Byte64} (first : HashedUnder X p k)
    (second : HashedUnder X q k) : p = q := by
  obtain ⟨x, memberX, eqX, prefixX⟩ := first
  obtain ⟨y, memberY, eqY, prefixY⟩ := second
  have same : x = y := free memberX memberY (eqX.symm.trans eqY)
  apply Byte64.ext
  rw [← prefixX, ← prefixY, same]

/-- No two blocks of one branch have a transaction in common. -/
def DisjointTxs (d : Disk) (g : Byte64) : Prop :=
  ∀ ⦃a b⦄, (getChainNode d a).isSome → Anc (parentOf d g) a b → a ≠ b → (txIds d a).Disjoint (txIds d b)

/-- The index finds the transactions of the main list in their blocks. -/
def Indexed (d : Disk) : Prop := ∀ ⦃h id⦄, Flagged d h → id ∈ txIds d h → hasTransaction d id = some h

/-- No transaction comes twice on one branch. -/
structure DistinctTxs (d : Disk) (g : Byte64) : Prop where
  nodup : ∀ {h}, (getChainNode d h).isSome → (txIds d h).Nodup
  disjoint : DisjointTxs d g

/-- The invariant of the transactions. -/
structure TxInv (X : Set Bytes) (d : Disk) (g m : Byte64) : Prop where
  chain : ChainInv d g m
  origin : ∀ {p pn k}, getChainNode d p = some pn → k ∈ pn.children → HashedUnder X p k
  distinct : DistinctTxs d g
  indexed : Indexed d

variable {X : Set Bytes} {d d' : Disk} {g m h : Byte64} {child : Block}

/-- Two blocks of one branch have no transaction in common. -/
theorem DisjointTxs.branch (disjoint : DisjointTxs d g) (tree : ChainTree d g) {a b : Byte64} (stored : (getChainNode d h).isSome)
    (ha : Anc (parentOf d g) h a) (hb : Anc (parentOf d g) h b) (ne : a ≠ b) : (txIds d a).Disjoint (txIds d b) := by
  rcases ha.total hb with up | up
  · exact disjoint (tree.anc_stored stored ha) up ne
  · exact (disjoint (tree.anc_stored stored hb) up (Ne.symm ne)).symm

/-- Steps that keep the headers, the blocks of the nodes, and the index. -/
theorem TxInv.of_frame (inv : TxInv X d g m) (chain : ChainInv d' g m) (headers : ∀ q, nodeHeader d' q = nodeHeader d q)
    (origin : ∀ {p pn k}, getChainNode d' p = some pn → k ∈ pn.children → HashedUnder X p k)
    (specs : ∀ q, (getChainNode d q).isSome → getSpec d' q = getSpec d q)
    (index : ∀ id, hasTransaction d' id = hasTransaction d id) : TxInv X d' g m := by
  have edges := parentOf_congr headers g
  have stored : ∀ {q}, (getChainNode d' q).isSome → (getChainNode d q).isSome := by
    intro q found
    rw [← nodeHeader_isSome, headers, nodeHeader_isSome] at found
    exact found
  refine ⟨chain, origin, ⟨fun found => ?_, fun a b found up ne => ?_⟩, fun q id flagged member => ?_⟩
  · rw [txIds_congr (specs _ (stored found))]
    exact inv.distinct.nodup (stored found)
  · rw [edges] at up
    have storedB := inv.chain.tree.anc_stored (stored found) up
    rw [txIds_congr (specs _ (stored found)), txIds_congr (specs _ storedB)]
    exact inv.distinct.disjoint (stored found) up ne
  · rw [chain.main.2, edges, ← inv.chain.main.2] at flagged
    have storedQ := inv.chain.tree.anc_stored inv.chain.main.1 ((inv.chain.main.2 q).mp flagged)
    rw [txIds_congr (specs _ storedQ)] at member
    rw [index]
    exact inv.indexed flagged member

theorem TxInv.of_records (inv : TxInv X d g m) (same : SameRecords d d') (grow : d.log.length ≤ d'.log.length) :
    TxInv X d' g m := by
  refine inv.of_frame (inv.chain.of_nodes same.chainNode grow) (fun q => ?_) (fun {p pn k} found => ?_)
    (fun q _ => same.spec q) same.index
  · rw [nodeHeader, same.chainNode]
    rfl
  · rw [same.chainNode] at found
    exact inv.origin found

/-! ## What the duplicate check finds -/

theorem isDuplicateTx_of_indexed (child : Block) {tx : Transaction} (indexed : hasTransaction d tx.id = some h) (flagged : Flagged d h)
    (stored : (getSpec d h).isSome) : isDuplicateTx d child tx = true := by
  obtain ⟨n, found, mark⟩ := flagged
  obtain ⟨spec, foundSpec⟩ := Option.isSome_iff_exists.mp stored
  have status : transactionStatus d tx.id = (some { spec.toBlock with hash := some h }, some n, none) := by
    simp [transactionStatus, indexed, found, mark, getBlock, foundSpec]
  simp [isDuplicateTx, status, mark]

/-- An admitted block brings no transaction of the main list. -/
theorem Indexed.clean (index : Indexed d) (clean : child.txs.any (isDuplicateTx d child) = false) {f : Byte64}
    (flagged : Flagged d f) : child.txIds.Disjoint (txIds d f) := by
  intro id member memberF
  obtain ⟨tx, memberTx, rfl⟩ := List.mem_map.mp member
  have stored : (getSpec d f).isSome := by
    cases found : getSpec d f with
    | none => simp [txIds, found] at memberF
    | some spec => rfl
  have duplicate := isDuplicateTx_of_indexed child (index flagged memberF) flagged stored
  rw [List.any_eq_false] at clean
  exact clean tx memberTx duplicate

/-! ## Additions -/

/-- The block repeats no transaction of an ancestor off the main list. -/
def NewTxs (d : Disk) (g : Byte64) (b : BlockSpec) : Prop :=
  ∀ a, Anc (parentOf d g) b.phash a → ¬ Flagged d a → b.txIds.Disjoint (txIds d a)

/-- The block repeats no transaction, of its own or of an ancestor off the main list. -/
def FreshTxs (d : Disk) (g : Byte64) (b : BlockSpec) : Prop := b.txIds.Nodup ∧ NewTxs d g b

variable {pn : ChainNode}

/-- The check and the condition together: nothing of the branch comes again. -/
theorem Indexed.apart (index : Indexed d) (new : NewTxs d g child.toBlockSpec)
    (clean : child.txs.any (isDuplicateTx d child) = false) {a : Byte64} (up : Anc (parentOf d g) child.phash a) :
    child.txIds.Disjoint (txIds d a) := by
  by_cases flagged : Flagged d a
  · exact index.clean clean flagged
  · exact new a up flagged

theorem Extended.txIds (extended : Extended d child h d') (q : Byte64) :
    TrustNet.txIds d' q = if q = h then child.txIds else TrustNet.txIds d q := by
  unfold TrustNet.txIds
  rw [extended.spec]
  by_cases eq : q = h
  · rw [if_pos eq, if_pos eq]
  · rw [if_neg eq, if_neg eq]

/-- A new block without a transaction of its branch. -/
theorem DisjointTxs.extended (disjoint : DisjointTxs d g) (tree : ChainTree d g) (admitted : Admitted d child h pn)
    (extended : Extended d child h d')
    (apart : ∀ a, Anc (parentOf d g) child.phash a → child.txIds.Disjoint (TrustNet.txIds d a)) : DisjointTxs d' g := by
  have parent : (getChainNode d child.phash).isSome := by rw [admitted.parent]; rfl
  have ne_of_stored : ∀ {q}, (getChainNode d q).isSome → q ≠ h := by
    rintro q stored rfl
    rw [admitted.fresh] at stored
    cases stored
  intro a b stored up ne
  by_cases eq : a = h
  · subst eq
    have up := ((extended.anc_new tree admitted.fresh parent).mp up).resolve_left (Ne.symm ne)
    rw [extended.txIds, if_pos rfl, extended.txIds, if_neg (Ne.symm ne)]
    exact apart b up
  · have storedA := ((extended.isSome a).mp stored).resolve_left eq
    rw [extended.anc_old tree admitted.fresh eq] at up
    rw [extended.txIds, if_neg eq, extended.txIds, if_neg (ne_of_stored (tree.anc_stored storedA up))]
    exact disjoint storedA up ne

theorem TxInv.distinct_extended (inv : TxInv X d g m) (admitted : Admitted d child h pn)
    (extended : Extended d child h d') (fresh : FreshTxs d g child.toBlockSpec) : DistinctTxs d' g := by
  have disjoint := inv.distinct.disjoint.extended inv.chain.tree admitted extended
    fun a up => inv.indexed.apart fresh.2 admitted.clean up
  refine ⟨fun {q} stored => ?_, disjoint⟩
  rw [extended.txIds]
  split
  · exact fresh.1
  · rename_i ne
    exact inv.distinct.nodup (((extended.isSome q).mp stored).resolve_left ne)

theorem Extended.origin (inv : TxInv X d g m) (extended : Extended d child h d') (source : HashedUnder X child.phash h)
    {p k : Byte64} {n : ChainNode} (found : getChainNode d' p = some n) (listed : k ∈ n.children) :
    HashedUnder X p k := by
  rcases extended.children found listed with ⟨rfl, rfl⟩ | ⟨n₀, old, listed⟩
  · exact source
  · exact inv.origin old listed

/-- Nobody else lists the hash of a new block. -/
theorem TxInv.only (inv : TxInv X d g m) (free : Set.InjOn sum512 X) (source : HashedUnder X child.phash h) :
    OnlyChildOf d h child.phash :=
  fun _ _ found listed => (inv.origin found listed).unique free source

omit [Sha512] in
/-- A block off the main list is not indexed. -/
theorem side_index (hash : child.hash = some h) (id : Byte64) :
    hasTransaction ((linkParent d child h pn).write (.chainNode h)
      (some (.chainNode (newChainNode child.toBlockSpec h)))) id = hasTransaction d id := by
  rw [hasTransaction_write_of_ne _ _ (by simp)]
  exact hasTransaction_of_writes (linkParent_writes d child pn hash) (by simp)

/-- A block off the main list leaves the index right. -/
theorem Indexed.side (index : Indexed d) (inv : ChainInv d g m) (chain : ChainInv d' g m) (admitted : Admitted d child h pn)
    (extended : Extended d child h d') (same : ∀ id, hasTransaction d' id = hasTransaction d id) : Indexed d' := by
  intro q id flagged member
  have ne_of_stored : ∀ {q}, (getChainNode d q).isSome → q ≠ h := by
    rintro q stored rfl
    rw [admitted.fresh] at stored
    cases stored
  rw [chain.main.2, extended.anc_old inv.tree admitted.fresh (ne_of_stored inv.main.1)] at flagged
  rw [extended.txIds, if_neg (ne_of_stored (inv.tree.anc_stored inv.main.1 flagged))] at member
  rw [same]
  exact index ((inv.main.2 q).mpr flagged) member

/-- A block off the main list. -/
theorem TxInv.side (inv : TxInv X d g m) (free : Set.InjOn sum512 X) (source : HashedUnder X child.phash h)
    (admitted : Admitted d child h pn) (fresh : FreshTxs d g child.toBlockSpec)
    (stored : (putBlock d child).1 = d.write (.block h) (some (.block child.toBlockSpec))) :
    TxInv X ((linkParent d child h pn).write (.chainNode h) (some (.chainNode (newChainNode child.toBlockSpec h))))
      g m := by
  have extended := side_extended inv.chain admitted stored
  have chain := side_inv inv.chain admitted (inv.only free source)
  have index := inv.indexed.side inv.chain chain admitted extended (side_index admitted.hash)
  exact ⟨chain, extended.origin inv source, inv.distinct_extended admitted extended fresh,
    fun {q id} flagged member => index flagged member⟩

/-! ## The index of a new tip -/

/-- An index entry names a block of the branch of `h` that has the transaction. -/
def IndexWrite (d : Disk) (g h : Byte64) (w : Key × Option Value) : Prop :=
  ∀ id v, w = (.flatTx id, v) → ∃ b, Anc (parentOf d g) h b ∧ id ∈ txIds d b ∧ v = some (.hash b)

theorem IndexWrite.of_ne {w : Key × Option Value} (ne : ∀ id, w.1 ≠ .flatTx id) : IndexWrite d g h w :=
  fun id _ eq => absurd (congrArg Prod.fst eq) (ne id)

/-- On a branch without repetitions a written entry is right. -/
theorem IndexWrite.eq {id b : Byte64} {v : Option Value} (tree : ChainTree d g) (disjoint : DisjointTxs d g)
    (stored : (getChainNode d h).isSome) (write : IndexWrite d g h (.flatTx id, v)) (up : Anc (parentOf d g) h b)
    (member : id ∈ txIds d b) : v = some (.hash b) := by
  obtain ⟨b', up', member', rfl⟩ := write id v rfl
  by_contra ne
  exact disjoint.branch tree stored up' up (fun eq => ne (by rw [eq])) member' member

omit [Sha512] in
theorem hasTransaction_of_get {id b : Byte64} (read : WriteLog.get d (.flatTx id) = some (.hash b)) :
    hasTransaction d id = some b := by
  simp [hasTransaction, read]

/-- The entries of a new tip are right if its branch has no repetitions. -/
theorem Indexed.moved (index : Indexed d) (chain : ChainInv d' g h) (disjoint : DisjointTxs d' g)
    (extended : Extended d child h d') (writes : WritesOnly (IndexWrite d' g h) d d')
    (wrote : ∀ {f id}, Anc (parentOf d' g) h f → (f = h ∨ ¬ Flagged d f) → id ∈ txIds d' f →
      Wrote d d' (.flatTx id, some (.hash f))) : Indexed d' := by
  intro f id flagged member
  have up := (chain.main.2 f).mp flagged
  have agree : ∀ v, IndexWrite d' g h (.flatTx id, v) → v = some (.hash f) :=
    fun v write => write.eq chain.tree disjoint chain.main.1 up member
  by_cases new : f = h ∨ ¬ Flagged d f
  · exact hasTransaction_of_get (writes.get_of_wrote (wrote up new member) agree)
  · rw [not_or, not_not] at new
    rcases writes.get_cases (.flatTx id) with same | written
    · rw [extended.txIds, if_neg new.1] at member
      have old := index new.2 member
      simp only [hasTransaction, Disk.get_eq, same] at old ⊢
      exact old
    · exact hasTransaction_of_get (agree _ written)

section Moved

variable {d₁ d₂ : Disk} {state : MptWorldState} {x qn last : ChainNode} (chain : ChainInv d g m)
  (admitted : Admitted d child h pn) (extended : Extended d child h d')
  (rebased : Rebased (moveDagTip d child h pn) child.state d₁ state)
  (switched : Switched g m (registerTransactions d₁ h child.txs).1 x (pn.addChild h) d₂ d' qn last)

include chain admitted rebased in
theorem registered_header (q : Byte64) : nodeHeader (registerTransactions d₁ h child.txs).1 q = nodeHeader d q := by
  rw [nodeHeader, registered_nodes rebased]
  exact linkParent_header chain admitted q

include chain admitted rebased in
theorem registered_flagged (q : Byte64) : Flagged (registerTransactions d₁ h child.txs).1 q ↔ Flagged d q := by
  have linked := linkParent_inv chain admitted
  rw [Flagged.congr (registered_nodes rebased), linked.main.2, chain.main.2,
    parentOf_congr (linkParent_header chain admitted)]

include chain admitted extended rebased switched in
/-- All index entries that the move of the tip writes. -/
theorem moved_indexWrites : WritesOnly (IndexWrite d' g h) d d' := by
  have tree := chain.tree
  have parent : (getChainNode d child.phash).isSome := by rw [admitted.parent]; rfl
  have edges := parentOf_congr (registered_header chain admitted rebased) g
  have start : WritesOnly (IndexWrite d' g h) d d₁ := by
    refine ((moveDagTip_writes d child pn admitted.hash).mono ?_).trans (rebased.steps.mono ?_)
    · rintro w (rfl | rfl | rfl)
      · exact IndexWrite.of_ne (by simp)
      · exact IndexWrite.of_ne (by simp)
      · exact IndexWrite.of_ne (by simp)
    · rintro w write
      refine IndexWrite.of_ne fun id eq => ?_
      have trie := write.isTrie
      rw [eq] at trie
      cases trie
  have own : WritesOnly (IndexWrite d' g h) d₁ (registerTransactions d₁ h child.txs).1 := by
    refine (registerTransactions_writes d₁ h child.txs).2.1.mono ?_
    rintro w ⟨tx, member, rfl⟩ id v eq
    cases eq
    refine ⟨h, Anc.refl, ?_, rfl⟩
    rw [extended.txIds, if_pos rfl]
    exact List.mem_map.mpr ⟨tx, member, rfl⟩
  have branch : WritesOnly (IndexWrite d' g h) (registerTransactions d₁ h child.txs).1 d₂ := by
    refine switched.up.writes.mono ?_
    rintro w ⟨a, up, -, -, ⟨n, rfl⟩ | ⟨spec, tx, found, member, rfl⟩⟩ id v eq
    · cases eq
    · cases eq
      rw [edges] at up
      change Anc (parentOf d g) pn.hash a at up
      rw [admitted.parent_hash chain] at up
      refine ⟨a, (extended.anc_new tree admitted.fresh parent).mpr (Or.inr up), ?_, rfl⟩
      rw [txIds_of_spec ((switched_specs switched a).trans found)]
      exact List.mem_map.mpr ⟨tx, member, rfl⟩
  refine start.trans (own.trans (branch.trans ((WritesOnly.write (IndexWrite.of_ne (by simp)) d₂).trans
    (switched.down.mono ?_))))
  rintro w ⟨k, n, rfl, -⟩
  exact IndexWrite.of_ne (by simp)

include admitted rebased switched in
/-- What the registration or the walk up wrote was written by the move of the tip. -/
theorem wrote_of_register {w : Key × Option Value}
    (wrote : Wrote d₁ (registerTransactions d₁ h child.txs).1 w ∨ Wrote (registerTransactions d₁ h child.txs).1 d₂ w) :
    Wrote d d' w := by
  have start := moveDagTip_writes d child pn admitted.hash
  have own := (registerTransactions_writes d₁ h child.txs).2.1
  have node := WritesOnly.write (P := fun _ => True) (k := .chainNode x.hash) (v := some (.chainNode x)) trivial d₂
  rcases wrote with wrote | wrote
  · exact ((((wrote.before rebased.steps).before start).after switched.up.writes).after node).after switched.down
  · exact ((((wrote.before own).before rebased.steps).before start).after node).after switched.down

include chain admitted extended rebased switched in
/-- The blocks that come to the main list have their entries written. -/
theorem moved_wrote {f id : Byte64} (up : Anc (parentOf d' g) h f) (new : f = h ∨ ¬ Flagged d f)
    (member : id ∈ txIds d' f) : Wrote d d' (.flatTx id, some (.hash f)) := by
  have tree := chain.tree
  have parent : (getChainNode d child.phash).isSome := by rw [admitted.parent]; rfl
  have edges := parentOf_congr (registered_header chain admitted rebased) g
  by_cases eq : f = h
  · subst eq
    rw [extended.txIds, if_pos rfl] at member
    obtain ⟨tx, memberTx, rfl⟩ := List.mem_map.mp member
    exact wrote_of_register admitted rebased switched
      (Or.inl ((registerTransactions_writes d₁ f child.txs).2.2 tx memberTx))
  · have unflagged := new.resolve_left eq
    have upF := ((extended.anc_new tree admitted.fresh parent).mp up).resolve_left eq
    -- The walk ends at a flagged node, so `f` lies below it.
    have flaggedQ := (registered_flagged chain admitted rebased _).mp switched.up.flagged
    have upQ : Anc (parentOf d g) child.phash qn.hash := by
      rw [← edges, ← admitted.parent_hash chain]
      exact switched.up.reached
    have below : Anc (parentOf d g) f qn.hash := by
      refine (upF.total upQ).resolve_right fun above => unflagged ?_
      exact (chain.main.2 f).mpr (((chain.main.2 qn.hash).mp flaggedQ).trans above)
    have ne : f ≠ qn.hash := by
      rintro rfl
      exact unflagged flaggedQ
    cases found : getSpec d' f with
    | none => simp [txIds, found] at member
    | some spec =>
      rw [txIds_of_spec found] at member
      obtain ⟨tx, memberTx, rfl⟩ := List.mem_map.mp member
      refine wrote_of_register admitted rebased switched (Or.inr (switched.up.indexed f spec tx ?_ ?_ ne ?_ memberTx))
      · rw [edges]
        change Anc (parentOf d g) pn.hash f
        rw [admitted.parent_hash chain]
        exact upF
      · rw [edges]
        exact below
      · exact (switched_specs switched f).symm.trans found

include admitted extended rebased switched in
theorem TxInv.moved (inv : TxInv X d g m) (source : HashedUnder X child.phash h) (fresh : FreshTxs d g child.toBlockSpec)
    (chain : ChainInv d' g h) : TxInv X d' g h := by
  have distinct := inv.distinct_extended admitted extended fresh
  have index := inv.indexed.moved chain distinct.disjoint extended
    (moved_indexWrites inv.chain admitted extended rebased switched)
    (moved_wrote inv.chain admitted extended rebased switched)
  exact ⟨chain, extended.origin inv source, distinct, fun {f id} flagged member => index flagged member⟩

end Moved

/-! ## Every way an addition ends -/

/-- A block is stored under a hash that has no node, and its parent may list it. -/
theorem TxInv.linked (inv : TxInv X d g m) (admitted : Admitted d child h pn) (source : HashedUnder X child.phash h) :
    TxInv X (moveDagTip d child h pn) g m := by
  have writes := moveDagTip_writes d child pn admitted.hash
  refine inv.of_frame (moveDagTip_inv inv.chain admitted) (fun q => ?_) (fun {p n k} found listed => ?_)
    (fun q stored => ?_) (fun id => hasTransaction_of_writes writes (by simp))
  · rw [nodeHeader, moveDagTip_nodes]
    exact linkParent_header inv.chain admitted q
  · rw [moveDagTip_nodes] at found
    rcases linkParent_children inv.chain admitted found listed with ⟨rfl, rfl⟩ | ⟨n₀, old, listed⟩
    · exact source
    · exact inv.origin old listed
  · refine getSpec_of_writes writes ?_
    rintro v (eq | eq | eq)
    · cases eq
      rw [admitted.fresh] at stored
      cases stored
    · cases eq
    · cases eq

theorem TxInv.noParent (inv : TxInv X d g m) (hash : child.hash = some h) (fresh : getChainNode d h = none) :
    TxInv X (putBlock d child).1 g m := by
  have writes := putBlock_writes d child hash
  refine inv.of_frame (inv.chain.of_nodes (putBlock_nodes d hash) writes.length_le) (fun q => ?_)
    (fun {p n k} found => ?_) (fun q stored => ?_) (fun id => hasTransaction_of_writes writes (by simp))
  · rw [nodeHeader, putBlock_nodes d hash]
    rfl
  · rw [putBlock_nodes d hash] at found
    exact inv.origin found
  · refine getSpec_of_writes writes fun v eq => ?_
    cases eq
    rw [fresh] at stored
    cases stored

variable {c c' : BlockChainConsensus} {outcome : Outcome}

theorem AddResult.txInv (result : AddResult c d child c' d' outcome) (inv : TxInv X d g m)
    (free : Set.InjOn sum512 X) (source : ∀ h, child.hash = some h → HashedUnder X child.phash h)
    (fresh : FreshTxs d g child.toBlockSpec)
    (stored : ∀ h, child.hash = some h → (putBlock d child).1 = d.write (.block h) (some (.block child.toBlockSpec))) :
    ∃ m', TxInv X d' g m' := by
  cases result with
  | unhashed hash => exact ⟨m, inv⟩
  | duplicateBlock h hash found => exact ⟨m, inv⟩
  | duplicateTx h hash fresh duplicate => exact ⟨m, inv⟩
  | noParent h hash new missing => exact ⟨m, inv.noParent hash new⟩
  | side h pn admitted lighter =>
    exact ⟨m, inv.side free (source h admitted.hash) admitted fresh (stored h admitted.hash)⟩
  | rebaseFailed h pn msg admitted better missing => exact ⟨m, inv.linked admitted (source h admitted.hash)⟩
  | moved h pn d₁ _ state _ admitted better rebased switched =>
    have source := source h admitted.hash
    obtain ⟨-, d₂, qn, last, done⟩ := moved_switched inv.chain admitted (inv.only free source) rebased switched
    have extended := moved_extended inv.chain admitted (stored h admitted.hash) rebased done
    exact ⟨h, inv.moved admitted extended rebased done source fresh ⟨done.tree, done.main⟩⟩

/-! ## Every state of a node -/

/-- The data that a call hashes is in `X`. -/
def HashesIn (X : Set Bytes) (s : System) (a : Action) : Prop := ∀ data ∈ hashedBy s a, data ∈ X

/-- The data that the calls of a run hash. -/
def hashedOn (s : System) : List Action → List Bytes
  | [] => []
  | a :: actions => hashedBy s a ++ hashedOn (s.next a) actions

theorem hashedOn_along {s : System} {actions : List Action} (inside : ∀ data ∈ hashedOn s actions, data ∈ X) :
    System.Along (HashesIn X) s actions := by
  induction actions generalizing s with
  | nil => trivial
  | cons a actions ih =>
    exact ⟨fun data member => inside data (List.mem_append_left _ member),
      ih fun data member => inside data (List.mem_append_right _ member)⟩

/-- What a call may submit: the data it hashes is in `X`, and the block brings no repetition. -/
def TxStep (X : Set Bytes) (g : Byte64) (s : System) (a : Action) : Prop :=
  HashesIn X s a ∧
    (a.submits = true → ∀ i b, a.target = some i → s.blocks i = some b → FreshTxs s.db g b.toBlockSpec)

/-- The database, and the hashes of the blocks in hand. -/
structure TxSystem (X : Set Bytes) (g : Byte64) (s : System) : Prop where
  db : ∃ m, TxInv X s.db g m
  blocks : ∀ j b h, s.blocks j = some b → b.hash = some h → HashedUnder X b.phash h

omit [Sha512] in
theorem hashInput_take (b : Block) : b.hashInput.take 64 = b.phash.bytes := by
  simp only [Block.hashInput, BlockSpec.preimage, List.append_assoc]
  exact List.take_left' b.phash.length_eq

theorem HashOrigin.under {s : System} {a : Action} {j : Nat} {b' : Block} (origin : HashOrigin s a j b')
    (blocks : ∀ j b h, s.blocks j = some b → b.hash = some h → HashedUnder X b.phash h) (inputs : HashesIn X s a)
    (hash : b'.hash = some h) : HashedUnder X b'.phash h := by
  rcases origin with none' | ⟨b, block, same, parent⟩ | ⟨digest, member⟩
  · rw [none'] at hash
    cases hash
  · rw [parent]
    exact blocks j b h block (same.symm.trans hash)
  · rw [hash, Option.some.injEq] at digest
    exact ⟨b'.hashInput, inputs _ member, digest, hashInput_take b'⟩

theorem NewTxs.of_records {b b' : BlockSpec} (new : NewTxs d g b) (same : SameRecords d d') (parent : b'.phash = b.phash)
    (txs : b'.txs = b.txs) : NewTxs d' g b' := by
  intro a up unflagged
  rw [Flagged.congr same.chainNode] at unflagged
  rw [(SameNodes.of_eq same.chainNode).parentOf_eq, parent] at up
  rw [BlockSpec.txIds, txs, txIds_congr (same.spec a)]
  exact new a up unflagged

theorem FreshTxs.of_records {b b' : BlockSpec} (fresh : FreshTxs d g b) (same : SameRecords d d')
    (parent : b'.phash = b.phash) (txs : b'.txs = b.txs) : FreshTxs d' g b' := by
  refine ⟨?_, fresh.2.of_records same parent txs⟩
  rw [BlockSpec.txIds, txs]
  exact fresh.1

theorem StepResult.txSystem {s s' : System} {a : Action} {o : Option Outcome} (result : StepResult s a s' o)
    (free : Set.InjOn sum512 X) (inv : TxSystem X g s) (step : TxStep X g s a) : TxSystem X g s' := by
  obtain ⟨m, db⟩ := inv.db
  cases result with
  | quiet s' o steps engine blocks contents =>
    refine ⟨⟨m, db.of_records (SameRecords.of_steps steps) steps.length_le⟩, fun j b' h found hash => ?_⟩
    rcases blocks j b' found with ⟨old, -⟩ | ⟨-, origin, -⟩
    · exact inv.blocks j b' h old hash
    · exact origin.under inv.blocks step.1 hash
  | added i c c' b child ws₀ ws order parent d₁ d' outcome submits target engine block state cleaned valid hashed root
      result =>
    have same := hashed.records
    have db₁ := db.of_records same hashed.persisted.steps.length_le
    have source : ∀ h, child.hash = some h → HashedUnder X child.phash h :=
      fun h hash => (hashed.origin block).under inv.blocks step.1 hash
    have fresh : FreshTxs d₁ g child.toBlockSpec :=
      (step.2 submits i b target block).of_records same hashed.fields.1 hashed.fields.2.1
    refine ⟨?_, fun j b' h found hash => ?_⟩
    · rw [submitted_db]
      exact result.txInv db₁ free source fresh fun h hash => hashed.putBlock root d₁ hash
    · rcases submitted_block found with ⟨-, old⟩ | ⟨-, rfl, -⟩
      · exact inv.blocks j b' h old hash
      · exact source h hash
  | stopped =>
    refine ⟨⟨m, db.of_records (freshDisk_records s.db) ?_⟩, fun j b' h found => by simp [System.dead] at found⟩
    have steps : TrieSteps (fun _ => False) s.db (freshDisk s.db) := freshDisk_steps s.db
    exact steps.length_le
  | restarted h spec d' t gn minerId restarts tip found rebased =>
    have steps : TrieSteps (fun _ => False) s.db d' := rebased.fresh_steps
    exact ⟨⟨m, db.of_records (SameRecords.of_steps steps) steps.length_le⟩, fun j b' h found => by simp at found⟩

theorem bootDisk_txIds (genesisTime now : UInt64) (h : Byte64) : txIds (bootDisk genesisTime now) h = [] := by
  unfold txIds
  rw [bootDisk_getSpec]
  by_cases eq : h = genesisHash genesisTime now
  · rw [if_pos eq]
    rfl
  · rw [if_neg eq]

theorem txSystem_boot {genesisTime now : UInt64} {minerId : Bytes}
    (started : (System.boot genesisTime now minerId).engine.isSome) :
    TxSystem X (genesisHash genesisTime now) (System.boot genesisTime now minerId) := by
  rw [(boot_of_started started).2]
  refine ⟨⟨genesisHash genesisTime now, bootDisk_chain, ?_, ⟨?_, ?_⟩, ?_⟩, fun j b h found => by simp at found⟩
  · intro p pn k found listed
    rw [bootDisk_getChainNode] at found
    split at found
    · cases found
      cases listed
    · cases found
  · intro h _
    rw [bootDisk_txIds]
    exact List.nodup_nil
  · intro a b _ _ _
    rw [bootDisk_txIds]
    exact List.disjoint_nil_left _
  · intro h id _ member
    rw [bootDisk_txIds] at member
    cases member

theorem Reached.txSystem {s : System} (free : Set.InjOn sum512 X) (reached : Reached (TxStep X g) g s) :
    TxSystem X g s :=
  (reached.invariant (TxSystem X g) (fun _ _ _ started genesis => genesis ▸ txSystem_boot started)
    (fun _ a ready inv step => (step_result ready a).txSystem free inv step)).2

end Invariant

/-! ## A block that brings a transaction twice -/

namespace Worked

attribute [local instance] workedSha512

/-- A transaction. -/
def transfer : Transaction := ⟨[1], [], [], 0⟩

/-- A child of genesis with one transaction. -/
def once : BlockSpec := { left with txs := [transfer] }

/-- A child of genesis that has the transaction twice. -/
def twice : BlockSpec := { left with txs := [transfer, transfer] }

/-- A network block without state updates is decoded and accepted. -/
def deliver (spec : BlockSpec) : List Action := [.decode 0 spec, .accept 0 [] 1]

/-- The data that is hashed when the block is delivered. -/
def inputs (spec : BlockSpec) : List Bytes := hashedOn (System.boot 1 1 [7]) (deliver spec)

/-- The block is accepted, becomes the tip, and the main list has the transaction twice. -/
theorem twice_accepted :
    let s := (System.boot 1 1 [7]).run (deliver twice)
    Reached (HashesIn {data | data ∈ inputs twice}) (genesisHash 1 1) s ∧
      (∀ x ∈ inputs twice, ∀ y ∈ inputs twice, sum512 x = sum512 y → x = y) ∧
      s.engine.map (·.tip.hash) = some (some (digest twiceDigest)) ∧ Flagged s.db (digest twiceDigest) ∧
      ¬ (txIds s.db (digest twiceDigest)).Nodup := by
  have run : let s := (System.boot 1 1 [7]).run (deliver twice)
      (∀ x ∈ inputs twice, ∀ y ∈ inputs twice, sum512 x = sum512 y → x = y) ∧
        s.engine.map (·.tip.hash) = some (some (digest twiceDigest)) ∧
        (getChainNode s.db (digest twiceDigest)).map (·.isMainList) = some true ∧
        ¬ (txIds s.db (digest twiceDigest)).Nodup := by decide +kernel
  obtain ⟨free, tip, mark, repeated⟩ := run
  exact ⟨⟨1, 1, [7], deliver twice, started, rfl, hashedOn_along fun _ member => member, rfl⟩, free, tip,
    Option.map_eq_some_iff.mp mark, repeated⟩

end Worked

/-! ## No transaction twice -/

section Distinct

variable [Sha512] {X : Set Bytes} {g : Byte64} {s : System}

/-- **No transaction is executed twice.** In every run whose submitted blocks repeat no transaction of
their own or of an ancestor off the main list, the transactions of the main list are all different. -/
theorem mainList_transactions_nodup (free : Set.InjOn sum512 X) (reached : Reached (TxStep X g) g s)
    {blocks : List Byte64} (distinct : blocks.Nodup) (main : ∀ h ∈ blocks, Flagged s.db h) :
    (blocks.flatMap (txIds s.db)).Nodup := by
  obtain ⟨m, inv⟩ := (reached.txSystem free).db
  have up : ∀ h ∈ blocks, Anc (parentOf s.db g) m h := fun h member => (inv.chain.main.2 h).mp (main h member)
  refine List.nodup_flatMap.mpr ⟨fun h member => ?_, ?_⟩
  · exact inv.distinct.nodup (inv.chain.tree.anc_stored inv.chain.main.1 (up h member))
  · refine distinct.imp_of_mem fun {a b} memberA memberB ne => ?_
    exact inv.distinct.disjoint.branch inv.chain.tree inv.chain.main.1 (up a memberA) (up b memberB) ne

end Distinct

section Worked

attribute [local instance] workedSha512

/-- A child of `once` with another transaction. -/
def Worked.other : BlockSpec :=
  { Worked.left with phash := digest onceDigest, depth := 2, wt := 2, txs := [⟨[2], [], [], 0⟩] }

/-- Two blocks with a transaction each. -/
def Worked.twoTransfers : List Action := Worked.deliver Worked.once ++ Worked.deliver Worked.other

abbrev Worked.twoHashed : List Bytes := hashedOn (System.boot 1 1 [7]) Worked.twoTransfers

theorem Worked.twoHashed_injOn : Set.InjOn sum512 {data | data ∈ Worked.twoHashed} := by
  have check : ∀ x ∈ Worked.twoHashed, ∀ y ∈ Worked.twoHashed, sum512 x = sum512 y → x = y := by decide +kernel
  exact fun x memberX y memberY => check x memberX y memberY

/-- The submitted block repeats no transaction of its own, and its parent is on the main list. -/
def Worked.onMain (s : System) (a : Action) : Bool :=
  !a.submits || (a.target.bind s.blocks).all fun b =>
    decide b.txIds.Nodup && (getChainNode s.db b.phash).any (·.isMainList)

/-- The ancestors of such a block are all on the main list. -/
theorem Worked.fresh_of_onMain {g : Byte64} {s : System} {a : Action} {i : Nat} {b : Block} (reached : Reached RebaseOk g s)
    (fits : Worked.onMain s a = true) (submits : a.submits = true) (target : a.target = some i)
    (block : s.blocks i = some b) : FreshTxs s.db g b.toBlockSpec := by
  obtain ⟨m, inv, -⟩ := reached.onTip
  simp only [Worked.onMain, submits, target, Bool.not_true, Bool.false_or, Option.bind_some, block, Option.all_some,
    Bool.and_eq_true, decide_eq_true_eq, Option.any_eq_true] at fits
  refine ⟨fits.1, fun x up unflagged => absurd ?_ unflagged⟩
  exact (inv.chain.main.2 x).mpr (((inv.chain.main.2 b.phash).mp fits.2).trans up)

theorem Worked.txStep_along {X : Set Bytes} {g : Byte64} {s : System} {actions : List Action} (reached : Reached RebaseOk g s)
    (fits : System.Along (fun s a => RebaseOk s a ∧ Worked.onMain s a = true) s actions)
    (inside : ∀ data ∈ hashedOn s actions, data ∈ X) : System.Along (TxStep X g) s actions := by
  induction actions generalizing s with
  | nil => trivial
  | cons a actions ih =>
    obtain ⟨⟨fine, onMain⟩, rest⟩ := fits
    have one : System.Along RebaseOk s [a] := ⟨fine, trivial⟩
    have later : Reached RebaseOk g (s.next a) := reached.run one
    exact ⟨⟨fun data member => inside data (List.mem_append_left _ member),
      fun submits i b target block => Worked.fresh_of_onMain reached onMain submits target block⟩,
      ih later rest fun data member => inside data (List.mem_append_right _ member)⟩

theorem mainList_transactions_nodup_two :
    let s := (System.boot 1 1 [7]).run Worked.twoTransfers
    let blocks := [genesisHash 1 1, digest onceDigest, digest otherDigest]
    (∀ h ∈ blocks, Flagged s.db h) ∧ (blocks.flatMap (txIds s.db)).length = 2 ∧ (blocks.flatMap (txIds s.db)).Nodup := by
  intro s blocks
  have run : blocks.Nodup ∧ (∀ h ∈ blocks, (getChainNode s.db h).map (·.isMainList) = some true) ∧
      (blocks.flatMap (txIds s.db)).length = 2 ∧
      System.Along (fun s a => RebaseOk s a ∧ Worked.onMain s a = true) (System.boot 1 1 [7]) Worked.twoTransfers := by
    decide +kernel
  obtain ⟨distinct, marks, count, fits⟩ := run
  have main : ∀ h ∈ blocks, Flagged s.db h := fun h member => Option.map_eq_some_iff.mp (marks h member)
  have start : Reached RebaseOk (genesisHash 1 1) (System.boot 1 1 [7]) := ⟨1, 1, [7], [], Worked.started, rfl, trivial, rfl⟩
  have reached : Reached (TxStep {data | data ∈ Worked.twoHashed} (genesisHash 1 1)) (genesisHash 1 1) s :=
    ⟨1, 1, [7], Worked.twoTransfers, Worked.started, rfl, Worked.txStep_along start fits fun _ member => member, rfl⟩
  exact ⟨main, count, mainList_transactions_nodup Worked.twoHashed_injOn reached distinct main⟩

end Worked

end TrustNet
