import TrustNet.Consensus.UncleRule
import TrustNet.Network.SyncNode

/-!
# Rewinding a sync (`Ancestor`, `handleGetBlockHashesRewindMsg`)

A peer that does not know the last hash of a sync asks for a rewind. The handler goes ten
blocks up from that hash and has `syncNode` retry from there, so every such message takes
over where the one before ended. The chain may grow between two messages: what a rewind
needs is that stored blocks keep their parents. The climbs then follow one branch, and
after a tenth of its depth, rounded up, they end at genesis.
-/

namespace TrustNet
set_option autoImplicit false
open ParentTree (Anc)

section Model

variable {σ : Type} [Database σ]

/-- The loop of `Ancestor`, with the rounds that `max` leaves: the block of the parent is fetched, then its node. -/
def ancestorFrom (db : σ) : Nat → ChainNode → Option Block → Except Err (Option Block)
  | 0, _, lastBlock => .ok lastBlock
  | max + 1, node, lastBlock =>
    if node.depth = 0 then .ok lastBlock
    else
      match getBlock db node.parent with
      | none => .error (.db "not found")
      | some block =>
        match getChainNode db node.parent with
        | none => .error (.db "not found")
        | some parent => ancestorFrom db max parent (some block)

/-- `Ancestor`: the block `max` generations above `child`, or genesis. The result without an error may be nil. -/
def ancestor (c : BlockChainConsensus) (db : σ) (child : Byte64) (max : Int) : Except Err (Option Block) :=
  if child = c.genesisNode.hash then .error (.core .invalidArg "no ancestor for genesis")
  else
    match getChainNode db child with
    | none => .error (.db "not found")
    | some node => ancestorFrom db max.toNat node none

/-- What a rewind message leaves: the database, `LastHash` of the peer, the signal to `syncNode`, and the result. -/
structure Rewound (σ : Type) where
  db : σ
  lastHash : Option Byte64
  signal : Option ChanSignal
  outcome : Outcome

/-- The generations that a rewind goes up. -/
def rewindStep : Int := 10

/-- `handleGetBlockHashesRewindMsg`, from `LastHash` of the peer. A nil best block, hash or ancestor is dereferenced. -/
def handleGetBlockHashesRewindMsg [Sha512] (c : BlockChainConsensus) (db : σ) (lastHash : Option Byte64) : Rewound σ :=
  let start : σ × Option Byte64 :=
    match lastHash with
    | some last => (db, some last)
    | none => ((bestBlock c db).1, (bestBlock c db).2.bind fun best => best.hash)
  match start.2 with
  | none => ⟨start.1, none, none, .panic⟩
  | some last =>
    match ancestor c start.1 last rewindStep with
    | .error e => ⟨start.1, some last, none, .error e⟩
    | .ok none => ⟨start.1, some last, none, .panic⟩
    | .ok (some block) => ⟨start.1, block.hash, some .retry, .ok⟩

end Model

/-! ## One climb -/

section Dag

variable {d : Disk} {g : Byte64} {c : BlockChainConsensus}

theorem ChainDag.depthAt_genesis (dag : ChainDag d g) : depthAt d g = 0 := by
  obtain ⟨n, found, depth⟩ := dag.genesis
  rw [depthAt_of_found found, depth]
  rfl

/-- Only genesis has depth 0. -/
theorem ChainDag.depthAt_eq_zero (dag : ChainDag d g) {h : Byte64} (stored : (getChainNode d h).isSome) :
    depthAt d h = 0 ↔ h = g := by
  constructor
  · intro zero
    by_contra ne
    obtain ⟨n, found⟩ := Option.isSome_iff_exists.mp stored
    obtain ⟨p, -, deeper⟩ := dag.parent found ne
    rw [depthAt_of_found found] at zero
    omega
  · rintro rfl
    exact dag.depthAt_genesis

/-- The loop goes up to the ancestor that is `max` generations above, or to genesis. -/
theorem ChainDag.ancestorFrom_eq (dag : ChainDag d g) (max : Nat) {h : Byte64} {n : ChainNode} (lastBlock : Option Block)
    (found : getChainNode d h = some n) :
    ∃ x, Anc (parentOf d g) h x ∧ depthAt d x = depthAt d h - max ∧ (getChainNode d x).isSome ∧
      ancestorFrom d max n lastBlock = .ok (if x = h then lastBlock else getBlock d x) := by
  induction max generalizing h n lastBlock with
  | zero => exact ⟨h, Anc.refl, rfl, by rw [found]; rfl, by simp [ancestorFrom]⟩
  | succ max ih =>
    have depth := depthAt_of_found found
    unfold ancestorFrom
    split
    · rename_i zero
      rw [zero, UInt64.toNat_zero] at depth
      exact ⟨h, Anc.refl, by omega, by rw [found]; rfl, by simp⟩
    · rename_i above
      have ne : h ≠ g := by
        rintro rfl
        rw [dag.depthAt_genesis] at depth
        exact above (UInt64.toNat_inj.mp depth.symm)
      obtain ⟨p, foundParent, deeper⟩ := dag.parent found ne
      have storedSpec : (getSpec d n.parent).isSome := by
        rw [← dag.blocks, foundParent]
        rfl
      obtain ⟨spec, foundSpec⟩ := Option.isSome_iff_exists.mp storedSpec
      have foundBlock : getBlock d n.parent = some { spec.toBlock with hash := some n.parent } := by
        unfold getBlock
        rw [foundSpec]
        rfl
      have depthParent := depthAt_of_found foundParent
      obtain ⟨x, up, low, stored, result⟩ := ih (getBlock d n.parent) foundParent
      have other : x ≠ h := by
        rintro rfl
        omega
      refine ⟨x, Anc.head (parentOf_of_found found ne) up, by omega, stored, ?_⟩
      rw [foundBlock, foundParent]
      simp only
      rw [← foundBlock, result, if_neg other]
      split
      · rename_i eq
        rw [eq]
      · rfl

/-- Above a block that is not genesis, `Ancestor` finds a stored block. -/
theorem ChainDag.ancestor_eq (dag : ChainDag d g) (root : c.genesisNode.hash = g) {h : Byte64} {max : Int}
    (stored : (getChainNode d h).isSome) (deep : 0 < depthAt d h) (positive : 1 ≤ max) :
    ∃ x b, ancestor c d h max = .ok (some b) ∧ getBlock d x = some b ∧ Anc (parentOf d g) h x ∧
      (getChainNode d x).isSome ∧ (depthAt d x : Int) = depthAt d h - min max (depthAt d h) := by
  obtain ⟨n, found⟩ := Option.isSome_iff_exists.mp stored
  have ne : h ≠ c.genesisNode.hash := by
    rw [root]
    intro eq
    have := (dag.depthAt_eq_zero stored).mpr eq
    omega
  obtain ⟨x, up, depth, storedX, result⟩ := dag.ancestorFrom_eq max.toNat none found
  have lower : x ≠ h := by
    rintro rfl
    omega
  have storedSpec : (getSpec d x).isSome := by rw [← dag.blocks, storedX]
  obtain ⟨spec, foundSpec⟩ := Option.isSome_iff_exists.mp storedSpec
  refine ⟨x, { spec.toBlock with hash := some x }, ?_, ?_, up, storedX, by omega⟩
  · unfold ancestor
    rw [if_neg ne, found]
    simp only
    rw [result, if_neg lower]
    unfold getBlock
    rw [foundSpec]
    rfl
  · unfold getBlock
    rw [foundSpec]
    rfl

theorem ancestorFrom_congr {d d' : Disk} (same : SameRecords d d') (max : Nat) (n : ChainNode) (lastBlock : Option Block) :
    ancestorFrom d' max n lastBlock = ancestorFrom d max n lastBlock := by
  induction max generalizing n lastBlock with
  | zero => rfl
  | succ max ih =>
    unfold ancestorFrom getBlock
    rw [same.spec, same.chainNode]
    split
    · rfl
    · split
      · rfl
      · split
        · rfl
        · exact ih _ _

theorem ancestor_congr {d d' : Disk} (same : SameRecords d d') (h : Byte64) (max : Int) :
    ancestor c d' h max = ancestor c d h max := by
  unfold ancestor
  rw [same.chainNode]
  simp only [ancestorFrom_congr same]

end Dag

/-! ## Message after message -/

section Kept

variable {g : Byte64} {engine : Nat → BlockChainConsensus} {db : Nat → Disk}

/-- A node at its rewind messages: its chain DAG is well-formed, and stored blocks keep their parents in between. -/
structure Rewinding (g : Byte64) (engine : Nat → BlockChainConsensus) (db : Nat → Disk) : Prop where
  dag : ∀ n, ChainDag (db n) g
  root : ∀ n, (engine n).genesisNode.hash = g
  kept : ∀ {n x p}, parentOf (db n) g x = some p → parentOf (db (n + 1)) g x = some p

variable (rewinding : Rewinding g engine db) (n : Nat)
include rewinding

theorem Rewinding.edge {x p : Byte64} (edge : parentOf (db 0) g x = some p) : parentOf (db n) g x = some p := by
  induction n with
  | zero => exact edge
  | succ n ih => exact rewinding.kept ih

theorem Rewinding.stored {x : Byte64} (stored : (getChainNode (db 0) x).isSome) : (getChainNode (db n) x).isSome := by
  obtain ⟨node, found⟩ := Option.isSome_iff_exists.mp stored
  by_cases root : x = g
  · obtain ⟨genesis, found, -⟩ := (rewinding.dag n).genesis
    rw [root, found]
    rfl
  · have edge := rewinding.edge n (parentOf_of_found found root)
    unfold parentOf at edge
    rw [if_neg root] at edge
    obtain ⟨node', found', -⟩ := Option.map_eq_some_iff.mp edge
    rw [found']
    rfl

/-- A block keeps its depth. -/
theorem Rewinding.depthAt_eq {x : Byte64} (stored : (getChainNode (db 0) x).isSome) :
    depthAt (db n) x = depthAt (db 0) x := by
  have up := (rewinding.dag 0).anc_genesis stored
  clear stored
  induction up using Relation.ReflTransGen.head_induction_on with
  | refl => rw [(rewinding.dag n).depthAt_genesis, (rewinding.dag 0).depthAt_genesis]
  | head edge _ ih =>
    rw [(rewinding.dag n).climbs.edge _ _ (rewinding.edge n edge), (rewinding.dag 0).climbs.edge _ _ edge, ih]

/-- A block gets no new ancestors. -/
theorem Rewinding.anc {x y : Byte64} (stored : (getChainNode (db 0) x).isSome) (up : Anc (parentOf (db n) g) x y) :
    Anc (parentOf (db 0) g) x y := by
  induction up using Relation.ReflTransGen.head_induction_on with
  | refl => exact Anc.refl
  | @head x p edge _ ih =>
    have other : x ≠ g := by
      rintro rfl
      simp [parentOf] at edge
    obtain ⟨node, found⟩ := Option.isSome_iff_exists.mp stored
    have first := parentOf_of_found found other
    have same : p = node.parent := Option.some.inj (edge.symm.trans (rewinding.edge n first))
    rw [← same] at first
    exact Anc.head first (ih ((rewinding.dag 0).climbs.stored first))

end Kept

section Rewinds

variable [Sha512] {g h : Byte64} {c : BlockChainConsensus} {d : Disk} {engine : Nat → BlockChainConsensus}
  {db : Nat → Disk} {start : Option Byte64}

/-- The block that a rewind starts from: that of `LastHash`, or the best block if there is none. -/
inductive StartsAt (c : BlockChainConsensus) (d : Disk) : Option Byte64 → Byte64 → Prop where
  | last (h : Byte64) : StartsAt c d (some h) h
  | best {b : Block} {h : Byte64} (log : TrieLog d) (best : (bestBlock c d).2 = some b) (hash : b.hash = some h) :
    StartsAt c d none h

/-- What the messages in a row leave. -/
def rewound (engine : Nat → BlockChainConsensus) (db : Nat → Disk) (start : Option Byte64) : Nat → Rewound Disk
  | 0 => handleGetBlockHashesRewindMsg (engine 0) (db 0) start
  | n + 1 => handleGetBlockHashesRewindMsg (engine (n + 1)) (db (n + 1)) (rewound engine db start n).lastHash

/-- A message that leaves the block `x` for the next one. -/
structure Rewound.Passes (r : Rewound Disk) (x : Byte64) : Prop where
  lastHash : r.lastHash = some x
  signal : r.signal = some .retry
  outcome : r.outcome = .ok

/-- A message that ends the sync. -/
structure Rewound.Fails (r : Rewound Disk) (x : Byte64) (e : Err) : Prop where
  lastHash : r.lastHash = some x
  signal : r.signal = none
  outcome : r.outcome = .error e

/-- A rewind from `h`: the blocks that the messages pass, and the error of the message after the last of them. -/
structure Rewinds (g h : Byte64) (d : Disk) (message : Nat → Rewound Disk) (steps : Nat) (x : Nat → Byte64) : Prop where
  start : x 0 = h
  passes : ∀ n < steps, (message n).Passes (x (n + 1))
  above : ∀ n ≤ steps, Anc (parentOf d g) h (x n)
  depth : ∀ n ≤ steps, depthAt d (x n) = depthAt d h - min (10 * n) (depthAt d h)
  falls : ∀ n < steps, depthAt d (x (n + 1)) < depthAt d (x n)
  genesis : ∀ n ≤ steps, x n = g ↔ n = steps
  fails : (message steps).Fails g (.core .invalidArg "no ancestor for genesis")

/-- The handler after its first lines, which only look at `LastHash`. -/
theorem handle_some (c : BlockChainConsensus) (d : Disk) (h : Byte64) :
    handleGetBlockHashesRewindMsg c d (some h) =
      match ancestor c d h rewindStep with
      | .error e => ⟨d, some h, none, .error e⟩
      | .ok none => ⟨d, some h, none, .panic⟩
      | .ok (some block) => ⟨d, block.hash, some .retry, .ok⟩ := rfl

/-- The trie nodes that `BestBlock` writes do not change what the handler finds. -/
theorem StartsAt.handle_eq (starts : StartsAt c d start h) :
    ∃ d', handleGetBlockHashesRewindMsg c d start = { handleGetBlockHashesRewindMsg c d (some h) with db := d' } := by
  cases starts with
  | last => exact ⟨_, rfl⟩
  | best log best hash =>
    refine ⟨(bestBlock c d).1, ?_⟩
    have known : handleGetBlockHashesRewindMsg c d none = handleGetBlockHashesRewindMsg c (bestBlock c d).1 (some h) := by
      simp only [handleGetBlockHashesRewindMsg, best, hash, Option.bind_some]
    have same : SameRecords d (bestBlock c d).1 := SameRecords.of_steps (bestBlock_steps log c)
    rw [known, handle_some, handle_some, ancestor_congr same]
    rcases ancestor c d h rewindStep with e | block
    · rfl
    · cases block <;> rfl

/-- At genesis the handler returns an error. -/
theorem StartsAt.fails (starts : StartsAt c d start g) (root : c.genesisNode.hash = g) :
    (handleGetBlockHashesRewindMsg c d start).Fails g (.core .invalidArg "no ancestor for genesis") := by
  obtain ⟨d', eq⟩ := starts.handle_eq
  have result : ancestor c d g rewindStep = .error (.core .invalidArg "no ancestor for genesis") := by
    unfold ancestor
    rw [if_pos root.symm]
  rw [eq, handle_some, result]
  exact ⟨rfl, rfl, rfl⟩

/-- Elsewhere it goes up, by ten generations or to genesis. -/
theorem StartsAt.passes (starts : StartsAt c d start h) (dag : ChainDag d g) (root : c.genesisNode.hash = g)
    (stored : (getChainNode d h).isSome) (deep : 0 < depthAt d h) :
    ∃ x, (handleGetBlockHashesRewindMsg c d start).Passes x ∧ Anc (parentOf d g) h x ∧
      depthAt d x = depthAt d h - min 10 (depthAt d h) := by
  obtain ⟨d', eq⟩ := starts.handle_eq
  obtain ⟨x, b, result, found, up, -, depth⟩ := dag.ancestor_eq root stored deep (show 1 ≤ rewindStep by decide)
  refine ⟨x, ?_, up, ?_⟩
  · rw [eq, handle_some, result]
    exact ⟨getBlock_hash found, rfl, rfl⟩
  · have ten : rewindStep = 10 := rfl
    omega

/-- Before the `n`-th message: the block that it starts from. -/
structure RewoundTo (h : Byte64) (engine : Nat → BlockChainConsensus) (db : Nat → Disk) (g : Byte64)
    (lastHash : Option Byte64) (n : Nat) (x : Byte64) : Prop where
  starts : StartsAt (engine n) (db n) lastHash x
  stored : (getChainNode (db 0) x).isSome
  above : Anc (parentOf (db 0) g) h x
  depth : depthAt (db 0) x = depthAt (db 0) h - min (10 * n) (depthAt (db 0) h)

/-- One message. -/
theorem RewoundTo.next {lastHash : Option Byte64} {n : Nat} {x : Byte64} (rewinding : Rewinding g engine db)
    (at_ : RewoundTo h engine db g lastHash n x) (deep : 10 * n < depthAt (db 0) h) :
    ∃ y, (handleGetBlockHashesRewindMsg (engine n) (db n) lastHash).Passes y ∧
      RewoundTo h engine db g (some y) (n + 1) y := by
  have same := rewinding.depthAt_eq n at_.stored
  have depth := at_.depth
  obtain ⟨y, passes, up, lower⟩ := at_.starts.passes (rewinding.dag n) (rewinding.root n)
    (rewinding.stored n at_.stored) (by omega)
  have up₀ := rewinding.anc n at_.stored up
  have stored := (rewinding.dag 0).climbs.anc_stored at_.stored up₀
  have sameY := rewinding.depthAt_eq n stored
  exact ⟨y, passes, .last y, stored, at_.above.trans up₀, by omega⟩

/-- The hash that the `n`-th message starts from. -/
def rewindInput (start : Option Byte64) (message : Nat → Rewound Disk) : Nat → Option Byte64
  | 0 => start
  | n + 1 => (message n).lastHash

/-- The blocks of a rewind from `h`. -/
def rewindPath (h : Byte64) (message : Nat → Rewound Disk) : Nat → Byte64
  | 0 => h
  | n + 1 => (message n).lastHash.getD h

theorem rewound_eq (n : Nat) :
    rewound engine db start n =
      handleGetBlockHashesRewindMsg (engine n) (db n) (rewindInput start (rewound engine db start) n) := by
  cases n <;> rfl

/-- The messages up to the one that finds genesis. -/
theorem rewound_to (rewinding : Rewinding g engine db) (starts : StartsAt (engine 0) (db 0) start h)
    (stored : (getChainNode (db 0) h).isSome) (n : Nat) (small : n ≤ (depthAt (db 0) h + 9) / 10) :
    RewoundTo h engine db g (rewindInput start (rewound engine db start) n) n
      (rewindPath h (rewound engine db start) n) := by
  induction n with
  | zero => exact ⟨starts, stored, Anc.refl, by simp [rewindPath]⟩
  | succ n ih =>
    obtain ⟨y, passes, next⟩ := (ih (by omega)).next rewinding (by omega)
    rw [← rewound_eq] at passes
    simp only [rewindInput, rewindPath, passes.lastHash, Option.getD_some]
    exact next

/-- **A rewind ends at genesis.** `Ancestor` returns the block that is `max` generations up the parent chain, or
genesis. Message after message, a rewind from a stored block therefore passes ancestors of it of falling depth, is at
genesis after a tenth of the depth, rounded up, and then reports an error. -/
theorem rewind_ends_at_genesis (rewinding : Rewinding g engine db) (starts : StartsAt (engine 0) (db 0) start h)
    (stored : (getChainNode (db 0) h).isSome) :
    (∀ (n : Nat) (x : Byte64) (max : Int), (getChainNode (db n) x).isSome → 0 < depthAt (db n) x → 1 ≤ max →
      ∃ y b, ancestor (engine n) (db n) x max = .ok (some b) ∧ getBlock (db n) y = some b ∧
        Anc (parentOf (db n) g) x y ∧ (depthAt (db n) y : Int) = depthAt (db n) x - min max (depthAt (db n) x)) ∧
    ∃ path, Rewinds g h (db 0) (rewound engine db start) ((depthAt (db 0) h + 9) / 10) path := by
  have reaches := rewound_to rewinding starts stored
  refine ⟨fun n x max storedX deep positive => ?_, rewindPath h (rewound engine db start), rfl, fun n below => ?_,
    fun n small => (reaches n small).above, fun n small => (reaches n small).depth, fun n below => ?_,
    fun n small => ?_, ?_⟩
  · obtain ⟨y, b, result, found, up, -, depth⟩ := (rewinding.dag n).ancestor_eq (rewinding.root n) storedX deep positive
    exact ⟨y, b, result, found, up, depth⟩
  · obtain ⟨y, passes, -⟩ := (reaches n (by omega)).next rewinding (by omega)
    rw [← rewound_eq] at passes
    simpa only [rewindPath, passes.lastHash, Option.getD_some] using passes
  · have here := (reaches n (by omega)).depth
    have next := (reaches (n + 1) (by omega)).depth
    omega
  · have at_ := reaches n small
    rw [← (rewinding.dag 0).depthAt_eq_zero at_.stored, at_.depth]
    omega
  · have at_ := reaches _ (Nat.le_refl _)
    have root := (rewinding.dag 0).depthAt_eq_zero at_.stored
    rw [at_.depth] at root
    have starts := at_.starts
    rw [root.mp (by omega)] at starts
    rw [rewound_eq]
    exact starts.fails (rewinding.root _)

/-- The DAG of a node stays well-formed, and its blocks keep their parents, whatever it is called with. -/
theorem Reached.rewinding {s : Nat → System} (reached : Reached RebaseOk g (s 0))
    (calls : ∀ n, ∃ actions, System.Along RebaseOk (s n) actions ∧ s (n + 1) = (s n).run actions)
    (room : ∀ n, (acceptedBlocks (s n).db).length ≤ 2 ^ 64) (root : ∀ n, (engine n).genesisNode.hash = g) :
    Rewinding g engine fun n => (s n).db := by
  have reaches : ∀ n, Reached RebaseOk g (s n) := by
    intro n
    induction n with
    | zero => exact reached
    | succ n ih =>
      obtain ⟨actions, fine, eq⟩ := calls n
      rw [eq]
      exact ih.run fine
  refine ⟨fun n => (reaches n).chainDag (room n), root, fun {n x p} edge => ?_⟩
  obtain ⟨actions, fine, eq⟩ := calls n
  obtain ⟨m, inv, -⟩ := (reaches n).onTip
  obtain ⟨m', inv', -⟩ := (reaches (n + 1)).onTip
  have kept : SpecsKept (s n).db (s (n + 1)).db := by
    rw [eq]
    exact (reaches n).specsKept fine
  exact kept.edge inv inv' x p edge

end Rewinds

namespace Worked

/-- The blocks on `leftChild`, each a child of the one before. -/
def deepRows : List (Nat × Nat) := [
  (1645182592776630160,
    0x1b109a8906f2f3524695733085b4af29f7be2b3b490cd442a8efe197c6250844af75474dfc9fcce400ce72653ff607c8e637f290ad246a61dc9b0a33a7366c5b),
  (1557002239833995856,
    0x9d344f6e0014da3b4c4c5bb95aba96c3bb77c56bdf473624b83e05710ac22d64c019c3b532d52a6ac74644ede2835e37ada4ee2731ef37ccdbd0f8799ac59126),
  (1464124184789021188,
    0x8c7845c66ddb8294c4e29cd212fa49c7e7a3c47dd9e674534b43ab3958018dd3fccbe34119073f080ab1014a50d185b442641d18db5a152ae105b5e2e6cc01c1),
  (1448130604129855320,
    0xa81f37428c0d5a9e81b9198624e24274ba9b29b97bac0c5ea071c0dc3d4bea8049d2f79c8f41531bc1ce40032d9d10cb3f81547b17d1b2c8892a188993d6a8de),
  (1269380107695339534,
    0xa5cd5cf9338a21d2ca48b7a5a677a4cd597f3d9a90049dd0ea69498c2391dc46333e6ab480a9d42067cda4265b6f18a0defb9f6bd657546512b1650af57431d9),
  (724502146502236615,
    0x3eb98b7b23fa3d49898c66cd6de9311aaac79685994cde01859c06e15b39524416471af6e15e64641572bb85aec95970681f06f334087752035a2f85e0957b3f),
  (1965544684410069681,
    0x7a8ac441a84b05895dcf068b795e4391b02252ed623210e522fe76f9d102efc473ba283e015175271d147bf4ec08234643c835a83299843e65783ff6e17a278d),
  (752784073194973526,
    0xce590cdabc259b233d040cb0dee4ded673ccd6b2e48c7612692f2c7fef365ccbd7d4cfb0283e57ca6c4de9615679955d7eb42fc85c12dab0d76aeb163edfdcba),
  (570861469157056989,
    0x40c84c08879c77a771ab5405506718086a67509ac6b7e183f4acd7fcf0ad75aa8f29d02e8c1f58e531afa68caa16ff1252442c271a41adf30b60118e2bb208e2),
  (1277119239794870934,
    0x7c8b813a684f7c6abe5170e46c6a97cbfa31c686a87d9a11030530c565f67c9dcf74967ad2be1b9d61b55c42459018fe8cc07073f14dbcf2fb1800438744929d)]

/-- SHA-512 on the inputs of the run. -/
@[reducible] def deepSha512 : Sha512 := Sha512.ofRows (deepRows ++ digestRows)

/-- A chain below a block, with the hashes of its blocks. -/
def below (spec : BlockSpec) : List Nat → List BlockSpec
  | [] => []
  | hash :: hashes =>
    let child := { spec with phash := digest hash, depth := spec.depth + 1, wt := spec.wt + 1 }
    child :: below child hashes

/-- A chain of twelve blocks on genesis. -/
def deepChain : List BlockSpec :=
  left :: below left (leftDigest :: leftChildDigest :: (deepRows.map Prod.snd).dropLast)

/-- The last of them. -/
def deepTip : Byte64 := digest ((deepRows.getLast?.map Prod.snd).getD 0)

def deepCalls : List Action := deepChain.flatMap fun spec => [.decode 0 spec, .accept 0 [] 1]

end Worked

section Worked

attribute [local instance] Worked.deepSha512

/-- From a depth of twelve, the second step is cut short at genesis and the third fails. -/
theorem rewind_ends_at_genesis_deep :
    let s := (System.boot 1 1 [7]).run Worked.deepCalls
    ∃ c h, s.engine = some c ∧ h ≠ genesisHash 1 1 ∧
      (rewound (fun _ => c) (fun _ => s.db) (some Worked.deepTip) 0).Passes h ∧
      (rewound (fun _ => c) (fun _ => s.db) (some Worked.deepTip) 1).Passes (genesisHash 1 1) ∧
      (rewound (fun _ => c) (fun _ => s.db) (some Worked.deepTip) 2).Fails (genesisHash 1 1)
        (.core .invalidArg "no ancestor for genesis") := by
  intro s
  have run : (System.boot 1 1 [7]).engine.isSome ∧ System.Along RebaseOk (System.boot 1 1 [7]) Worked.deepCalls ∧
      (acceptedBlocks s.db).length = 13 ∧ s.engine.map (fun c => c.genesisNode.hash) = some (genesisHash 1 1) ∧
      (getChainNode s.db Worked.deepTip).isSome = true ∧ depthAt s.db Worked.deepTip = 12 := by decide +kernel
  obtain ⟨started, fine, count, genesis, stored, depth⟩ := run
  obtain ⟨c, engine, root⟩ := Option.map_eq_some_iff.mp genesis
  have reached : Reached RebaseOk (genesisHash 1 1) s := ⟨1, 1, [7], Worked.deepCalls, started, rfl, fine, rfl⟩
  clear_value s
  have rewinding : Rewinding (genesisHash 1 1) (fun _ => c) fun _ => s.db :=
    Reached.rewinding (s := fun _ => s) reached (fun _ => ⟨[], trivial, rfl⟩) (fun _ => by rw [count]; decide) fun _ => root
  obtain ⟨-, path, rewinds⟩ := rewind_ends_at_genesis rewinding (.last Worked.deepTip) stored
  rw [depth] at rewinds
  have there : path 2 = genesisHash 1 1 := (rewinds.genesis 2 (Nat.le_refl 2)).mpr rfl
  have above : path 1 ≠ genesisHash 1 1 := fun early => absurd ((rewinds.genesis 1 (by decide)).mp early) (by decide)
  exact ⟨c, path 1, engine, above, rewinds.passes 0 (by decide), there ▸ rewinds.passes 1 (by decide), rewinds.fails⟩

end Worked

end TrustNet
