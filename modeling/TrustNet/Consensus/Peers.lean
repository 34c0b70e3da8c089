import TrustNet.Consensus.Ancestors
import TrustNet.Consensus.Dag
import TrustNet.Consensus.Transactions

/-!
# Two nodes of a network

A hash is computed for a child of one parent: the data that is hashed begins with the
parent's hash. As long as SHA-512 does not collide on that data, two nodes with the
same genesis that store a block therefore store the same ancestors of it, at the same
depths, and come to the same decision on its uncles.
-/

namespace TrustNet
set_option autoImplicit false
open ParentTree (Anc Ranked)

section Origins

variable [Sha512] {X : Set Bytes} {g : Byte64} {s s' : System} {a : Action}

/-- The hashes of stored blocks and of blocks in hand were computed for children of their parents. -/
structure Origins (X : Set Bytes) (g : Byte64) (s : System) : Prop where
  stored : ∀ h spec, getSpec s.db h = some spec → h ≠ g → HashedUnder X spec.phash h
  blocks : ∀ j b h, s.blocks j = some b → b.hash = some h → HashedUnder X b.phash h

theorem Origins.of_records (same : SameRecords s.db s'.db) (inv : Origins X g s) (h : Byte64) (spec : BlockSpec)
    (found : getSpec s'.db h = some spec) (ne : h ≠ g) : HashedUnder X spec.phash h := by
  rw [same.spec] at found
  exact inv.stored h spec found ne

theorem StepResult.origins {o : Option Outcome} (result : StepResult s a s' o) (onTip : OnTip g s) (inv : Origins X g s)
    (fine : a.submits = true → ∀ msg, o ≠ some (.error (.core .notFound msg))) (inputs : HashesIn X s a) :
    Origins X g s' := by
  cases result with
  | quiet s' o steps engine blocks contents =>
    refine ⟨inv.of_records (SameRecords.of_steps steps), fun j b' h found hash => ?_⟩
    rcases blocks j b' found with ⟨old, -⟩ | ⟨-, origin, -⟩
    · exact inv.blocks j b' h old hash
    · exact origin.under inv.blocks inputs hash
  | added i c c' b child ws₀ ws order parent d₁ d' outcome submits target engine block state cleaned valid hashed root
      result =>
    obtain ⟨m, canonical, synced⟩ := onTip
    have same := hashed.records
    have source : ∀ {h}, child.hash = some h → HashedUnder X child.phash h :=
      fun hash => (hashed.origin block).under inv.blocks inputs hash
    have old : ∀ h spec, getSpec d₁ h = some spec → h ≠ g → HashedUnder X spec.phash h := by
      intro h spec found ne
      rw [same.spec] at found
      exact inv.stored h spec found ne
    have new : ∀ {h'}, child.hash = some h' → Extended d₁ child h' d' → ∀ h spec, getSpec d' h = some spec → h ≠ g →
        HashedUnder X spec.phash h := by
      intro h' hash extended h spec found ne
      rw [extended.spec] at found
      split at found
      · rename_i eq
        cases found
        rw [eq]
        exact source hash
      · exact old h spec found ne
    refine ⟨?_, fun j b' h found hash => ?_⟩
    · rw [submitted_db]
      obtain ⟨m', addition, -, -⟩ := added_canonical canonical (synced c engine) valid hashed root result
        fun msg eq => fine submits msg (by rw [eq])
      cases addition with
      | refused _ failed => exact old
      | side h _ hash fresh extended worse => exact new hash extended
      | moved _ _ _ hash fresh extended better => exact new hash extended
    · rcases submitted_block found with ⟨-, old⟩ | ⟨-, rfl, -⟩
      · exact inv.blocks j b' h old hash
      · exact source hash
  | stopped => exact ⟨inv.of_records (freshDisk_records s.db), fun j b' h found => by simp [System.dead] at found⟩
  | restarted h spec d' t gn minerId restarts tip found rebased =>
    have steps : TrieSteps (fun _ => False) s.db d' := rebased.fresh_steps
    exact ⟨inv.of_records (SameRecords.of_steps steps), fun j b' h found => by simp at found⟩

/-- The call does not fail in the engine's `Rebase`, and the data that it hashes is in `X`. -/
def Hashing (X : Set Bytes) (s : System) (a : Action) : Prop := RebaseOk s a ∧ HashesIn X s a

theorem Reached.rebaseOk (reached : Reached (Hashing X) g s) : Reached RebaseOk g s := reached.mono fun _ _ step => step.1

theorem Reached.origins (reached : Reached (Hashing X) g s) : Origins X g s := by
  refine (reached.invariant (fun s => OnTip g s ∧ Origins X g s) (fun genesisTime now minerId started genesis => ?_)
    (fun s a ready inv step => ?_)).2.2
  · refine ⟨genesis ▸ onTip_boot started, fun h spec found ne => ?_, fun j b h found => ?_⟩
    · rw [(boot_of_started started).2, bootDisk_getSpec, genesis, if_neg ne] at found
      cases found
    · rw [(boot_of_started started).2] at found
      cases found
  · exact ⟨onTip_next ready inv.1 step.1, (step_result ready a).origins inv.1 inv.2 step.1.outcome step.2⟩

end Origins

/-! ## What two nodes share -/

section Shared

variable [Sha512] {X : Set Bytes} {d d' : Disk} {g h : Byte64}

/-- The database of a node of the network with genesis `g`. -/
structure Peer (X : Set Bytes) (g : Byte64) (d : Disk) : Prop where
  canonical : ∃ m, Canonical d g m
  dag : Dag d g
  origin : ∀ h spec, getSpec d h = some spec → h ≠ g → HashedUnder X spec.phash h
  rootless : getSpec d genesisParent = none

theorem Peer.of_records (peer : Peer X g d) (same : SameRecords d d') (grow : d.log.length ≤ d'.log.length) :
    Peer X g d' where
  canonical := by
    obtain ⟨m, canonical⟩ := peer.canonical
    exact ⟨m, canonical.of_records same grow⟩
  dag := peer.dag.of_records same
  origin h spec found := by
    rw [same.spec] at found
    exact peer.origin h spec found
  rootless := by
    rw [same.spec]
    exact peer.rootless

/-- Both databases have the block. -/
def Common (d d' : Disk) (h : Byte64) : Prop := (getSpec d h).isSome ∧ (getSpec d' h).isSome

theorem Peer.spec_of_edge (peer : Peer X g d) {a b : Byte64} (edge : parentOf d g a = some b) :
    a ≠ g ∧ ∃ spec, getSpec d a = some spec ∧ spec.phash = b ∧ (getSpec d b).isSome := by
  obtain ⟨m, canonical⟩ := peer.canonical
  have stored := canonical.chain.tree.parent_stored edge
  rw [canonical.stored_iff] at stored
  rw [canonical.parentOf_eq] at edge
  split at edge
  · cases edge
  · rename_i ne
    obtain ⟨spec, found, parent⟩ := Option.map_eq_some_iff.mp edge
    exact ⟨ne, spec, found, parent, stored⟩

theorem Peer.edge_of_spec (peer : Peer X g d) {spec : BlockSpec} (found : getSpec d h = some spec) (ne : h ≠ g) :
    parentOf d g h = some spec.phash := by
  obtain ⟨m, canonical⟩ := peer.canonical
  rw [canonical.parentOf_eq, if_neg ne, found]
  rfl

/-- Ranks fall along stored parents. -/
theorem Peer.falls {rank : Byte64 → Nat} (peer : Peer X g d) (ranked : Ranked (parentOf d g) rank) {n : ChainNode}
    (node : getChainNode d h = some n) (stored : (getChainNode d n.parent).isSome) : rank n.parent < rank h := by
  obtain ⟨m, canonical⟩ := peer.canonical
  refine ranked h n.parent ?_
  rw [parentOf_of_found node]
  rintro rfl
  have storedG := canonical.stored_iff (h := h)
  rw [node, Option.isSome_some] at storedG
  obtain ⟨spec, found⟩ := Option.isSome_iff_exists.mp storedG.symm
  obtain ⟨n', node', parent, -⟩ := canonical.node found
  rw [node, Option.some.injEq] at node'
  rw [node', parent, peer.dag.root found, canonical.noNode peer.rootless] at stored
  cases stored

variable (free : Set.InjOn sum512 X) (first : Peer X g d) (second : Peer X g d')
include free first second

/-- A common block has one parent, which is common. -/
theorem Peer.edge {a b : Byte64} (common : Common d d' a) (edge : parentOf d g a = some b) :
    parentOf d' g a = some b ∧ Common d d' b := by
  obtain ⟨ne, spec, found, rfl, storedB⟩ := first.spec_of_edge edge
  obtain ⟨spec', found'⟩ := Option.isSome_iff_exists.mp common.2
  have same := (first.origin a spec found ne).unique free (second.origin a spec' found' ne)
  have edge' := second.edge_of_spec found' ne
  rw [← same] at edge'
  obtain ⟨-, -, -, -, storedB'⟩ := second.spec_of_edge edge'
  exact ⟨edge', storedB, storedB'⟩

/-- Common blocks have the same level. -/
theorem Peer.level {level level' : Byte64 → Nat} (levels : Levels d g level) (levels' : Levels d' g level')
    (common : Common d d' h) : level' h = level h := by
  obtain ⟨m, canonical⟩ := first.canonical
  have up := canonical.chain.tree.anc_genesis (by rw [canonical.stored_iff]; exact common.1)
  induction up using Relation.ReflTransGen.head_induction_on with
  | refl => rw [levels.genesis, levels'.genesis]
  | @head a b edge _ ih =>
    obtain ⟨edge', next⟩ := first.edge free second common edge
    rw [levels.edge a b edge, levels'.edge a b edge', ih next]

/-- The nodes of a common block. -/
theorem Peer.view (common : Common d d' h) :
    ∃ n n', getChainNode d h = some n ∧ getChainNode d' h = some n' ∧ SameView n n' ∧
      (n.parent = genesisParent ∨ Common d d' n.parent) := by
  obtain ⟨m, canonical⟩ := first.canonical
  obtain ⟨m', canonical'⟩ := second.canonical
  obtain ⟨level, levels⟩ := first.dag.levels
  obtain ⟨level', levels'⟩ := second.dag.levels
  obtain ⟨spec, found⟩ := Option.isSome_iff_exists.mp common.1
  obtain ⟨spec', found'⟩ := Option.isSome_iff_exists.mp common.2
  have depth : spec.depth = spec'.depth := by
    rw [levels.depth found, levels'.depth found', first.level free second levels levels' common]
  have parent : spec.phash = spec'.phash ∧ (spec.phash = genesisParent ∨ Common d d' spec.phash) := by
    by_cases eq : h = g
    · subst eq
      have root := first.dag.root found
      exact ⟨root.trans (second.dag.root found').symm, Or.inl root⟩
    · obtain ⟨edge', next⟩ := first.edge free second common (first.edge_of_spec found eq)
      rw [second.edge_of_spec found' eq, Option.some.injEq] at edge'
      exact ⟨edge'.symm, Or.inr next⟩
  obtain ⟨n, node, parentN, depthN⟩ := canonical.node found
  obtain ⟨n', node', parentN', depthN'⟩ := canonical'.node found'
  refine ⟨n, n', node, node', ⟨?_, ?_, ?_⟩, by rw [parentN]; exact parent.2⟩
  · rw [canonical.chain.tree.keyed node, canonical'.chain.tree.keyed node']
  · rw [parentN, parentN', parent.1]
  · rw [depthN, depthN', depth]

/-- **Two nodes agree on the ancestors of their common blocks.** -/
theorem Peer.shared : ∃ rank rank', Shared d d' (fun h => Common d d' h ∨ h = genesisParent) rank rank' := by
  obtain ⟨m, canonical⟩ := first.canonical
  obtain ⟨m', canonical'⟩ := second.canonical
  obtain ⟨rank, ranked, bound⟩ := canonical.chain.tree.ranked
  obtain ⟨rank', ranked', bound'⟩ := canonical'.chain.tree.ranked
  refine ⟨rank, rank', fun {x} member => ?_, fun {x n} member found stored => ?_, fun {x n} member found stored => ?_,
    fun stored => bound _ stored, fun stored => bound' _ stored⟩
  · rcases member with common | rfl
    · obtain ⟨n, n', node, node', view, next⟩ := first.view free second common
      exact Or.inr ⟨n, n', node, node', view, next.symm⟩
    · exact Or.inl ⟨canonical.noNode first.rootless, canonical'.noNode second.rootless⟩
  · exact first.falls ranked found stored
  · exact second.falls ranked' found stored

end Shared

/-! ## Uncles stay in reach -/

/-- The uncles of stored blocks are in reach. -/
def UnclesInReach (d : Disk) : Prop :=
  ∀ ⦃h spec u⦄, getSpec d h = some spec → u ∈ spec.uncles → uncleInReach d spec.phash u = true

/-- An uncle in reach is stored, and so is the parent that it is in reach of. -/
theorem uncleInReach_stored {d : Disk} {p u : Byte64} (reach : uncleInReach d p u = true) :
    (getChainNode d p).isSome ∧ (getChainNode d u).isSome := by
  unfold uncleInReach at reach
  cases foundU : getChainNode d u with
  | none => simp [foundU] at reach
  | some uncle =>
    cases foundP : getChainNode d p with
    | none => simp [foundU, foundP, climbParent] at reach
    | some parent => exact ⟨rfl, rfl⟩

section InReach

variable [Sha512] {X : Set Bytes} {g : Byte64} {s : System} {d d' : Disk}

/-- SHA-512 gives no two inputs of `X` one digest, and none the null hash; nor is genesis the null hash. -/
structure Sound512 (X : Set Bytes) (g : Byte64) : Prop where
  free : Set.InjOn sum512 X
  proper : ∀ data ∈ X, sum512 data ≠ genesisParent
  genesis : g ≠ genesisParent

theorem HashedUnder.ne_null {p k : Byte64} (sound : Sound512 X g) (under : HashedUnder X p k) : k ≠ genesisParent := by
  obtain ⟨data, member, rfl, -⟩ := under
  exact sound.proper data member

theorem Reached.peer (sound : Sound512 X g) (reached : Reached (Hashing X) g s) : Peer X g s.db := by
  have origins := reached.origins
  obtain ⟨m, canonical, -⟩ := reached.rebaseOk.onTip
  refine ⟨⟨m, canonical⟩, reached.rebaseOk.dag, origins.stored, ?_⟩
  cases found : getSpec s.db genesisParent with
  | none => rfl
  | some spec => exact absurd rfl ((origins.stored _ spec found (Ne.symm sound.genesis)).ne_null sound)

/-- What was in reach is in reach for another node that has the parent and the uncle. -/
theorem Peer.uncleInReach {p u : Byte64} (sound : Sound512 X g) (first : Peer X g d) (second : Peer X g d')
    (parent : Common d d' p) (uncle : Common d d' u) : uncleInReach d p u = TrustNet.uncleInReach d' p u := by
  obtain ⟨rank, rank', shared⟩ := first.shared sound.free second
  exact shared.uncleInReach (Or.inl parent) (Or.inl uncle)

/-- A block that is valid for one is valid for another node that has the same parent and uncles. -/
theorem Peer.valid {spec parent : BlockSpec} (sound : Sound512 X g) (first : Peer X g d) (second : Peer X g d')
    (valid : Valid d spec parent) (same : ∀ h ∈ spec.phash :: spec.uncles, getSpec d' h = getSpec d h) :
    Valid d' spec parent := by
  obtain ⟨rank, rank', shared⟩ := first.shared sound.free second
  have stored : getSpec d' spec.phash = some parent := by
    rw [same _ List.mem_cons_self]
    exact valid.stored
  refine shared.valid valid (Or.inl ⟨by rw [valid.stored]; rfl, by rw [stored]; rfl⟩) stored fun u listed => ?_
  have here : (getSpec d' u).isSome := by
    rw [same u (List.mem_cons_of_mem _ listed)]
    exact (valid.uncles u listed).2
  exact ⟨Or.inl ⟨(valid.uncles u listed).2, here⟩, here⟩

/-- Genesis is nobody's uncle: nothing is beside it. -/
theorem Peer.genesis_not_uncle (peer : Peer X g d) (p : Byte64) : TrustNet.uncleInReach d p g = false := by
  obtain ⟨m, canonical⟩ := peer.canonical
  obtain ⟨level, levels⟩ := peer.dag.levels
  have stored := canonical.chain.tree.genesis
  rw [canonical.stored_iff] at stored
  obtain ⟨spec, found⟩ := Option.isSome_iff_exists.mp stored
  obtain ⟨n, node, parent, depth⟩ := canonical.node found
  have noParent : getChainNode d n.parent = none := by
    rw [parent, peer.dag.root found]
    exact canonical.noNode peer.rootless
  have noDepth : n.depth = 0 := by
    rw [depth, levels.depth found, levels.genesis]
    rfl
  unfold TrustNet.uncleInReach
  rw [node]
  simp only
  generalize climbParent d n.depth (Database.calls d + 1) (getChainNode d p) 0 = climbed
  obtain ⟨top, distance⟩ := climbed
  cases top with
  | none => rfl
  | some q =>
    have stays : climbUncle d (some q) (Database.calls d + 1) (some n) distance = (some n, distance) := by
      simp [climbUncle, noDepth]
    have misses : ∀ (fuel : Nat) (x : Option ChainNode) (distance : UInt64),
        climbBoth d fuel x none distance = (x, none, distance) := by
      intro fuel x distance
      cases fuel with
      | zero => cases x <;> rfl
      | succ fuel => cases x <;> rfl
    simp only [stays]
    split
    · rfl
    · rename_i apart
      rw [climbBoth, if_pos apart, noParent, misses]
      cases getChainNode d q.parent <;> rfl

theorem Reached.unclesInReach (sound : Sound512 X g) (reached : Reached (Hashing X) g s) : UnclesInReach s.db := by
  refine (reached.invariant (fun s => Reached (Hashing X) g s ∧ UnclesInReach s.db)
    (fun genesisTime now minerId started genesis => ?_) (fun s a ready inv step => ?_)).2.2
  · refine ⟨⟨genesisTime, now, minerId, [], started, genesis, trivial, rfl⟩, fun h spec u found listed => ?_⟩
    rw [(boot_of_started started).2, bootDisk_getSpec] at found
    split at found
    · cases found
      cases listed
    · cases found
  · obtain ⟨reached, inReach⟩ := inv
    have one : System.Along (Hashing X) s [a] := ⟨step, trivial⟩
    have reached' : Reached (Hashing X) g (s.next a) := reached.run one
    obtain ⟨m, canonical, -⟩ := reached.rebaseOk.onTip
    have growth := growth_next ready reached.rebaseOk.onTip step.1
    -- The decision on a pair of stored blocks does not change.
    have kept : ∀ {p u}, TrustNet.uncleInReach s.db p u = true → TrustNet.uncleInReach (s.next a).db p u = true := by
      intro p u reach
      have both : ∀ {q}, (getChainNode s.db q).isSome → Common s.db (s.next a).db q := by
        intro q stored
        rw [canonical.stored_iff] at stored
        obtain ⟨spec, found⟩ := Option.isSome_iff_exists.mp stored
        exact ⟨stored, by rw [growth.kept q spec found]; rfl⟩
      obtain ⟨storedP, storedU⟩ := uncleInReach_stored reach
      rw [← (reached.peer sound).uncleInReach sound (reached'.peer sound) (both storedP) (both storedU)]
      exact reach
    refine ⟨reached', fun h spec u found listed => ?_⟩
    cases growth with
    | same records =>
      rw [records.spec] at found
      exact kept (inReach found listed)
    | stored i b child h' parent submits target block body hash fresh valid extended children =>
      rw [extended.spec] at found
      split at found
      · cases found
        exact kept (valid.uncles u listed).1
      · exact kept (inReach found listed)

end InReach

end TrustNet
