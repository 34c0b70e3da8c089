import TrustNet.Consensus.AddBlock
import TrustNet.Consensus.Commitment
import TrustNet.Consensus.System
import TrustNet.Consensus.Validate

/-!
# The calls of the engine, one lemma each

Every call of the engine begins or ends with trie writes; between them,
accepting and mining add a block. The lemmas below say for each call which of
its branches was taken and what it left.
-/

namespace TrustNet
set_option autoImplicit false
open WriteLog (WritesOnly)

variable [Sha512] {d d' : Disk} {h : Byte64}

/-! ## A fresh world state -/

/-- The database after `NewMptWorldState`. -/
def freshDisk (d : Disk) : Disk := (newMptWorldState d).1

theorem newMptWorldState_disk (d : Disk) : newMptWorldState d = (freshDisk d, some freshState) := rfl

theorem freshDisk_steps {cleaned : Byte64 → Prop} (d : Disk) : TrieSteps cleaned d (freshDisk d) :=
  newMptWorldState_steps d

theorem TrieLog.freshDisk (log : TrieLog d) : TrieLog (freshDisk d) := by
  have steps : TrieSteps (fun _ => False) d (TrustNet.freshDisk d) := freshDisk_steps d
  exact log.steps steps

theorem freshDisk_records (d : Disk) : SameRecords d (freshDisk d) := by
  have steps : TrieSteps (fun _ => False) d (freshDisk d) := freshDisk_steps d
  exact SameRecords.of_steps steps

theorem fresh_rebase (log : TrieLog d) (h : Byte64) :
    (¬ Available (freshDisk d) h ∧
        ∃ msg, freshState.rebase (freshDisk d) h = (freshDisk d, freshState, some (.core .notFound msg))) ∨
      ∃ d' t, freshState.rebase (freshDisk d) h = (d', t, none) ∧ Rebased (freshDisk d) h d' t :=
  rebase_cases log.freshDisk freshState emptyNode_isEmpty h

theorem Rebased.ready {t : MptWorldState} (rebased : Rebased d h d' t) (ne : h ≠ null) : t.Ready :=
  ⟨rebased.txNode, by rw [rebased.rootHash]; exact ne⟩

theorem Rebased.available_after {t : MptWorldState} (rebased : Rebased d h d' t) (log : TrieLog d) :
    Available d' t.rootHash := by
  rw [rebased.rootHash]
  exact Available.steps log rebased.steps not_false rebased.available

theorem Rebased.fresh_steps {t : MptWorldState} {cleaned : Byte64 → Prop} (rebased : Rebased (freshDisk d) h d' t) :
    TrieSteps cleaned d d' :=
  (freshDisk_steps d).trans (rebased.steps.mono (TrieWrite.mono fun _ hit => hit.elim))

/-- A fresh world state can be rebased to what is available. -/
theorem Available.fresh_rebased (log : TrieLog d) (available : Available d h) :
    ∃ d' t, freshState.rebase (freshDisk d) h = (d', t, none) ∧ Rebased (freshDisk d) h d' t := by
  have steps : TrieSteps (fun _ => False) d (freshDisk d) := freshDisk_steps d
  exact (fresh_rebase log h).resolve_left fun missing => missing.1 (available.steps log steps not_false)

/-! ## Decoding and candidates -/

theorem decodeNetworkBlockSpec_cases (log : TrieLog d) (spec : BlockSpec) :
    (∃ b' e, validateBlock d spec.toBlock = (b', .error e) ∧ decodeNetworkBlockSpec d spec = (d, .error e)) ∨
      (∃ parent, decodeNetworkBlockSpec d spec =
          (freshDisk d, .error (.core .stateIncorrect "cannot initialize state")) ∧ Valid d spec parent ∧
        ¬ Available (freshDisk d) parent.state) ∨
      ∃ parent d' t miners, Valid d spec parent ∧ Rebased (freshDisk d) parent.state d' t ∧
        decodeNetworkBlockSpec d spec =
          (d', .ok { spec.toBlock with uncleMiners := miners, worldState := some t }) := by
  unfold decodeNetworkBlockSpec
  generalize validated : validateBlock d spec.toBlock = result
  obtain ⟨b, checked⟩ := result
  cases checked with
  | error e => exact Or.inl ⟨b, e, rfl, rfl⟩
  | ok parentBlock =>
    obtain ⟨parent, miners, valid, eqParent, eqB⟩ := validateBlock_ok validated
    subst eqParent eqB
    right
    rw [newMptWorldState_disk]
    simp only
    rcases fresh_rebase log parent.state with ⟨missing, msg, eq⟩ | ⟨d', t, eq, rebased⟩
    · left
      simp only [BlockSpec.toBlock, eq]
      exact ⟨parent, trivial, valid, missing⟩
    · right
      refine ⟨parent, d', t, miners, valid, rebased, ?_⟩
      simp only [BlockSpec.toBlock, eq]

/-- A valid block is decoded, if the state of its parent is there. -/
theorem decodeNetworkBlockSpec_of_valid {spec parent : BlockSpec} (log : TrieLog d) (valid : Valid d spec parent)
    (available : Available d parent.state) :
    ∃ d' t miners, Rebased (freshDisk d) parent.state d' t ∧
      decodeNetworkBlockSpec d spec = (d', .ok { spec.toBlock with uncleMiners := miners, worldState := some t }) := by
  obtain ⟨d', t, eq, rebased⟩ := available.fresh_rebased log
  obtain ⟨miners, validated⟩ := validateBlock_of_valid (b := spec.toBlock) valid
  refine ⟨d', t, miners, rebased, ?_⟩
  unfold decodeNetworkBlockSpec
  rw [validated, newMptWorldState_disk]
  simp only [BlockSpec.toBlock, eq]

omit [Sha512] in
/-- `addUncle` touches the uncles, their miners and the weight. -/
theorem addUncles_eq (uncles : List Uncle) (b : Block) :
    ∃ miners, uncles.foldl Block.addUncle b =
      { b with
        uncles := b.uncles ++ uncles.map Uncle.hash, uncleMiners := miners, wt := b.wt + UInt64.ofNat uncles.length } := by
  induction uncles generalizing b with
  | nil => exact ⟨b.uncleMiners, by simp⟩
  | cons u uncles ih =>
    obtain ⟨miners, eq⟩ := ih (b.addUncle u)
    refine ⟨miners, ?_⟩
    rw [List.foldl_cons, eq, List.length_cons, UInt64.ofNat_add, UInt64.add_comm (UInt64.ofNat uncles.length)]
    simp [Block.addUncle, UInt64.add_assoc]

/-- The uncles that `NewCandidateBlock` collects. -/
def candidateUncles (d : Disk) (c : BlockChainConsensus) (th : Byte64) : List Byte64 :=
  (findUncles d c.tip.depth maxUncleDistance.toNat c.tip.phash th).map Uncle.hash

/-- A candidate is a fresh child of the tip on a copy of the engine's world state. -/
theorem newCandidateBlock_cases (log : TrieLog d) (c : BlockChainConsensus) (now : UInt64) {th : Byte64}
    (tip : c.tip.hash = some th) :
    (¬ Available (freshDisk d) c.state.rootHash ∧ newCandidateBlock c d now = (freshDisk d, none)) ∨
      ∃ d' t miners, Rebased (freshDisk d) c.state.rootHash d' t ∧
        newCandidateBlock c d now = (d', some
          { newBlock th (c.tip.wt + 1) (c.tip.depth + 1) now (now - c.tip.ts) c.minerId (some t) now with
            uncles := candidateUncles d' c th, uncleMiners := miners,
            wt := c.tip.wt + 1 + UInt64.ofNat (candidateUncles d' c th).length }) := by
  unfold newCandidateBlock
  rw [newMptWorldState_disk]
  simp only
  rcases fresh_rebase log c.state.rootHash with ⟨missing, msg, eq⟩ | ⟨d', t, eq, rebased⟩
  · left
    rw [eq]
    exact ⟨missing, rfl⟩
  · right
    rw [eq, tip]
    simp only
    obtain ⟨miners, fold⟩ := addUncles_eq (findUncles d' c.tip.depth maxUncleDistance.toNat c.tip.phash th)
      (newBlock th (c.tip.wt + 1) (c.tip.depth + 1) now (now - c.tip.ts) c.minerId (some t) now)
    refine ⟨d', t, miners, rebased, ?_⟩
    rw [fold]
    simp [newBlock, candidateUncles]

theorem newCandidateBlock_isSome {c : BlockChainConsensus} {th : Byte64} (log : TrieLog d) (now : UInt64)
    (tip : c.tip.hash = some th) (available : Available d c.state.rootHash) : (newCandidateBlock c d now).2.isSome := by
  obtain ⟨d', t, eq, -⟩ := available.fresh_rebased log
  simp only [newCandidateBlock, newMptWorldState_disk, eq, tip, Option.isSome_some]

theorem bestBlock_isSome {c : BlockChainConsensus} (log : TrieLog d) (available : Available d c.state.rootHash) :
    (bestBlock c d).2.isSome := by
  obtain ⟨d', t, eq, -⟩ := available.fresh_rebased log
  simp only [bestBlock, newMptWorldState_disk, eq, Option.isSome_some]

theorem blockAt_steps (log : TrieLog d) (h : Byte64) : TrieSteps (fun _ => False) d (blockAt d h).1 := by
  unfold blockAt
  split
  · exact WritesOnly.refl d
  · rename_i block _
    rw [newMptWorldState_disk]
    simp only
    rcases fresh_rebase log block.state with ⟨_, msg, eq⟩ | ⟨d', t, eq, rebased⟩
    · rw [eq]
      exact freshDisk_steps d
    · rw [eq]
      exact rebased.fresh_steps

theorem Whole.blockAt (log : TrieLog d) (whole : Whole d) (h : Byte64) : Whole (blockAt d h).1 := by
  unfold TrustNet.blockAt
  split
  · exact whole
  · rename_i block _
    rw [newMptWorldState_disk]
    simp only
    rcases fresh_rebase log block.state with ⟨_, msg, eq⟩ | ⟨d', t, eq, rebased⟩
    · rw [eq]
      exact whole.newMptWorldState
    · rw [eq]
      exact (rebased.contents log.freshDisk whole.newMptWorldState).1

theorem Whole.bestBlock (log : TrieLog d) (whole : Whole d) (c : BlockChainConsensus) : Whole (bestBlock c d).1 := by
  unfold TrustNet.bestBlock
  rw [newMptWorldState_disk]
  simp only
  rcases fresh_rebase log c.state.rootHash with ⟨_, msg, eq⟩ | ⟨d', t, eq, rebased⟩
  · rw [eq]
    exact whole.newMptWorldState
  · rw [eq]
    exact (rebased.contents log.freshDisk whole.newMptWorldState).1

theorem bestBlock_steps (log : TrieLog d) (c : BlockChainConsensus) :
    TrieSteps (fun _ => False) d (bestBlock c d).1 := by
  unfold bestBlock
  rw [newMptWorldState_disk]
  simp only
  rcases fresh_rebase log c.state.rootHash with ⟨_, msg, eq⟩ | ⟨d', t, eq, rebased⟩
  · rw [eq]
    exact freshDisk_steps d
  · rw [eq]
    exact rebased.fresh_steps

/-! ## Starting -/

/-- The hash of the genesis block. -/
def genesisHash (genesisTime now : UInt64) : Byte64 :=
  sum512 ((genesisBlock genesisTime now (some freshState)).preimage emptyNode.hash ++ uint64Bytes 0)

/-- The genesis block, hashed. -/
def hashedGenesis (genesisTime now : UInt64) : Block :=
  { genesisBlock genesisTime now (some freshState) with hash := some (genesisHash genesisTime now) }

/-- The chain node of the genesis block. -/
def genesisNode (genesisTime now : UInt64) : ChainNode :=
  (newChainNode (hashedGenesis genesisTime now).toBlockSpec (genesisHash genesisTime now)).setMainList true

theorem genesis_computeHash (genesisTime now : UInt64) (d : Disk) :
    (genesisBlock genesisTime now (some freshState)).computeHash d [] 1 =
      (d, hashedGenesis genesisTime now, some (genesisHash genesisTime now)) := rfl

/-- A start on a database with a tip record rebases to the tip, or fails. -/
theorem restart_cases (log : TrieLog d) (tip : getDagTip d = some h) (genesisTime now : UInt64) (minerId : Bytes) :
    (∃ e, System.restart d genesisTime now minerId = (System.dead (freshDisk d), some (.error e)) ∧
        ∀ spec, getSpec d h = some spec → ¬ Available (freshDisk d) spec.state) ∨
      ∃ spec d' t, getSpec d h = some spec ∧ Rebased (freshDisk d) spec.state d' t ∧
        System.restart d genesisTime now minerId =
          (⟨d', some ⟨t, { spec.toBlock with hash := some h }, spec.wt, genesisNode genesisTime now, minerId⟩,
            fun _ => none⟩, some .ok) := by
  have same : SameRecords d (freshDisk d) := freshDisk_records d
  unfold System.restart newBlockChainConsensus
  rw [newMptWorldState_disk]
  simp only [genesis_computeHash, same.dagTip, tip, getBlock_eq, same.spec]
  cases found : getSpec d h with
  | none => exact Or.inl ⟨_, rfl, by simp⟩
  | some spec =>
    simp only [Option.map_some, BlockSpec.toBlock]
    rcases fresh_rebase log spec.state with ⟨missing, msg, eq⟩ | ⟨d', t, eq, rebased⟩
    · rw [eq]
      refine Or.inl ⟨_, rfl, fun spec' same => ?_⟩
      cases same
      exact missing
    · rw [eq]
      exact Or.inr ⟨spec, d', t, rfl, rebased, rfl⟩

/-- The database after a start that found no tip record. -/
def initDisk (d : Disk) (genesisTime now : UInt64) : Disk :=
  (((freshDisk d).write .dagTip (some (.hash (genesisHash genesisTime now)))).write
    (.block (genesisHash genesisTime now)) (some (.block (hashedGenesis genesisTime now).toBlockSpec))).write
    (.chainNode (genesisHash genesisTime now)) (some (.chainNode (genesisNode genesisTime now)))

/-- The database after the first start. -/
def bootDisk (genesisTime now : UInt64) : Disk := initDisk WriteLog.empty genesisTime now

/-- Such a start succeeds unless the empty trie hashes to the null hash. -/
theorem init_cases (noTip : getDagTip d = none) (genesisTime now : UInt64) (minerId : Bytes) :
    (emptyNode.hash = null ∧ (System.restart d genesisTime now minerId).1.engine = none) ∨
      (emptyNode.hash ≠ null ∧ (System.restart d genesisTime now minerId).1 =
        ⟨initDisk d genesisTime now, some ⟨freshState, hashedGenesis genesisTime now, 0, genesisNode genesisTime now,
          minerId⟩, fun _ => none⟩) := by
  have putGenesis : ∀ d : Disk, putBlock d (hashedGenesis genesisTime now) =
      if emptyNode.hash = null then (d, some (.core .stateIncorrect "block state incorrect"))
      else (d.write (.block (genesisHash genesisTime now)) (some (.block (hashedGenesis genesisTime now).toBlockSpec)),
        none) := by
    intro d
    by_cases zero : emptyNode.hash = null
    · simp [putBlock, hashedGenesis, genesisBlock, newBlock, freshState, zero]
    · simp [putBlock, hashedGenesis, genesisBlock, newBlock, freshState, zero]
  unfold System.restart newBlockChainConsensus
  rw [newMptWorldState_disk]
  rw [← (freshDisk_records d).dagTip] at noTip
  simp only [genesis_computeHash, noTip, saveGenesis, Disk.put_eq, putGenesis]
  by_cases zero : emptyNode.hash = null
  · left
    simp [zero]
  · right
    refine ⟨zero, ?_⟩
    simp only [zero, if_false]
    rfl

/-! ## Submitting a block -/

/-- The data whose digest becomes the hash of `b`, if one is approved. -/
def Block.hashInputs (b : Block) (d : Disk) (order : List Entry) (tries : Nat) : List Bytes :=
  match b.computeHash d order tries with
  | (_, child, some _) => [child.hashInput]
  | (_, _, none) => []

/-- The same for a block that is validated first. -/
def Block.submittedInputs (b : Block) (d : Disk) (order : List Entry) (tries : Nat) : List Bytes :=
  match validateBlock d b with
  | (b, .ok _) => b.hashInputs d order tries
  | (_, .error _) => []

/-- The block `child` is `b` after its overlay was persisted and its hash was computed. -/
structure Hashed (d : Disk) (b : Block) (ws₀ : MptWorldState) (order : List Entry) (inputs : List Bytes) (d₁ : Disk)
    (child : Block) (ws : MptWorldState) : Prop where
  persisted : Persisted d ws₀ (cleanedRoots d ws₀ order false) d₁ ws
  result : persistState d ws₀ order false = (d₁, ws)
  body : ∃ miners pow state nonce hash,
    child = { b with uncleMiners := miners, pow, worldState := some ws, state, nonce, hash }
  input : child.hash = b.hash ∨ (child.hash = some (sum512 child.hashInput) ∧ child.hashInput ∈ inputs)

/-- `computeHash` of a block that differs from `b` in its approver and its uncle miners. -/
theorem computeHash_hashed {b : Block} {ws₀ : MptWorldState} (log : TrieLog d) (hasState : b.worldState = some ws₀)
    (ready : ws₀.Ready) (miners : List Bytes) (pow : Option PowApprover) (order : List Entry) (tries : Nat) :
    ∃ d₁ child ws found, ({ b with uncleMiners := miners, pow } : Block).computeHash d order tries = (d₁, child, found) ∧
      Hashed d b ws₀ order (({ b with uncleMiners := miners, pow } : Block).hashInputs d order tries) d₁ child ws ∧
      (b.isNetworkBlock = false → child.state = ws.rootHash) := by
  obtain ⟨ws, nonce, hash, persisted, result, eqHash, eqBlock, digest⟩ :=
    computeHash_spec (b := { b with uncleMiners := miners, pow }) log hasState ready order tries
  unfold Block.hashInputs
  generalize ({ b with uncleMiners := miners, pow } : Block).computeHash d order tries = ends
    at persisted result eqHash eqBlock ⊢
  obtain ⟨d₁, child, found⟩ := ends
  simp only at persisted result eqHash eqBlock
  subst eqHash
  refine ⟨d₁, child, ws, found, rfl, ⟨persisted, result, ⟨miners, pow, _, nonce, _, eqBlock⟩, ?_⟩, ?_⟩
  · cases found with
    | none => exact Or.inl (by rw [eqBlock]; rfl)
    | some h =>
      refine Or.inr ⟨?_, List.mem_singleton_self _⟩
      rw [eqBlock, (digest h rfl).1]
      rfl
  · intro own
    rw [eqBlock]
    simp [own]

section Hashed

variable {d₁ : Disk} {b child : Block} {ws₀ ws : MptWorldState} {order : List Entry} {inputs : List Bytes}
  (hashed : Hashed d b ws₀ order inputs d₁ child ws)
include hashed

theorem Hashed.state : child.worldState = some ws := by
  obtain ⟨_, _, _, _, _, rfl⟩ := hashed.body
  rfl

/-- Hashing a block changes its state and its nonce. -/
theorem Hashed.body_spec : ∃ state nonce, child.toBlockSpec = { b.toBlockSpec with state, nonce } := by
  obtain ⟨_, _, state, nonce, _, rfl⟩ := hashed.body
  exact ⟨state, nonce, rfl⟩

/-- What hashing a block leaves of its wire fields. -/
theorem Hashed.fields : child.phash = b.phash ∧ child.txs = b.txs ∧ child.wt = b.wt ∧ child.uncles = b.uncles ∧
    child.depth = b.depth := by
  obtain ⟨_, _, _, _, _, rfl⟩ := hashed.body
  exact ⟨rfl, rfl, rfl, rfl, rfl⟩

theorem Hashed.putBlock (root : child.state = ws.rootHash) (d₂ : Disk) {h : Byte64} (hash : child.hash = some h) :
    (TrustNet.putBlock d₂ child).1 = d₂.write (.block h) (some (.block child.toBlockSpec)) :=
  putBlock_eq (by rw [root]; exact hashed.persisted.ready.rootHash) hashed.state root.symm hash

/-- Hashing a block makes the edits of its overlay. -/
theorem Hashed.contents {T : Contents} (log : TrieLog d) (ready : ws₀.Ready) (whole : Whole d) (holds : Holds d ws₀ T)
    (sound : HashSound (Known d₁)) : Holds d₁ ws (T.edits [] (batch order)) ∧ Whole d₁ := by
  have edited := holds.persistState order false log ready whole
  rw [hashed.result] at edited
  exact edited sound

theorem Hashed.records : SameRecords d d₁ := SameRecords.of_steps hashed.persisted.steps

end Hashed

section Submit

variable {c : BlockChainConsensus} {b : Block} {ws₀ : MptWorldState} (log : TrieLog d)
  (hasState : b.worldState = some ws₀) (ready : ws₀.Ready)
include log hasState ready

theorem checkNetworkBlockPoW_cases (apprvr : PowApprover) (order : List Entry) (tries : Nat) :
    (∃ e, checkNetworkBlockPoW d b apprvr order tries = (d, b, .error e)) ∨
      ∃ d₁ child ws outcome,
        Hashed d b ws₀ order (({ b with pow := some apprvr } : Block).hashInputs d order tries) d₁ child ws ∧
        outcome ≠ .panic ∧ checkNetworkBlockPoW d b apprvr order tries = (d₁, child, outcome) := by
  unfold checkNetworkBlockPoW
  split
  · exact Or.inl ⟨_, rfl⟩
  · right
    obtain ⟨d₁, child, ws, found, eq, hashed, -⟩ :=
      computeHash_hashed log hasState ready b.uncleMiners (some apprvr) order tries
    change ({ b with pow := some apprvr } : Block).computeHash d order tries = _ at eq
    rw [eq]
    cases found with
    | none => exact ⟨d₁, child, ws, _, hashed, by simp, rfl⟩
    | some h => exact ⟨d₁, child, ws, _, hashed, by simp, rfl⟩

variable (engineReady : c.state.Ready)
include engineReady

theorem acceptNetworkBlock_cases (order : List Entry) (tries : Nat) :
    (∃ e miners, e.Refusal ∧
        acceptNetworkBlock c d b order tries = (c, d, { b with uncleMiners := miners }, .error e)) ∨
      ∃ parent d₁ child ws, Valid d b.toBlockSpec parent ∧
        Hashed d b ws₀ order (b.submittedInputs d order tries) d₁ child ws ∧
        ((∃ e, e.Refusal ∧ acceptNetworkBlock c d b order tries = (c, d₁, child, .error e)) ∨
          (child.state = ws.rootHash ∧ ∃ c' d' outcome, AddResult c d₁ child c' d' outcome ∧
            acceptNetworkBlock c d b order tries = (c', d', child, outcome))) := by
  unfold acceptNetworkBlock Block.submittedInputs
  obtain ⟨miners, block⟩ := validateBlock_block d b
  generalize validated : validateBlock d b = result at block ⊢
  obtain ⟨b₁, checked⟩ := result
  simp only at block
  subst block
  cases checked with
  | error e => exact Or.inl ⟨e, miners, validateBlock_refusal validated, rfl⟩
  | ok parentBlock =>
    obtain ⟨parent, -, valid, -⟩ := validateBlock_ok validated
    right
    obtain ⟨d₁, child, ws, found, eq, hashed, -⟩ := computeHash_hashed log hasState ready miners b.pow order tries
    change ({ b with uncleMiners := miners } : Block).computeHash d order tries = _ at eq
    have state : child.worldState = some ws := hashed.state
    refine ⟨parent, d₁, child, ws, valid, hashed, ?_⟩
    simp only [eq, state]
    split
    · exact Or.inl ⟨_, by simp [Err.Refusal], rfl⟩
    · rename_i same
      rw [not_not] at same
      have added := addValidatedBlock_result child (log.steps hashed.persisted.steps) engineReady
        (by rw [state]; rfl)
      exact Or.inr ⟨same.symm, _, _, _, added, rfl⟩

theorem mineCandidateBlock_cases (own : b.isNetworkBlock = false) (apprvr : Option PowApprover) (order : List Entry)
    (tries : Nat) :
    (∃ e miners pow, e.Refusal ∧ mineCandidateBlock c d (System.withApprover b apprvr) order tries =
        (c, d, { b with uncleMiners := miners, pow }, .error e)) ∨
      ∃ parent d₁ child ws, Valid d b.toBlockSpec parent ∧
        Hashed d b ws₀ order ((System.withApprover b apprvr).submittedInputs d order tries) d₁ child ws ∧
        ((∃ e, e.Refusal ∧
            mineCandidateBlock c d (System.withApprover b apprvr) order tries = (c, d₁, child, .error e)) ∨
          (child.state = ws.rootHash ∧ ∃ c' d' outcome, AddResult c d₁ child c' d' outcome ∧
            mineCandidateBlock c d (System.withApprover b apprvr) order tries = (c', d', child, outcome))) := by
  obtain ⟨pow, eqPow⟩ : ∃ pow, System.withApprover b apprvr = { b with pow } := by
    cases apprvr with
    | none => exact ⟨b.pow, rfl⟩
    | some apprvr => exact ⟨some apprvr, rfl⟩
  rw [eqPow]
  unfold mineCandidateBlock Block.submittedInputs
  obtain ⟨miners, block⟩ := validateBlock_block d { b with pow }
  generalize validated : validateBlock d { b with pow } = result at block ⊢
  obtain ⟨b₁, checked⟩ := result
  simp only at block
  subst block
  cases checked with
  | error e => exact Or.inl ⟨e, miners, pow, validateBlock_refusal validated, rfl⟩
  | ok parentBlock =>
    obtain ⟨parent, -, valid, -⟩ := validateBlock_ok validated
    right
    obtain ⟨d₁, child, ws, found, eq, hashed, root⟩ := computeHash_hashed log hasState ready miners pow order tries
    refine ⟨parent, d₁, child, ws, valid, hashed, ?_⟩
    simp only [eq]
    cases found with
    | none => exact Or.inl ⟨_, by simp [Err.Refusal], rfl⟩
    | some h =>
      have added := addValidatedBlock_result child (log.steps hashed.persisted.steps) engineReady
        (by rw [hashed.state]; rfl)
      exact Or.inr ⟨root own, _, _, _, added, rfl⟩

end Submit

end TrustNet
