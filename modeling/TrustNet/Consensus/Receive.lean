import TrustNet.Consensus.Dag

/-!
# Receiving a network block

An application that receives a block decodes it, replays its state updates and
submits it. Replaying touches the overlay of the block only. Submitting hashes the
block once, with the nonce and the fields that were received and the state root of
the replay; it is added if that root is the received one.
-/

namespace TrustNet
set_option autoImplicit false

/-- An access of the application to the state of a block. -/
inductive BlockOp where
  | update (key value : Bytes)
  | delete (key : Bytes)
  | lookup (key : Bytes)
  deriving DecidableEq

/-- The call that makes the access to block `i`. -/
def BlockOp.action (i : Nat) : BlockOp → Action
  | .update key value => .update i key value
  | .delete key => .delete i key
  | .lookup key => .lookup i key

/-- A block on its way to a node, with what the application there does with it. -/
structure Delivery where
  spec : BlockSpec
  replay : List BlockOp
  order : List Entry
  tries : Nat

/-- A block without state updates, on its way. -/
def Worked.bare (spec : BlockSpec) : Delivery := ⟨spec, [], [], 1⟩

/-- The block after the access. -/
def BlockOp.apply (d : Disk) (b : Block) : BlockOp → Block
  | .update key value => b.update key value
  | .delete key => b.delete key
  | .lookup key => (b.lookup d key).1

/-- The block after all accesses. -/
def Block.replay (b : Block) (d : Disk) (ops : List BlockOp) : Block := ops.foldl (BlockOp.apply d) b

section Model

variable [Sha512]

/-- The node decodes the block as block `i`, replays it and accepts it. -/
def System.receive (s : System) (i : Nat) (v : Delivery) : System × Option Outcome :=
  match s.step (.decode i v.spec) with
  | (s, some .ok) => (s.run (v.replay.map (BlockOp.action i))).step (.accept i v.order v.tries)
  | (s, o) => (s, o)

/-- `handleGetBlocksResponseMsg`: the blocks of a batch, one after the other, until one fails. A block that
the node has already is no failure. -/
def System.feed (s : System) (i : Nat) : List Delivery → System × Option Outcome
  | [] => (s, some .ok)
  | v :: rest =>
    match s.receive i v with
    | (s, some .ok) => s.feed i rest
    | (s, some (.error (.core .duplicateBlock _))) => s.feed i rest
    | (s, o) => (s, o)

end Model

/-! ## The replay -/

section Replay

/-- An access changes the overlay of the block. -/
theorem BlockOp.apply_eq (d : Disk) (b : Block) (op : BlockOp) : ∃ vars, op.apply d b = { b with vars } := by
  cases op with
  | update key value => exact ⟨_, rfl⟩
  | delete key => exact ⟨_, rfl⟩
  | lookup key => exact lookup_vars b d key

theorem replay_eq (b : Block) (d : Disk) (ops : List BlockOp) : ∃ vars, b.replay d ops = { b with vars } := by
  induction ops generalizing b with
  | nil => exact ⟨b.vars, rfl⟩
  | cons op ops ih =>
    obtain ⟨vars, first⟩ := op.apply_eq d b
    obtain ⟨vars', rest⟩ := ih (op.apply d b)
    refine ⟨vars', ?_⟩
    rw [first] at rest
    rw [Block.replay, List.foldl_cons, first]
    exact rest

variable [Sha512] {s : System} {i : Nat} {c : BlockChainConsensus} {b : Block}

/-- One access. -/
theorem next_op (engine : s.engine = some c) (block : s.blocks i = some b) (isOpen : b.Open) (op : BlockOp) :
    s.next (op.action i) = s.setBlock i (some (op.apply s.db b)) := by
  cases op with
  | update key value =>
    simp only [System.next, BlockOp.action, System.step, System.onBlock, engine, block]
    rfl
  | delete key =>
    simp only [System.next, BlockOp.action, System.step, System.onBlock, engine, block]
    rfl
  | lookup key =>
    have alive := lookup_ne_panic isOpen s.db key
    simp only [System.next, BlockOp.action, System.step, System.onBlock, engine, block, BlockOp.apply]
    generalize b.lookup s.db key = result at alive ⊢
    obtain ⟨b', reply⟩ := result
    cases reply with
    | value v => rfl
    | error e => rfl
    | panic => exact absurd rfl alive

/-- The replay leaves everything but the block. -/
theorem run_replay (engine : s.engine = some c) (block : s.blocks i = some b) (isOpen : b.Open) (ops : List BlockOp) :
    s.run (ops.map (BlockOp.action i)) = s.setBlock i (some (b.replay s.db ops)) := by
  induction ops generalizing s b with
  | nil =>
    change s = _
    rw [System.setBlock, Block.replay, List.foldl_nil, ← block, Function.update_eq_self]
  | cons op ops ih =>
    obtain ⟨vars, eq⟩ := op.apply_eq s.db b
    obtain ⟨ws, state, ready⟩ := isOpen
    have isOpen' : (op.apply s.db b).Open := ⟨ws, by rw [eq]; exact state, ready⟩
    have rest := ih (s := s.setBlock i (some (op.apply s.db b))) (b := op.apply s.db b) engine
      (by simp [System.setBlock]) isOpen'
    change System.run (s.next (op.action i)) _ = _
    rw [next_op engine block ⟨ws, state, ready⟩ op, rest]
    simp [System.setBlock, Block.replay]

end Replay

/-! ## The hash of a network block -/

section Hash

variable [Sha512] {d d₁ : Disk} {b : Block} {ws₀ ws : MptWorldState} {order : List Entry} {tries : Nat}

/-- The hash of a block with the state root `state`. -/
def BlockSpec.hashAt (spec : BlockSpec) (state : Byte64) : Byte64 := sum512 (spec.preimage state ++ uint64Bytes spec.nonce)

/-- The hash that a block has by its own fields. -/
def BlockSpec.digest (spec : BlockSpec) : Byte64 := spec.hashAt spec.state

/-- The decision of the block's approver on a hash. -/
def Block.approves (b : Block) (h : Byte64) : Bool :=
  match b.pow with
  | some approve => approve h.bytes b.ts b.delta
  | none => true

/-- What the one try finds that a network block has. -/
def Block.tryHash (b : Block) (state : Byte64) (tries : Nat) : Option Byte64 :=
  if tries ≠ 0 ∧ b.approves (b.hashAt state) = true then some (b.hashAt state) else none

theorem searchNonce_network (b : Block) (state : Byte64) (tries : Nat) :
    searchNonce (b.preimage state) b.pow b.ts b.delta true tries b.nonce b.nonce = (b.nonce, b.tryHash state tries) := by
  cases tries with
  | zero => simp [searchNonce, Block.tryHash]
  | succ tries =>
    have decision : searchNonce (b.preimage state) b.pow b.ts b.delta true (tries + 1) b.nonce b.nonce =
        if b.approves (b.hashAt state) = true then (b.nonce, some (b.hashAt state)) else (b.nonce, none) := rfl
    rw [decision, Block.tryHash]
    by_cases done : b.approves (b.hashAt state) = true
    · simp [done]
    · simp [done]

/-- `computeHash` of a network block. -/
theorem computeHash_network (network : b.isNetworkBlock = true) (state : b.worldState = some ws₀)
    (persisted : persistState d ws₀ order false = (d₁, ws)) (tries : Nat) :
    b.computeHash d order tries =
      (d₁, { b with worldState := some ws, hash := (b.tryHash ws.rootHash tries).or b.hash },
        b.tryHash ws.rootHash tries) := by
  have search := searchNonce_network b ws.rootHash tries
  simp only [Block.computeHash, Block.commitState, state, persisted, network, if_true, Option.map_some, Option.getD_some]
  rw [search]
  cases b.tryHash ws.rootHash tries with
  | none => rfl
  | some h => rfl

variable {c : BlockChainConsensus}

/-- **How `AcceptNetworkBlock` ends**: the block is invalid, or its state is not the replayed one, or it is
added, with the hash of its fields. -/
theorem acceptNetworkBlock_network (log : TrieLog d) (state : b.worldState = some ws₀) (ready : ws₀.Ready)
    (engineReady : c.state.Ready) (network : b.isNetworkBlock = true) (order : List Entry) (tries : Nat) :
    (∃ b' e, validateBlock d b = (b', .error e) ∧ acceptNetworkBlock c d b order tries = (c, d, b', .error e)) ∨
      ∃ parent miners d₁ ws child, Valid d b.toBlockSpec parent ∧ persistState d ws₀ order false = (d₁, ws) ∧
        Persisted d ws₀ (cleanedRoots d ws₀ order false) d₁ ws ∧
        child = { b with
          uncleMiners := miners, worldState := some ws, hash := (b.tryHash ws.rootHash tries).or b.hash } ∧
        ((ws.rootHash ≠ b.state ∧ acceptNetworkBlock c d b order tries =
            (c, d₁, child, .error (.core .stateIncorrect "incorrect computed state"))) ∨
          (ws.rootHash = b.state ∧ ∃ c' d' outcome, AddResult c d₁ child c' d' outcome ∧
            acceptNetworkBlock c d b order tries = (c', d', child, outcome))) := by
  obtain ⟨miners, block⟩ := validateBlock_block d b
  unfold acceptNetworkBlock
  generalize validated : validateBlock d b = result at block ⊢
  obtain ⟨b₁, checked⟩ := result
  simp only at block
  subst block
  cases checked with
  | error e => exact Or.inl ⟨_, e, rfl, rfl⟩
  | ok parentBlock =>
    right
    obtain ⟨parent, -, valid, -⟩ := validateBlock_ok validated
    have persisted := persistState_spec log ready order false
    generalize result : persistState d ws₀ order false = ends at persisted
    obtain ⟨d₁, ws⟩ := ends
    have hashed := computeHash_network (b := { b with uncleMiners := miners }) network state result tries
    refine ⟨parent, miners, d₁, ws, _, valid, rfl, persisted, rfl, ?_⟩
    simp only [hashed]
    split
    · rename_i ne
      exact Or.inl ⟨ne, rfl⟩
    · rename_i same
      rw [not_not] at same
      exact Or.inr ⟨same, _, _, _, addValidatedBlock_result _ (log.steps persisted.steps) engineReady rfl, rfl⟩

end Hash

/-! ## How it ends -/

section Received

variable [Sha512] {s : System} {i : Nat} {v : Delivery}

/-- The block as it is after decoding. -/
def Delivery.decoded (v : Delivery) (miners : List Bytes) (t : MptWorldState) : Block :=
  { v.spec.toBlock with uncleMiners := miners, worldState := some t }

/-- The block that is submitted: decoded on the state of its parent, replayed, and hashed. -/
structure Submitted (s : System) (v : Delivery) (d : Disk) (t : MptWorldState) (b : Block) (d₁ : Disk) (ws : MptWorldState)
    (child : Block) : Prop where
  decoded : ∃ parent miners, Valid s.db v.spec parent ∧ Rebased (freshDisk s.db) parent.state d t ∧
    b = (v.decoded miners t).replay d v.replay
  order : v.order.Perm b.vars.entries
  result : persistState d t v.order false = (d₁, ws)
  persisted : Persisted d t (cleanedRoots d t v.order false) d₁ ws
  child : ∃ miners, child = { b with uncleMiners := miners, worldState := some ws, hash := b.tryHash ws.rootHash v.tries }

/-- How the delivery of a block ends: nothing could be called; the block is invalid, its parent's state is
missing, or the replay does not give its state; or it was added. Before that there are trie writes only. -/
inductive Received (s : System) (i : Nat) (v : Delivery) : System → Option Outcome → Prop where
  | idle (s' : System) (steps : TrieSteps (fun _ => False) s.db s'.db) : Received s i v s' none
  | invalid (s' : System) (b b' : Block) (e : Err) (steps : TrieSteps (fun _ => False) s.db s'.db)
      (wire : b.toBlockSpec = v.spec) (failed : validateBlock s'.db b = (b', .error e)) :
      Received s i v s' (some (.error e))
  | missing (s' : System) (parent : BlockSpec) (steps : TrieSteps (fun _ => False) s.db s'.db)
      (valid : Valid s.db v.spec parent) (missing : ¬ Available (freshDisk s.db) parent.state) :
      Received s i v s' (some (.error (.core .stateIncorrect "cannot initialize state")))
  | differs (s' : System) (d : Disk) (t ws : MptWorldState) (b child : Block)
      (submitted : Submitted s v d t b s'.db ws child) (differs : ws.rootHash ≠ v.spec.state) :
      Received s i v s' (some (.error (.core .stateIncorrect "incorrect computed state")))
  | added (d d₁ d' : Disk) (t ws : MptWorldState) (b child : Block) (c c' : BlockChainConsensus) (outcome : Outcome)
      (engine : s.engine = some c) (submitted : Submitted s v d t b d₁ ws child) (root : ws.rootHash = v.spec.state)
      (result : AddResult c d₁ child c' d' outcome) :
      Received s i v ((({ s with db := d } : System).setBlock i (some b)).submitted i c' d' child outcome).1 (some outcome)

section Submitted

variable {d d₁ : Disk} {t ws : MptWorldState} {b child : Block} (submitted : Submitted s v d t b d₁ ws child)
include submitted

/-- The block keeps its wire fields. -/
theorem Submitted.wire : child.toBlockSpec = v.spec ∧ child.worldState = some ws := by
  obtain ⟨⟨parent, miners, -, -, eqB⟩, -, -, -, ⟨miners', rfl⟩⟩ := submitted
  obtain ⟨vars, eq⟩ := replay_eq (v.decoded miners t) d v.replay
  rw [eqB, eq]
  exact ⟨rfl, rfl⟩

theorem Submitted.steps : TrieSteps (· ∈ cleanedRoots d t v.order false) s.db d₁ := by
  obtain ⟨⟨parent, miners, -, rebased, -⟩, -, -, persisted, -⟩ := submitted
  exact rebased.fresh_steps.trans persisted.steps

/-- A hash that was found is the hash of the fields with the state of the replay. -/
theorem Submitted.hash {h : Byte64} (hash : child.hash = some h) : h = v.spec.hashAt ws.rootHash := by
  have wire := submitted.wire.1
  obtain ⟨⟨parent, miners, -, -, eqB⟩, -, -, -, ⟨miners', rfl⟩⟩ := submitted
  simp only [Block.tryHash, Option.ite_none_right_eq_some, Option.some.injEq] at hash
  rw [← hash.2, ← wire]

theorem Submitted.putBlock (root : ws.rootHash = v.spec.state) {h : Byte64} (hash : child.hash = some h) :
    (TrustNet.putBlock d₁ child).1 = d₁.write (.block h) (some (.block child.toBlockSpec)) := by
  obtain ⟨wire, state⟩ := submitted.wire
  have same : ws.rootHash = child.state := by rw [wire]; exact root
  exact putBlock_eq (by rw [← same]; exact submitted.persisted.ready.rootHash) state same hash

end Submitted

/-- The call that accepts the replayed block. -/
theorem accept_received {c : BlockChainConsensus} {parent : BlockSpec} {d : Disk} {t : MptWorldState} {miners : List Bytes}
    (ready : SystemReady s) (engine : s.engine = some c) (valid : Valid s.db v.spec parent)
    (rebased : Rebased (freshDisk s.db) parent.state d t) :
    Received s i v
      ((({ s with db := d } : System).setBlock i (some ((v.decoded miners t).replay d v.replay))).step
        (.accept i v.order v.tries)).1
      ((({ s with db := d } : System).setBlock i (some ((v.decoded miners t).replay d v.replay))).step
        (.accept i v.order v.tries)).2 := by
  obtain ⟨vars, eq⟩ := replay_eq (v.decoded miners t) d v.replay
  generalize hand : (v.decoded miners t).replay d v.replay = b at eq
  have wire : b.toBlockSpec = v.spec := by rw [eq]; rfl
  have network : b.isNetworkBlock = true := by rw [eq]; rfl
  have state : b.worldState = some t := by rw [eq]; rfl
  have unhashed : b.hash = none := by rw [eq]; rfl
  have steps : TrieSteps (fun _ => False) s.db d := rebased.fresh_steps
  have log := ready.log.steps steps
  simp only [System.step, System.onBlock, System.setBlock, engine, Function.update_self]
  split
  · rename_i guard
    rcases acceptNetworkBlock_network log state (rebased.ready (ready.specs _ parent valid.stored)) (ready.engine c engine).1 network
        v.order v.tries with
      ⟨b', e, failed, end'⟩ | ⟨parent', miners', d₁, ws, child, -, result, persisted, eqChild, rest⟩
    · rw [end']
      exact .invalid _ b b' e steps wire failed
    · have submitted : Submitted s v d t b d₁ ws child := by
        refine ⟨⟨parent, miners, valid, rebased, hand.symm⟩, guard.2, result, persisted, miners', ?_⟩
        rw [eqChild, unhashed, Option.or_none]
      rcases rest with ⟨differs, end'⟩ | ⟨same, c', d', outcome, result', end'⟩
      · rw [end']
        refine .differs _ d t ws b child submitted ?_
        rw [← wire]
        exact differs
      · rw [end']
        have root : ws.rootHash = v.spec.state := by rw [← wire]; exact same
        have added : Received s i v _ (some outcome) := .added d d₁ d' t ws b child c c' outcome engine submitted root result'
        cases outcome with
        | ok => exact added
        | error e => exact added
        | panic => exact added
  · exact .idle _ steps

/-- **How the delivery of a block ends.** -/
theorem receive_received (ready : SystemReady s) (i : Nat) (v : Delivery) :
    Received s i v (s.receive i v).1 (s.receive i v).2 := by
  unfold System.receive
  cases engine : s.engine with
  | none =>
    simp only [System.step, engine]
    exact .idle s (WriteLog.WritesOnly.refl s.db)
  | some c =>
    have steps : TrieSteps (fun _ => False) s.db s.db := WriteLog.WritesOnly.refl s.db
    rcases decodeNetworkBlockSpec_cases ready.log v.spec with
      ⟨b', e, failed, eq⟩ | ⟨parent, eq, valid, missing⟩ | ⟨parent, d, t, miners, valid, rebased, eq⟩
    · simp only [System.step, engine, eq]
      exact .invalid _ v.spec.toBlock b' e steps rfl failed
    · simp only [System.step, engine, eq]
      exact .missing _ parent (freshDisk_steps s.db) valid missing
    · have decode : s.step (.decode i v.spec) =
          (({ s with db := d } : System).setBlock i (some (v.decoded miners t)), some .ok) := by
        simp only [System.step, engine, eq]
        rfl
      rw [decode]
      have isOpen : (v.decoded miners t).Open := ⟨t, rfl, rebased.ready (ready.specs _ parent valid.stored)⟩
      have run := run_replay (s := ({ s with db := d } : System).setBlock i (some (v.decoded miners t))) (i := i)
        engine (by simp [System.setBlock]) isOpen v.replay
      simp only
      change Received s i v ((System.run (({ s with db := d } : System).setBlock i (some (v.decoded miners t))) _).step _).1
        ((System.run (({ s with db := d } : System).setBlock i (some (v.decoded miners t))) _).step _).2
      rw [run]
      have again : (({ s with db := d } : System).setBlock i (some (v.decoded miners t))).setBlock i
          (some ((v.decoded miners t).replay d v.replay)) =
          ({ s with db := d } : System).setBlock i (some ((v.decoded miners t).replay d v.replay)) := by
        simp [System.setBlock]
      change Received s i v (((({ s with db := d } : System).setBlock i (some (v.decoded miners t))).setBlock i
        (some ((v.decoded miners t).replay d v.replay))).step _).1 (((({ s with db := d } : System).setBlock i
        (some (v.decoded miners t))).setBlock i (some ((v.decoded miners t).replay d v.replay))).step _).2
      rw [again]
      exact accept_received ready engine valid rebased

theorem rebaseOk_of_quiet {a : Action} (quiet : a.submits = false) (s : System) : RebaseOk s a := by
  simp [RebaseOk, rebaseFails, quiet]

/-- A run goes on with a delivery, unless the engine cannot rebase to the block. -/
theorem Reached.receive {g : Byte64} (reached : Reached RebaseOk g s) (i : Nat) (v : Delivery)
    (fine : ∀ msg, (s.receive i v).2 ≠ some (.error (.core .notFound msg))) : Reached RebaseOk g (s.receive i v).1 := by
  have one : System.Along RebaseOk s [.decode i v.spec] := ⟨rebaseOk_of_quiet rfl s, trivial⟩
  have decoded : Reached RebaseOk g (s.step (.decode i v.spec)).1 := reached.run one
  unfold System.receive at fine ⊢
  generalize s.step (.decode i v.spec) = result at decoded fine ⊢
  obtain ⟨s₁, o⟩ := result
  have replayed : Reached RebaseOk g (s₁.run (v.replay.map (BlockOp.action i))) := by
    refine decoded.run (Transition.along_of_forall (fun s a member => ?_) s₁)
    obtain ⟨op, -, rfl⟩ := List.mem_map.mp member
    cases op with
    | update key value => exact rebaseOk_of_quiet rfl s
    | delete key => exact rebaseOk_of_quiet rfl s
    | lookup key => exact rebaseOk_of_quiet rfl s
  split at fine
  · rename_i s₂ eq
    cases eq
    have accept : RebaseOk (s₁.run (v.replay.map (BlockOp.action i))) (.accept i v.order v.tries) := by
      unfold RebaseOk rebaseFails
      split
      · rename_i msg eq
        exact absurd eq (fine msg)
      · rfl
    have last : System.Along RebaseOk (s₁.run (v.replay.map (BlockOp.action i))) [.accept i v.order v.tries] :=
      ⟨accept, trivial⟩
    exact replayed.run last
  · rename_i s₂ o' other eq
    cases eq
    exact decoded

end Received

end TrustNet
