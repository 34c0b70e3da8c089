import TrustNet.Consensus.Availability
import TrustNet.Consensus.Fill
import TrustNet.Consensus.Mining
import TrustNet.Consensus.Peers

/-!
# Mine, send, accept

A node makes a candidate, fills it and mines it. Another node that has the parent and
the uncles decodes the block, replays the accesses to its state, checks the proof of
work and accepts it. Both start from the state of the parent and record the same
accesses, so they come to the same root, and with it to the same hash.
-/

namespace TrustNet
set_option autoImplicit false

/-! ## The mined block -/

section Mined

variable [Sha512] {c c' : BlockChainConsensus} {d d' : Disk} {b child : Block} {ws₀ : MptWorldState} {order : List Entry}
  {tries : Nat}

/-- A block that was mined has the hash of its own fields, and the approver said so. -/
theorem mineCandidateBlock_hash (log : TrieLog d) (state : b.worldState = some ws₀) (ready : ws₀.Ready)
    (mined : mineCandidateBlock c d b order tries = (c', d', child, .ok)) :
    child.hash = some child.spec.digest ∧
      ∀ approve, b.pow = some approve → approve child.spec.digest.bytes child.ts child.delta = true := by
  obtain ⟨miners, block⟩ := validateBlock_block d b
  unfold mineCandidateBlock at mined
  generalize validateBlock d b = result at block mined
  obtain ⟨b₁, checked⟩ := result
  simp only at block
  subst block
  cases checked with
  | error e => simp at mined
  | ok parent =>
    obtain ⟨ws, nonce, hash, -, -, eqHash, eqBlock, digest⟩ :=
      computeHash_spec (b := { b with uncleMiners := miners }) log state ready order tries
    simp only at mined
    generalize ({ b with uncleMiners := miners } : Block).computeHash d order tries = ends at eqHash eqBlock mined
    obtain ⟨d₁, child', found⟩ := ends
    simp only at eqHash eqBlock mined
    subst eqHash
    cases found with
    | none => simp at mined
    | some h =>
      simp only [Prod.mk.injEq] at mined
      obtain ⟨-, -, rfl, -⟩ := mined
      obtain ⟨eq, approved⟩ := digest h rfl
      have same : child'.spec.digest = h := by
        rw [eq, eqBlock]
        rfl
      rw [same]
      rw [eqBlock]
      exact ⟨rfl, approved⟩

theorem mined_hash {s : System} {i : Nat} {apprvr : PowApprover} (ready : SystemReady s)
    (mined : s.mined i (some apprvr) order tries = some child) :
    child.hash = some child.spec.digest ∧ apprvr child.spec.digest.bytes child.ts child.delta = true := by
  unfold System.mined at mined
  split at mined
  · rename_i c b engine block
    split at mined
    · obtain ⟨ws₀, state, ok⟩ := ready.blocks i b block
      split at mined
      · rename_i c' d' child' result
        cases mined
        obtain ⟨hash, approved⟩ :=
          mineCandidateBlock_hash (b := System.withApprover b (some apprvr)) ready.log state ok result
        exact ⟨hash, approved apprvr rfl⟩
      · cases mined
    · cases mined
  · cases mined

end Mined

/-! ## The node that receives it -/

/-- The block was stored, or the node had it or one of its transactions. -/
def Taken (o : Option Outcome) : Prop :=
  o = some .ok ∨ o = some (.error (.core .duplicateBlock "duplicate block")) ∨
    o = some (.error (.core .duplicateTx "duplicate transaction"))

/-- The node has the block in hand, decoded from `spec` and on the world state `t`. -/
structure Decoded (s : System) (j : Nat) (spec : BlockSpec) (t : MptWorldState) (b : Block) : Prop where
  block : s.blocks j = some b
  network : b.isNetworkBlock = true
  wire : b.toBlockSpec = spec
  state : b.worldState = some t

section Receiver

variable [Sha512]

/-- The node decodes the block as block `j` and replays the accesses. -/
def System.replayed (s : System) (j : Nat) (spec : BlockSpec) (ops : List BlockOp) : System :=
  (s.next (.decode j spec)).run (ops.map (BlockOp.action j))

/-- It then checks the proof of work. -/
def System.checked (s : System) (j : Nat) (spec : BlockSpec) (ops : List BlockOp) (p : PowApprover) (order : List Entry)
    (tries : Nat) : System :=
  (s.replayed j spec ops).next (.checkPoW j p order tries)

variable {s : System} {j : Nat} {c c' : BlockChainConsensus} {b : Block} {spec parent : BlockSpec} {d d' d₁ : Disk}
  {t ws : MptWorldState} {T : Contents} {g h m : Byte64} {order : List Entry} {tries : Nat} {child : Block}
  {outcome : Outcome} {ops : List BlockOp} {p : PowApprover}

/-- A valid block is decoded, if a world state can be rebased to the state of its parent. -/
theorem decode_decoded (ready : SystemReady s) (engine : s.engine = some c) (valid : Valid s.db spec parent)
    (rebases : canRebase s.db parent.state = true) (j : Nat) :
    ∃ t b, Rebased (freshDisk s.db) parent.state (s.next (.decode j spec)).db t ∧
      (s.step (.decode j spec)).2 = some .ok ∧ (s.next (.decode j spec)).engine = some c ∧
      Decoded (s.next (.decode j spec)) j spec t b ∧ b.vars = ∅ := by
  rcases decodeNetworkBlockSpec_cases ready.log spec with
    ⟨b', e, failed, -⟩ | ⟨parent', -, valid', missing⟩ | ⟨parent', d, t, miners, valid', rebased, eq⟩
  · obtain ⟨miners, validated⟩ := validateBlock_of_valid (b := spec.toBlock) valid
    rw [failed] at validated
    cases validated
  · have same := valid'.stored
    rw [valid.stored, Option.some.injEq] at same
    subst same
    exact absurd rebases (not_canRebase ready.log missing)
  · have same := valid'.stored
    rw [valid.stored, Option.some.injEq] at same
    subst same
    have step : s.step (.decode j spec) = (({ s with db := d } : System).setBlock j (some
        { spec.toBlock with uncleMiners := miners, worldState := some t }), some .ok) := by
      simp only [System.step, engine, eq]
    unfold System.next
    rw [step]
    refine ⟨t, { spec.toBlock with uncleMiners := miners, worldState := some t }, rebased, rfl, engine,
      ⟨?_, rfl, rfl, rfl⟩, rfl⟩
    simp [System.setBlock]

/-- The replay records the accesses in the overlay. -/
theorem Decoded.replayed (ready : SystemReady s) (engine : s.engine = some c) (hand : Decoded s j spec t b)
    (working : Working s.db t T) (sound : HashSound (Known s.db)) (fresh : b.vars = ∅) (ops : List BlockOp) :
    (s.run (ops.map (BlockOp.action j))).db = s.db ∧ (s.run (ops.map (BlockOp.action j))).engine = some c ∧
      ∃ b', Decoded (s.run (ops.map (BlockOp.action j))) j spec t b' ∧ b'.vars = overlay (versionOf T) ops := by
  obtain ⟨block, network, wire, state⟩ := hand
  have recorded := replay_vars working sound state ops
  obtain ⟨vars, eq⟩ := replay_eq b s.db ops
  rw [run_replay engine block (ready.blocks j b block) ops]
  refine ⟨rfl, engine, b.replay s.db ops, ⟨by simp [System.setBlock], ?_, ?_, ?_⟩, ?_⟩
  · rw [eq]
    exact network
  · rw [eq]
    exact wire
  · rw [eq]
    exact state
  · rw [recorded, fresh]
    rfl

/-- The check of a block hashes it once. -/
theorem checkPoW_eq (engine : s.engine = some c) (hand : Decoded s j spec t b) (perm : order.Perm b.vars.entries)
    (persisted : persistState s.db t order false = (d₁, ws)) (p : PowApprover) (tries : Nat) :
    s.step (.checkPoW j p order tries) = (({ s with db := d₁ } : System).setBlock j (some
      { b with
        pow := some p, worldState := some ws,
        hash := (({ b with pow := some p } : Block).tryHash ws.rootHash tries).or b.hash }),
      some (if (({ b with pow := some p } : Block).tryHash ws.rootHash tries).isSome then .ok
        else .error (.core .blockUnhashed "hash computation failed"))) := by
  obtain ⟨block, network, -, state⟩ := hand
  have hashed := computeHash_network (b := { b with pow := some p }) network state persisted tries
  generalize ({ b with pow := some p } : Block).tryHash ws.rootHash tries = found at hashed ⊢
  have checked : checkNetworkBlockPoW s.db b p order tries = (d₁,
      { b with pow := some p, worldState := some ws, hash := found.or b.hash },
      if found.isSome then .ok else .error (.core .blockUnhashed "hash computation failed")) := by
    unfold checkNetworkBlockPoW
    rw [if_neg (by simp [network]), hashed]
    cases found with
    | none => rfl
    | some h => rfl
  simp only [System.step, System.onBlock, engine, block, if_pos perm, checked]
  rw [← engine]
  cases found with
  | none => rfl
  | some h => rfl

/-- A check on the state that the block names succeeds, and finds the hash of its fields. -/
theorem Decoded.checked (engine : s.engine = some c) (hand : Decoded s j spec t b) (working : Working s.db t T)
    (perm : order.Perm b.vars.entries) (sound : HashSound (Known (s.next (.checkPoW j p order tries)).db))
    (root : ∀ d ws, Working d ws (T.edits [] (batch order)) → ws.rootHash = spec.state) (once : tries ≠ 0)
    (approved : p spec.digest.bytes spec.ts spec.delta = true) :
    (s.step (.checkPoW j p order tries)).2 = some .ok ∧ (s.next (.checkPoW j p order tries)).engine = some c ∧
      ∃ ws b', Persisted s.db t (cleanedRoots s.db t order false) (s.next (.checkPoW j p order tries)).db ws ∧
        Decoded (s.next (.checkPoW j p order tries)) j spec ws b' ∧ b'.hash = some spec.digest ∧ b'.vars = b.vars ∧
        Working (s.next (.checkPoW j p order tries)).db ws (T.edits [] (batch order)) := by
  have persisted := persistState_spec working.log working.ready order false
  generalize result : persistState s.db t order false = ends at persisted
  obtain ⟨d₁, ws⟩ := ends
  have step := checkPoW_eq engine hand perm result p tries
  obtain ⟨block, network, wire, state⟩ := hand
  unfold System.next at sound ⊢
  rw [step] at sound ⊢
  have after := working.persistState result sound
  have found : ({ b with pow := some p } : Block).tryHash ws.rootHash tries = some spec.digest := by
    subst wire
    rw [root d₁ ws after]
    exact if_pos ⟨once, approved⟩
  rw [found]
  refine ⟨rfl, engine, ws, { b with pow := some p, worldState := some ws, hash := some spec.digest }, persisted,
    ⟨?_, network, wire, rfl⟩, rfl, rfl, after⟩
  simp [System.setBlock]

/-- A block that was hashed on the state it names is stored, or it is a duplicate. -/
theorem AddResult.taken (result : AddResult c d child c' d' outcome) (inv : Canonical d g m) (hash : child.hash.isSome)
    (parent : (getSpec d child.phash).isSome) (available : Available d child.state) : Taken (some outcome) := by
  obtain ⟨h, hash⟩ := Option.isSome_iff_exists.mp hash
  rcases result.ends inv hash parent (result.rebase_ok available) with rfl | ⟨rfl, -⟩ | ⟨rfl, -⟩
  · exact Or.inl rfl
  · exact Or.inr (Or.inl rfl)
  · exact Or.inr (Or.inr rfl)

/-- `AcceptNetworkBlock` of a block that was checked. -/
theorem Decoded.taken (ready : SystemReady s) (engine : s.engine = some c) (hand : Decoded s j spec t b)
    (hash : b.hash.isSome) (perm : order.Perm b.vars.entries) (valid : Valid s.db spec parent)
    (inv : Canonical s.db g m) (available : Available s.db t.rootHash)
    (root : ∀ d₁ ws, persistState s.db t order false = (d₁, ws) → HashSound (Known d₁) → ws.rootHash = spec.state)
    (sound : HashSound (Known (s.next (.accept j order tries)).db)) : Taken (s.step (.accept j order tries)).2 := by
  obtain ⟨block, network, rfl, state⟩ := hand
  have step : ∀ {c' d' b' outcome}, acceptNetworkBlock c s.db b order tries = (c', d', b', outcome) →
      s.step (.accept j order tries) = s.submitted j c' d' b' outcome := by
    intro c' d' b' outcome accepts
    simp only [System.step, System.onBlock, engine, block, if_pos (And.intro network perm), accepts]
  obtain ⟨ws₀, state', ok⟩ := ready.blocks j b block
  rw [state, Option.some.injEq] at state'
  subst state'
  unfold System.next at sound
  rcases acceptNetworkBlock_network ready.log state ok (ready.engine c engine).1 network order tries with
    ⟨b', e, failed, eq⟩ | ⟨-, miners, d₁, ws, child, -, result, persisted, eqChild, rest⟩
  · obtain ⟨miners, validated⟩ := validateBlock_of_valid valid
    rw [failed] at validated
    cases validated
  · rcases rest with ⟨differs, eq⟩ | ⟨same, c', d', outcome, added, eq⟩
    · rw [step eq] at sound
      simp only [submitted_db] at sound
      exact absurd (root d₁ ws result sound) differs
    · rw [step eq]
      have records := SameRecords.of_steps persisted.steps
      have wire : child.toBlockSpec = b.toBlockSpec := by
        rw [eqChild]
      have taken : Taken (some outcome) := by
        refine added.taken (inv.of_records records persisted.steps.length_le) ?_ ?_ ?_
        · rw [eqChild]
          cases b.tryHash ws.rootHash tries with
          | none => exact hash
          | some h => rfl
        · rw [records.spec, wire, valid.stored]
          rfl
        · rw [wire, ← same]
          exact persisted.available available
      cases outcome with
      | ok => exact taken
      | error e => exact taken
      | panic => exact taken

end Receiver

/-! ## From one node to another -/

section Relay

variable [Sha512] {X : Set Bytes} {g g' : Byte64} {s r : System} {i j : Nat} {now : UInt64} {calls : List Action}
  {c : BlockChainConsensus} {p : PowApprover} {order order₁ order₂ : List Entry} {tries tries₁ tries₂ : Nat} {child : Block}
  {ops : List BlockOp}

/-- Nodes that have a block in common have the same genesis. -/
theorem Peer.genesis_eq {d d' : Disk} {h : Byte64} (free : Set.InjOn sum512 X) (first : Peer X g d) (second : Peer X g' d')
    (data : HashedUnder X genesisParent g) (data' : HashedUnder X genesisParent g') (common : Common d d' h) : g = g' := by
  -- a genesis block is stored by the other node as its genesis only: its parent is nowhere
  have root : ∀ {d g a spec}, Peer X g d → getSpec d a = some spec → a ≠ g → ¬ HashedUnder X genesisParent a := by
    intro d g a spec peer found ne under
    obtain ⟨-, spec', found', parent, stored⟩ := peer.spec_of_edge (peer.edge_of_spec found ne)
    rw [(peer.origin a spec found ne).unique free under, peer.rootless] at stored
    cases stored
  obtain ⟨m, canonical⟩ := first.canonical
  have up := canonical.chain.tree.anc_genesis (by rw [canonical.stored_iff]; exact common.1)
  induction up using Relation.ReflTransGen.head_induction_on with
  | refl =>
    by_contra ne
    obtain ⟨spec, found⟩ := Option.isSome_iff_exists.mp common.2
    exact root second found ne data
  | @head a b edge _ ih =>
    apply ih
    obtain ⟨ne, spec, found, rfl, stored⟩ := first.spec_of_edge edge
    obtain ⟨spec', found'⟩ := Option.isSome_iff_exists.mp common.2
    have ne' : a ≠ g' := by
      rintro rfl
      exact root first found ne data'
    obtain ⟨-, spec₁, found₁, parent, stored'⟩ := second.spec_of_edge (second.edge_of_spec found' ne')
    rw [(first.origin a spec found ne).unique free (second.origin a spec' found' ne')]
    exact ⟨by rw [← (first.origin a spec found ne).unique free (second.origin a spec' found' ne')]; exact stored, stored'⟩

/-- A candidate was made as block `i`; the accesses to its state since then are `ops`. -/
def Prepared (P : System → Action → Prop) (g : Byte64) (i : Nat) (ops : List BlockOp) (s : System) : Prop :=
  ∃ s₀ now calls, Reached P g s₀ ∧ s₀.engine.isSome ∧ System.Along P (s₀.next (.candidate i now)) calls ∧
    (∀ a ∈ calls, a.Fills i) ∧ calls.filterMap (Action.op i) = ops ∧ (s₀.next (.candidate i now)).run calls = s

/-- The other node takes the block: it decodes and replays it, the check succeeds on the first hash and comes to the
state that was sent and to the hash of the block, and the block is accepted unless it is a duplicate. -/
structure Relayed (r : System) (j : Nat) (ops : List BlockOp) (p : PowApprover) (order₁ order₂ : List Entry)
    (tries₁ tries₂ : Nat) (child : Block) : Prop where
  decoded : (r.step (.decode j child.spec)).2 = some .ok
  checked : ((r.replayed j child.spec ops).step (.checkPoW j p order₁ tries₁)).2 = some .ok
  same : ∃ hand ws, (r.checked j child.spec ops p order₁ tries₁).blocks j = some hand ∧ hand.worldState = some ws ∧
    ws.rootHash = child.spec.state ∧ hand.hash = child.hash
  taken : Taken ((r.checked j child.spec ops p order₁ tries₁).step (.accept j order₂ tries₂)).2

end Relay

/-! ## A miner whose world state stays behind its tip -/

namespace Worked

attribute [local instance] workedSha512

/-- `smallChild` is accepted twice after its state was cleaned up. The first call moves the tip and fails in `Rebase`;
the second stores the block, which does not beat itself. -/
def lag : List Action :=
  deliver left ++ deliverSmall ++ .decode 0 smallChild :: checkLarge ++ [.accept 0 [] 1, .accept 0 [] 1]

/-- The same blocks, delivered one after the other. -/
def caughtUp : List Action := deliver left ++ deliverSmall ++ deliver smallChild

/-- The candidate on `smallChild` is mined on the state of `left`. A node that has the blocks comes to another state
and to another hash, and turns the block down. -/
theorem lagging_miner_rejected :
    let s := ((System.boot 1 1 [7]).run lag).next (.candidate 2 1)
    let r := (System.boot 1 1 [8]).run caughtUp
    Prepared (fun _ _ => True) (genesisHash 1 1) 2 [] s ∧ Reached RebaseOk (genesisHash 1 1) r ∧
      ∃ child, s.mined 2 (some approve) [] 1 = some child ∧
        (∀ h ∈ child.phash :: child.uncles, (getSpec r.db h).isSome ∧ getSpec r.db h = getSpec s.db h) ∧
        (∀ parent ∈ getSpec r.db child.phash, canRebase r.db parent.state = true) ∧
        (r.step (.decode 1 child.spec)).2 = some .ok ∧
        ((r.checked 1 child.spec [] approve [] 1).blocks 1).map (·.hash) ≠ some child.hash ∧
        ((r.checked 1 child.spec [] approve [] 1).step (.accept 1 [] 1)).2 =
          some (.error (.core .stateIncorrect "incorrect computed state")) := by
  intro s r
  have run : (System.boot 1 1 [8]).engine.isSome ∧ System.Along RebaseOk (System.boot 1 1 [8]) caughtUp ∧
      ((System.boot 1 1 [7]).run lag).engine.isSome ∧ (s.mined 2 (some approve) [] 1).any fun child : Block => decide (
        (∀ h ∈ child.phash :: child.uncles, (getSpec r.db h).isSome ∧ getSpec r.db h = getSpec s.db h) ∧
        (∀ parent ∈ getSpec r.db child.phash, canRebase r.db parent.state = true) ∧
        (r.step (.decode 1 child.spec)).2 = some .ok ∧
        ((r.checked 1 child.spec [] approve [] 1).blocks 1).map (·.hash) ≠ some child.hash ∧
        ((r.checked 1 child.spec [] approve [] 1).step (.accept 1 [] 1)).2 =
          some (.error (.core .stateIncorrect "incorrect computed state"))) := by decide +kernel
  obtain ⟨startedR, fine, running, rest⟩ := run
  obtain ⟨child, mined, rest⟩ := (Option.any_eq_true _ _).mp rest
  exact ⟨⟨_, 1, [], reached_always lag, running, trivial, by simp, rfl, Transition.run_nil _ _⟩,
    ⟨1, 1, [8], caughtUp, startedR, rfl, fine, rfl⟩, child, mined, of_decide_eq_true rest⟩

end Worked

section Relay

variable [Sha512] {X : Set Bytes} {g g' : Byte64} {s r : System} {i j : Nat} {now : UInt64} {p : PowApprover}
  {order order₁ order₂ : List Entry} {tries tries₁ tries₂ : Nat} {child : Block} {ops : List BlockOp}

theorem Prepared.reached (prepared : Prepared (Hashing X) g i ops s) : Reached (Hashing X) g s := by
  obtain ⟨s₀, now, calls, reached, -, along, -, -, rfl⟩ := prepared
  have first : System.Along (Hashing X) s₀ [.candidate i now] :=
    ⟨⟨rebaseOk_of_quiet rfl s₀, by simp [HashesIn, hashedBy]⟩, trivial⟩
  exact (reached.run first).run along

/-- A candidate is made on the state of the tip. -/
theorem candidate_filled {b : Block} (reached : Reached (Hashing X) g s) (engine : s.engine.isSome)
    (block : (s.next (.candidate i now)).blocks i = some b) :
    ∃ t tip, t.Ready ∧ b.worldState = some t ∧ getSpec s.db b.phash = some tip ∧ t.rootHash = tip.state ∧
      Filled b.phash t ∅ b ∧ (s.next (.candidate i now)).engine.isSome := by
  obtain ⟨c, engine⟩ := Option.isSome_iff_exists.mp engine
  obtain ⟨m, -, synced⟩ := reached.rebaseOk.onTip
  have synced := synced c engine
  simp only [System.next, System.step, engine] at block ⊢
  rcases newCandidateBlock_cases reached.ready.log c now synced.hash with ⟨-, eq⟩ | ⟨d, t, miners, rebased, eq⟩
  · rw [eq] at block
    simp [System.setBlock] at block
  · rw [eq] at block ⊢
    simp only [System.setBlock, Function.update_self, Option.some.injEq] at block
    subst block
    refine ⟨t, c.tip.toBlockSpec, rebased.ready (reached.ready.engine c engine).1.rootHash, rfl, synced.spec, ?_,
      ⟨rfl, rfl, rfl, rfl⟩, rfl⟩
    rw [rebased.rootHash]
    exact synced.root

/-- What the miner worked on: the state of the parent, and then the state that it sends. -/
theorem Prepared.working (prepared : Prepared (Hashing X) g i ops s)
    (mined : s.mined i (some p) order tries = some child)
    (sound : HashSound (Known (s.next (.mine i (some p) order tries)).db)) :
    ∃ parent t T d₁ ws, Valid s.db child.spec parent ∧ t.rootHash = parent.state ∧ Working s.db t T ∧
      order.Perm (overlay (versionOf T) ops).entries ∧ Working d₁ ws (T.edits [] (batch order)) ∧
      ws.rootHash = child.spec.state := by
  have reachedS := prepared.reached
  have soundS := sound.of_suffix (step_result reachedS.ready _).grows
  obtain ⟨s₀, now, calls, reached, running, along, fills, rfl, eqS⟩ := prepared
  have first : System.Along (Hashing X) s₀ [.candidate i now] :=
    ⟨⟨rebaseOk_of_quiet rfl s₀, by simp [HashesIn, hashedBy]⟩, trivial⟩
  have reached₁ : Reached (Hashing X) g (s₀.next (.candidate i now)) := reached.run first
  obtain ⟨c, b, engine, block, perm⟩ : ∃ c b, s.engine = some c ∧ s.blocks i = some b ∧ order.Perm b.vars.entries := by
    unfold System.mined at mined
    split at mined
    · rename_i c b engine block
      split at mined
      · rename_i guard
        exact ⟨c, b, engine, block, guard.2⟩
      · cases mined
    · cases mined
  -- The block in hand is the candidate, filled.
  rw [← eqS] at block soundS
  obtain ⟨b₀, block₀⟩ := Option.isSome_iff_exists.mp (present_run reached₁.ready fills block)
  obtain ⟨t, tip, readyT, state₀, storedTip, rootT, filled₀, running₁⟩ := candidate_filled reached running block₀
  have grows := run_grows reached₁.ready calls
  obtain ⟨T, holds⟩ := (reached₁.contents (soundS.of_suffix grows)).blocks i b₀ t block₀ state₀
  have before : ∀ b', (s₀.next (.candidate i now)).blocks i = some b' →
      (s₀.next (.candidate i now)).engine.isSome ∧ Filled b₀.phash t ∅ b' := by
    intro b' found
    rw [block₀, Option.some.injEq] at found
    subst found
    exact ⟨running₁, filled₀⟩
  have filled := filled_run reached₁ along fills soundS readyT holds before block
  have whole := (reachedS.contents (eqS ▸ soundS)).whole
  rw [eqS] at block soundS grows
  have working : Working s.db t T := ⟨reachedS.ready.log, whole, readyT, holds.of_suffix grows⟩
  -- It is mined on the state of its parent.
  obtain ⟨-, parent, inputs, d₁, ws₀, ws, c', d', valid, state, hashed, root, result, next⟩ :=
    mined_added reachedS.ready engine block mined
  rw [filled.state, Option.some.injEq] at state
  subst state
  have soundD : HashSound (Known d₁) := by
    rw [next, submitted_db] at sound
    exact sound.of_suffix result.writes.suffix
  have kept : getSpec s.db b₀.phash = some tip := by
    have fine : System.Along RebaseOk s₀ (.candidate i now :: calls) := ⟨rebaseOk_of_quiet rfl s₀, along.mono fun _ _ step => step.1⟩
    rw [← eqS]
    exact reached.rebaseOk.specsKept fine _ _ storedTip
  have sameTip : tip = parent := by
    have stored := valid.stored
    rw [filled.parent, kept] at stored
    exact Option.some.inj stored
  have validC : Valid s.db child.spec parent := by
    obtain ⟨state, nonce, wire⟩ := hashed.workedOn.wire
    unfold Block.spec
    rw [wire]
    exact ⟨valid.stored, valid.depth, valid.uncles, valid.weight⟩
  have sent : ws.rootHash = child.spec.state := by
    unfold Block.spec
    rw [hashed.state]
    rfl
  rw [filled.vars] at perm
  exact ⟨parent, t, T, d₁, ws, validC, sameTip ▸ rootT, working, perm, working.persistState hashed.result soundD, sent⟩

/-- **Mine, send, accept.** A node makes a candidate, fills it while other calls go on, and mines it. Another node, which
stores the parent and the uncles and can rebase to the state of the parent, takes the block. -/
theorem mined_block_relayed (sound : Sound512 X g) (data : HashedUnder X genesisParent g)
    (data' : HashedUnder X genesisParent g') (prepared : Prepared (Hashing X) g i ops s)
    (mined : s.mined i (some p) order tries = some child) (reached : Reached (Hashing X) g' r) (running : r.engine.isSome)
    (stored : ∀ h ∈ child.phash :: child.uncles, getSpec r.db h = getSpec s.db h)
    (rebases : ∀ parent, getSpec r.db child.phash = some parent → canRebase r.db parent.state = true) (once : tries₁ ≠ 0)
    (visits : ∀ hand, (r.replayed j child.spec ops).blocks j = some hand →
      order₁.Perm hand.vars.entries ∧ order₂.Perm hand.vars.entries)
    (trie : HashSound fun n => Known (s.next (.mine i (some p) order tries)).db n ∨
      Known ((r.checked j child.spec ops p order₁ tries₁).next (.accept j order₂ tries₂)).db n) :
    Relayed r j ops p order₁ order₂ tries₁ tries₂ child := by
  have soundS : HashSound (Known (s.next (.mine i (some p) order tries)).db) := trie.mono fun _ => Or.inl
  have soundR : HashSound (Known ((r.checked j child.spec ops p order₁ tries₁).next (.accept j order₂ tries₂)).db) :=
    trie.mono fun _ => Or.inr
  obtain ⟨parent, t, T, dS, wsS, valid, rootT, working, permS, workingS, sent⟩ := prepared.working mined soundS
  obtain ⟨hash, approved⟩ := mined_hash prepared.reached.ready mined
  -- The block is valid for the other node too.
  have sound' : Sound512 X g' := ⟨sound.free, sound.proper, data'.ne_null sound⟩
  have peer := prepared.reached.peer sound
  have peer' := reached.peer sound'
  have common : Common s.db r.db child.phash := by
    have here : (getSpec s.db child.phash).isSome := by
      rw [show getSpec s.db child.phash = some parent from valid.stored]
      rfl
    exact ⟨here, by rw [stored _ List.mem_cons_self]; exact here⟩
  have genesis := peer.genesis_eq sound.free peer' data data' common
  subst genesis
  have validR := peer.valid sound peer' valid stored
  have readyR := reached.ready
  obtain ⟨c, engine⟩ := Option.isSome_iff_exists.mp running
  -- Its database only grows.
  have ready₁ : SystemReady (r.next (.decode j child.spec)) := systemReady_next readyR _
  have every : System.Along (fun _ _ => True) r (.decode j child.spec :: ops.map (BlockOp.action j)) :=
    Transition.along_true _ _
  have anyRun : Reached (fun _ _ => True) g r := reached.mono fun _ _ _ => trivial
  have ready₂ : SystemReady (r.replayed j child.spec ops) := (anyRun.run every).ready
  have ready₃ : SystemReady (r.checked j child.spec ops p order₁ tries₁) := systemReady_next ready₂ _
  have grows₂ := (step_result ready₂ (.checkPoW j p order₁ tries₁)).grows
  have grows₃ := (step_result ready₃ (.accept j order₂ tries₂)).grows
  have sound₃ := soundR.of_suffix grows₃
  have sound₂ := sound₃.of_suffix grows₂
  have sound₁ := sound₂.of_suffix (run_grows ready₁ (ops.map (BlockOp.action j)))
  have whole := (reached.contents (sound₁.of_suffix (step_result readyR _).grows)).whole
  -- Both nodes work on the same contents.
  obtain ⟨t', b₁, rebased, decoded, engine₁, hand₁, fresh⟩ :=
    decode_decoded readyR engine validR (rebases parent validR.stored) j
  obtain ⟨T', working₁⟩ := rebased.working readyR.log whole (readyR.specs _ parent validR.stored)
  obtain ⟨db₂, engine₂, b₂, hand₂, vars₂⟩ := hand₁.replayed ready₁ engine₁ working₁ sound₁ fresh ops
  have both : HashSound fun n => Known s.db n ∨ Known (r.next (.decode j child.spec)).db n := by
    refine trie.mono fun n => Or.imp (Known.mono (step_result prepared.reached.ready _).grows n) fun known => ?_
    rw [← db₂] at known
    exact (known.mono grows₂ n).mono grows₃ n
  have contents : T = T' := working.contents_eq both working₁ (by rw [rootT, rebased.rootHash])
  subst contents
  have working₂ : Working (r.replayed j child.spec ops).db t' T := by
    rw [System.replayed, db₂]
    exact working₁
  obtain ⟨perm₁, perm₂⟩ := visits b₂ hand₂.block
  have root : ∀ d ws, Working d ws (T.edits [] (batch order₁)) → ws.rootHash = child.spec.state := by
    intro d ws after
    rw [vars₂] at perm₁
    rw [← sent]
    exact after.root_eq perm₁ permS workingS
  obtain ⟨checked, engine₃, ws, b₃, persisted, hand₃, hash₃, vars₃, working₃⟩ :=
    hand₂.checked engine₂ working₂ perm₁ sound₃ root once approved
  refine ⟨decoded, checked, ⟨b₃, ws, hand₃.block, hand₃.state, root _ ws working₃, hash₃.trans hash.symm⟩, ?_⟩
  -- The trie writes left the records.
  have steps₁ : TrieSteps (fun _ => False) r.db (r.next (.decode j child.spec)).db := rebased.fresh_steps
  have records : SameRecords r.db (r.checked j child.spec ops p order₁ tries₁).db := by
    refine (SameRecords.of_steps steps₁).trans ?_
    rw [← db₂]
    exact SameRecords.of_steps persisted.steps
  have length : r.db.log.length ≤ (r.checked j child.spec ops p order₁ tries₁).db.log.length := by
    refine steps₁.length_le.trans ?_
    rw [← db₂]
    exact persisted.steps.length_le
  have peer₃ := peer'.of_records records length
  have valid₃ := peer.valid sound peer₃ valid fun h member => (records.spec h).trans (stored h member)
  have available₃ : Available (r.checked j child.spec ops p order₁ tries₁).db ws.rootHash := by
    apply persisted.available
    rw [db₂]
    exact rebased.available_after readyR.log.freshDisk
  obtain ⟨m, canonical⟩ := peer₃.canonical
  refine hand₃.taken ready₃ engine₃ (by rw [hash₃]; rfl) (by rw [vars₃]; exact perm₂) valid₃ canonical available₃ ?_ soundR
  intro d₂ ws₂ result sound₄
  have again := working₃.persistState_again perm₁ perm₂ result sound₄
  exact root d₂ ws₂ again

end Relay

section Worked

attribute [local instance] workedSha512

/-- The data of the genesis block. -/
def Worked.genesisData : Bytes :=
  (genesisBlock 1 1 (some freshState)).preimage emptyNode.hash ++ uint64Bytes 0

theorem Worked.genesisData_sound : Sound512 {Worked.genesisData} (genesisHash 1 1) ∧
    HashedUnder {Worked.genesisData} genesisParent (genesisHash 1 1) := by
  have check : genesisHash 1 1 ≠ genesisParent ∧ Worked.genesisData.take 64 = genesisParent.bytes := by decide +kernel
  refine ⟨⟨Set.injOn_singleton _ _, ?_, check.1⟩, Worked.genesisData, rfl, rfl, check.2⟩
  rintro data rfl
  exact check.1

/-- A candidate is filled while the engine hands out its best block. -/
def Worked.filling : List Action :=
  [.update 1 [97] [1], .bestBlock, .addTransaction 1 Worked.transfer, .lookup 1 [97]]

/-- The accesses among these calls. -/
def Worked.accesses : List BlockOp := [.update [97] [1], .lookup [97]]

/-- The node with the filled candidate. -/
abbrev Worked.filledNode : System := ((System.boot 1 1 [7]).next (.candidate 1 1)).run Worked.filling

theorem Worked.filledNode_prepared :
    Prepared (Hashing {Worked.genesisData}) (genesisHash 1 1) 1 Worked.accesses Worked.filledNode := by
  refine ⟨System.boot 1 1 [7], 1, Worked.filling, ⟨1, 1, [7], [], Worked.started, rfl, trivial, rfl⟩, Worked.started,
    Transition.along_of_forall (fun s a member => ?_) _, fun a member => ?_, rfl, rfl⟩
  · simp only [Worked.filling, List.mem_cons, List.not_mem_nil, or_false] at member
    rcases member with rfl | rfl | rfl | rfl <;> exact ⟨rebaseOk_of_quiet rfl s, by simp [HashesIn, hashedBy]⟩
  · simp only [Worked.filling, List.mem_cons, List.not_mem_nil, or_false] at member
    rcases member with rfl | rfl | rfl | rfl
    · exact fun _ => Or.inl rfl
    · exact fun target => by cases target
    · exact fun _ => Or.inr ⟨Worked.transfer, rfl⟩
    · exact fun _ => Or.inl rfl

theorem mined_block_relayed_filling :
    let r := System.boot 1 1 [8]
    ∃ child, Worked.filledNode.mined 1 (some Worked.approve) [⟨[97], some [1]⟩] 1 = some child ∧
      child.txs = [Worked.transfer] ∧
      Relayed r 0 Worked.accesses Worked.approve [⟨[97], some [1]⟩] [⟨[97], some [1]⟩] 1 1 child := by
  intro r
  have run : r.engine.isSome ∧
      Worked.Covered (Worked.filledNode.next (.mine 1 (some Worked.approve) [⟨[97], some [1]⟩] 1)).db ∧
      (Worked.filledNode.mined 1 (some Worked.approve) [⟨[97], some [1]⟩] 1).any fun child : Block => decide (
        child.txs = [Worked.transfer] ∧
        (∀ h ∈ child.phash :: child.uncles, getSpec r.db h = getSpec Worked.filledNode.db h) ∧
        (∀ parent ∈ getSpec r.db child.phash, canRebase r.db parent.state = true) ∧
        (∀ hand ∈ (r.replayed 0 child.spec Worked.accesses).blocks 0,
          [(⟨[97], some [1]⟩ : Entry)].Perm hand.vars.entries) ∧
        Worked.Covered ((r.checked 0 child.spec Worked.accesses Worked.approve [⟨[97], some [1]⟩] 1).next
          (.accept 0 [⟨[97], some [1]⟩] 1)).db) := by decide +kernel
  obtain ⟨running, covered, rest⟩ := run
  obtain ⟨child, mined, rest⟩ := (Option.any_eq_true _ _).mp rest
  obtain ⟨txs, stored, rebases, visits, covered'⟩ := of_decide_eq_true rest
  obtain ⟨sound, data⟩ := Worked.genesisData_sound
  have reached : Reached (Hashing {Worked.genesisData}) (genesisHash 1 1) r := ⟨1, 1, [8], [], running, rfl, trivial, rfl⟩
  exact ⟨child, mined, txs, mined_block_relayed sound data data Worked.filledNode_prepared mined reached running stored
    rebases (by simp) (fun hand found => ⟨visits hand found, visits hand found⟩)
    (Worked.hashSound_of_both covered covered')⟩

end Worked

end TrustNet
