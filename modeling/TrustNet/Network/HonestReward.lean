import TrustNet.Consensus.Relay
import TrustNet.Consensus.UncleMiners
import TrustNet.Consensus.Uncles
import TrustNet.Network.Plain
import TrustNet.Network.Reward
import TrustNet.Network.Simulation

/-!
# Honest rewards verify

A miner adds its reward to a candidate and sends the block. A receiver that has the parent
and the uncles works on the state of the same parent, and finds the same uncle miners while
it validates the block, so the reward passes and leaves the same balances.

This rests on the candidate being made on the state of its parent. A node whose world state
stayed behind its tip shows other balances than the receiver; the run at the end is one.
-/

namespace TrustNet
set_option autoImplicit false

section Honest

variable [Sha512] [Outside]

/-- The candidate as it is sent: transactions were added after those it had, and mining set the state and the nonce. -/
def SentAs (b : Block) (spec : BlockSpec) : Prop :=
  ∃ state nonce rest, spec = { b.toBlockSpec with state := state, nonce := nonce, txs := b.txs ++ rest }

/-- The block passes `VerifyMiningRewardTx` on the disk `d'`, and then shows the balances that `b` shows on `d`. -/
def RewardVerifies (d d' : Disk) (b b' : Block) : Prop :=
  ∃ verified, verifyMiningRewardTx d' b' = some (verified, true) ∧
    ∀ account, ∃ amount, (miningRewardBalance d b account).map Prod.snd = some amount ∧
      (miningRewardBalance d' verified account).map Prod.snd = some amount

variable {d d' : Disk} {b b' b₁ : Block} {ws ws' : MptWorldState} {T : Contents} {t : Trustee} {order nonce : Nat}
  {ts : UInt64} {tx : Transaction}

/-- Two balances of one account that differ. -/
theorem not_rewardVerifies {account : Bytes} {mine seen : UInt64} (differ : mine ≠ seen)
    (here : (miningRewardBalance d b account).map Prod.snd = some mine)
    (there : (verifyMiningRewardTx d' b').map (fun verified => (miningRewardBalance d' verified.1 account).map Prod.snd) =
      some (some seen)) : ¬ RewardVerifies d d' b b' := by
  rintro ⟨verified, accepted, same⟩
  obtain ⟨amount, shown, shown'⟩ := same account
  rw [here, Option.some.injEq] at shown
  rw [accepted, Option.map_some, shown', ← shown] at there
  exact differ (Option.some.inj (Option.some.inj there))

/-- The reward that a miner builds is signed, and its payload reads back. -/
theorem rewardTx_built (works : Outside.Works) (built : t.rewardTx order nonce ts b.uncleMiners = some tx) :
    tx.submitter = t.myAddress ∧ Outside.verify tx.submitter (sum512 tx.payload) tx.signature = true ∧
      ∃ ops, Outside.deserialize tx.payload = some ops ∧ SameOps (t.myReward :: b.uncleMiners.map uncleReward) ops := by
  obtain ⟨payload, ops, serialized, decoded, same⟩ := works.roundTrip order (t.myReward :: b.uncleMiners.map uncleReward)
  obtain ⟨-, verified⟩ := works.signed nonce t.identity (sum512 payload)
  unfold Trustee.rewardTx at built
  rw [serialized] at built
  simp only at built
  split at built
  · cases built
  · cases built
    exact ⟨rfl, verified, ops, decoded, same⟩

/-- `NewMiningRewardTx` on a fresh candidate. -/
theorem newMiningRewardTx_eq (works : Outside.Works) (working : Working d ws T) (sound : HashSound (Known d))
    (state : b.worldState = some ws) (named : ∀ uncle ∈ b.uncleMiners, uncle ≠ []) (fresh : b.transactions = ∅)
    (built : t.rewardTx order nonce ts b.uncleMiners = some tx) (unseen : hasTransaction d tx.id = none) :
    t.newMiningRewardTx order nonce ts d b = some ({ b with
      transactions := insert tx.id b.transactions, txs := b.txs ++ [tx],
      vars := rewardVars (versionOf T) b.vars tx.submitter b.uncleMiners }, some tx) := by
  obtain ⟨submitter, -, ops, decoded, same⟩ := rewardTx_built works built
  have added : b.addTransaction d tx =
      ({ b with transactions := insert tx.id b.transactions, txs := b.txs ++ [tx] }, .ok) := by
    unfold Block.addTransaction
    rw [if_neg (by simp [state]), if_neg (by simp [unseen]), if_neg (by simp [fresh])]
  unfold Trustee.newMiningRewardTx
  rw [built]
  simp only [added]
  rw [process_built (b := { b with transactions := insert tx.id b.transactions, txs := b.txs ++ [tx] }) working sound state
    t submitter (works.address t.identity) named decoded same]
  rfl

/-- `VerifyMiningRewardTx` of that reward on a block with the same miner and the same uncle miners. -/
theorem verifyMiningRewardTx_eq (works : Outside.Works) (working : Working d ws T) (sound : HashSound (Known d))
    (state : b'.worldState = some ws) (named : ∀ uncle ∈ b.uncleMiners, uncle ≠ [])
    (built : t.rewardTx order nonce ts b.uncleMiners = some tx) {rest : List Transaction} (first : b'.txs = tx :: rest)
    (miner : b'.miner = t.myAddress) (uncles : b'.uncleMiners = b.uncleMiners) :
    verifyMiningRewardTx d b' =
      some ({ b' with vars := rewardVars (versionOf T) b'.vars tx.submitter b'.uncleMiners }, true) := by
  obtain ⟨submitter, verified, ops, decoded, same⟩ := rewardTx_built works built
  unfold verifyMiningRewardTx
  rw [first]
  simp only
  rw [verified, if_neg (by simp), if_neg (not_not.mpr (submitter.trans miner.symm))]
  rw [← uncles] at same named
  exact process_built working sound state t submitter (works.address t.identity) named decoded same

end Honest

/-! ## The miner's node and the receiver's -/

section Nodes

variable [Sha512] {X : Set Bytes} {g g' : Byte64} {s r : System} {c : BlockChainConsensus} {i j : Nat} {now : UInt64}
  {d : Disk} {b : Block} {ws : MptWorldState} {T : Contents} {calls calls' : List Action}

/-- A world state that is worked on keeps its contents while other calls go on. -/
theorem Working.run {P : System → Action → Prop} (reached : Reached P g s) (working : Working s.db ws T)
    (calls : List Action) (sound : HashSound (Known (s.run calls).db)) : Working (s.run calls).db ws T := by
  have anyRun : Reached (fun _ _ => True) g s := reached.mono fun _ _ _ => trivial
  have reached' := anyRun.run (Transition.along_true _ calls)
  exact ⟨reached'.ready.log, (reached'.contents sound).whole, working.ready,
    working.holds.of_suffix (run_grows reached.ready calls)⟩

/-- A fresh candidate: nothing but the state of the engine and the identity of the node. -/
theorem newCandidateBlock_fresh (reached : Reached RebaseOk g s) (engine : s.engine = some c)
    (made : newCandidateBlock c s.db now = (d, some b)) :
    ∃ ws, Rebased (freshDisk s.db) c.tip.state d ws ∧ b.worldState = some ws ∧ b.vars = ∅ ∧ b.transactions = ∅ ∧
      b.txs = [] ∧ b.miner = c.minerId := by
  obtain ⟨m, -, synced⟩ := reached.onTip
  obtain ⟨hash, -, -, root⟩ := synced c engine
  rcases newCandidateBlock_cases reached.ready.log c now hash with ⟨-, eq⟩ | ⟨d', ws, miners, rebased, eq⟩
  · rw [made] at eq
    cases eq
  · rw [made] at eq
    cases eq
    rw [root] at rebased
    exact ⟨ws, rebased, rfl, rfl, rfl, rfl, rfl⟩

/-- A candidate is worked on over the state of the tip, while other calls go on. -/
theorem newCandidateBlock_working (reached : Reached (Hashing X) g s) (engine : s.engine = some c)
    (made : newCandidateBlock c s.db now = (d, some b))
    (sound : HashSound (Known ((s.next (.candidate i now)).run calls).db)) :
    ∃ ws T, b.worldState = some ws ∧ ws.rootHash = c.tip.state ∧ Working ((s.next (.candidate i now)).run calls).db ws T := by
  obtain ⟨ws, rebased, state, -⟩ := newCandidateBlock_fresh reached.rebaseOk engine made
  have next : (s.next (.candidate i now)).db = d := by
    simp only [System.next, System.step, engine, made, System.setBlock]
  have anyRun : Reached (fun _ _ => True) g s := reached.mono fun _ _ _ => trivial
  have once : System.Along (fun _ _ => True) s [.candidate i now] := Transition.along_true _ _
  have reached' : Reached (fun _ _ => True) g (s.next (.candidate i now)) := anyRun.run once
  have sound' := sound.of_suffix (run_grows reached'.ready calls)
  have whole := (reached.contents (sound'.of_suffix (step_result reached.ready _).grows)).whole
  obtain ⟨m, -, synced⟩ := reached.rebaseOk.onTip
  obtain ⟨T, working⟩ := rebased.working reached.ready.log whole (reached.ready.specs _ _ (synced c engine).spec)
  rw [← next] at working
  exact ⟨ws, T, state, rebased.rootHash, working.run reached' calls sound⟩

/-- A candidate is valid for another node that has its parent and its uncles. -/
theorem candidate_valid_elsewhere (sound : Sound512 X g) (data : HashedUnder X genesisParent g)
    (data' : HashedUnder X genesisParent g') (sender : Reached (Hashing X) g s) (engine : s.engine = some c)
    (room : (acceptedBlocks s.db).length ≤ 2 ^ 64) (made : newCandidateBlock c s.db now = (d, some b))
    (receiver : Reached (Hashing X) g' r) (stored : ∀ h ∈ b.phash :: b.uncles, getSpec r.db h = getSpec s.db h) :
    Valid r.db b.toBlockSpec c.tip.toBlockSpec := by
  have candidate := sender.rebaseOk.onTip.candidate sender.ready sender.rebaseOk.dag engine made
  obtain ⟨m, canonical, -⟩ := sender.rebaseOk.onTip
  obtain ⟨level, levels⟩ := sender.rebaseOk.dag.levels
  have kept : SpecsKept s.db s.db := fun _ _ found => found
  have valid : Valid s.db b.toBlockSpec c.tip.toBlockSpec :=
    ⟨candidate.stored, candidate.depth,
      fun u member => (candidate.uncleOk canonical levels room kept canonical levels member).1, candidate.weight⟩
  have sound' : Sound512 X g' := ⟨sound.free, sound.proper, data'.ne_null sound⟩
  have peer := sender.peer sound
  have peer' := receiver.peer sound'
  have here : (getSpec s.db b.phash).isSome := by
    rw [candidate.stored]
    rfl
  have common : Common s.db r.db b.phash := ⟨here, by rw [stored _ List.mem_cons_self]; exact here⟩
  have genesis := peer.genesis_eq sound.free peer' data data' common
  subst genesis
  exact peer.valid sound peer' valid stored

/-- A valid block is decoded with the miners of its uncles, and worked on over the state of its parent, while other calls
go on. -/
theorem decode_working {spec parent : BlockSpec} (reached : Reached (Hashing X) g r) (running : r.engine.isSome)
    (valid : Valid r.db spec parent) (rebases : canRebase r.db parent.state = true)
    (sound : HashSound (Known ((r.next (.decode j spec)).run calls).db)) :
    (r.step (.decode j spec)).2 = some .ok ∧ ∃ ws T b, Decoded (r.next (.decode j spec)) j spec ws b ∧ b.vars = ∅ ∧
      b.uncleMiners = spec.uncles.map (minerAt r.db) ∧ ws.rootHash = parent.state ∧
      Working ((r.next (.decode j spec)).run calls).db ws T := by
  obtain ⟨c, engine⟩ := Option.isSome_iff_exists.mp running
  obtain ⟨ws, b, rebased, decoded, -, hand, vars⟩ := decode_decoded reached.ready engine valid rebases j
  have anyRun : Reached (fun _ _ => True) g r := reached.mono fun _ _ _ => trivial
  have once : System.Along (fun _ _ => True) r [.decode j spec] := Transition.along_true _ _
  have reached' : Reached (fun _ _ => True) g (r.next (.decode j spec)) := anyRun.run once
  have sound' := sound.of_suffix (run_grows reached'.ready calls)
  have whole := (reached.contents (sound'.of_suffix (step_result reached.ready _).grows)).whole
  obtain ⟨T, working⟩ := rebased.working reached.ready.log whole (reached.ready.specs _ _ valid.stored)
  have miners : b.uncleMiners = spec.uncles.map (minerAt r.db) := by
    have block := hand.block
    cases result : decodeNetworkBlockSpec r.db spec with
    | mk d' found =>
      simp only [System.next, System.step, engine, result] at decoded block
      cases found with
      | error e => simp at decoded
      | ok b' =>
        simp only [System.setBlock, Function.update_self, Option.some.injEq] at block
        subst block
        exact decodeNetworkBlockSpec_miners result
  exact ⟨decoded, ws, T, b, hand, vars, miners, rebased.rootHash, working.run reached' calls sound⟩

end Nodes

section Honest

variable [Sha512] [Outside] {X : Set Bytes} {g g' : Byte64} {s r : System} {c : BlockChainConsensus} {i j : Nat}
  {now : UInt64} {d : Disk} {b b₁ : Block} {calls calls' : List Action} {t : Trustee} {order nonce : Nat} {ts : UInt64}
  {tx : Transaction} {spec : BlockSpec}

/-- **Honest rewards verify everywhere.** A node makes a candidate and, while other calls go on, adds its reward. Another
node that stores the parent and the uncles, and can rebase to the state of the parent, decodes the block that is sent:
the reward passes, and every account has the balance that the miner saw. -/
theorem honest_reward_verifies (works : Outside.Works) (sound : Sound512 X g) (data : HashedUnder X genesisParent g)
    (data' : HashedUnder X genesisParent g') (sender : Reached (Hashing X) g s) (engine : s.engine = some c)
    (miner : c.minerId = t.myAddress) (room : (acceptedBlocks s.db).length ≤ 2 ^ 64)
    (made : newCandidateBlock c s.db now = (d, some b)) (named : ∀ uncle ∈ b.uncleMiners, uncle ≠ [])
    (built : t.newMiningRewardTx order nonce ts ((s.next (.candidate i now)).run calls).db b = some (b₁, some tx))
    (unseen : hasTransaction ((s.next (.candidate i now)).run calls).db tx.id = none) (sent : SentAs b₁ spec)
    (receiver : Reached (Hashing X) g' r) (running : r.engine.isSome)
    (stored : ∀ h ∈ b.phash :: b.uncles, getSpec r.db h = getSpec s.db h)
    (rebases : ∀ parent, getSpec r.db b.phash = some parent → canRebase r.db parent.state = true)
    (trie : HashSound fun n => Known ((s.next (.candidate i now)).run calls).db n ∨
      Known ((r.next (.decode j spec)).run calls').db n) :
    (r.step (.decode j spec)).2 = some .ok ∧ ∃ b', (r.next (.decode j spec)).blocks j = some b' ∧
      RewardVerifies ((s.next (.candidate i now)).run calls).db ((r.next (.decode j spec)).run calls').db b₁ b' := by
  have soundS : HashSound (Known ((s.next (.candidate i now)).run calls).db) := trie.mono fun _ => Or.inl
  have soundR : HashSound (Known ((r.next (.decode j spec)).run calls').db) := trie.mono fun _ => Or.inr
  have signed := newMiningRewardTx_tx built
  -- The miner works on the state of the tip.
  obtain ⟨ws₀, rebased, -, vars, fresh, empty, owner⟩ := newCandidateBlock_fresh sender.rebaseOk engine made
  obtain ⟨ws, T, state, root, working⟩ := newCandidateBlock_working sender engine made soundS
  rw [newMiningRewardTx_eq works working soundS state named fresh signed unseen, vars, empty] at built
  have shown : b₁.worldState = some ws ∧ b₁.vars = rewardVars (versionOf T) ∅ tx.submitter b.uncleMiners := by
    cases built
    exact ⟨state, rfl⟩
  -- The receiver decodes the block on the same state.
  have valid := candidate_valid_elsewhere sound data data' sender engine room made receiver stored
  obtain ⟨stateSent, nonceSent, rest, wire⟩ := sent
  cases built
  have validR : Valid r.db spec c.tip.toBlockSpec := by
    rw [wire]
    exact ⟨valid.stored, valid.depth, valid.uncles, valid.weight⟩
  obtain ⟨decoded, ws', T', b', hand, vars', miners, root', working'⟩ :=
    decode_working receiver running validR (rebases _ valid.stored) soundR
  have contents : T = T' := working.contents_eq trie working' (root.trans root'.symm)
  subst contents
  -- It finds the miners that the miner found.
  have same : b'.uncleMiners = b.uncleMiners := by
    have steps : TrieSteps (fun _ => False) _ _ := rebased.fresh_steps
    have records := SameRecords.of_steps steps
    rw [miners, newCandidateBlock_miners made, wire]
    refine List.map_congr_left fun u member => ?_
    unfold minerAt
    rw [stored u (List.mem_cons_of_mem _ member), records.spec]
  have first : b'.txs = tx :: rest := by
    rw [hand.wire, wire]
    rfl
  have owner' : b'.miner = t.myAddress := by
    rw [hand.wire, wire, ← miner, ← owner]
  have verified := verifyMiningRewardTx_eq works working' soundR hand.state named signed first owner' same
  refine ⟨decoded, b', hand.block, _, verified, fun account => ⟨_, balance_eq working soundS shown.1 account, ?_⟩⟩
  rw [shown.2, ← vars', ← same]
  exact balance_eq (b := { b' with vars := rewardVars (versionOf T) b'.vars tx.submitter b'.uncleMiners }) working' soundR
    hand.state account

end Honest

section Worked

attribute [local instance] Plain.sha512 Plain.outside

namespace Worked

/-- The data of the genesis block of the platform. -/
def platformGenesis : Bytes :=
  (genesisBlock genesisTimeStamp 0 (some freshState)).preimage emptyNode.hash ++ uint64Bytes 0

/-- A child of the second block, without updates. -/
def fundedChild : BlockSpec :=
  { genesisChild [1] Plain.fundedDigest 0 with phash := digest Plain.fundedBlockDigest, depth := 2, wt := 2 }

/-- The child is decoded, another block that is checked meanwhile removes the state of its parent, and the child is
accepted: the node moves its tip and stays on the state of the first block. -/
def laggingCalls : List Action := forkBlocks ++ [.decode 0 fundedChild,
  .decode 1 (genesisChild [1] Plain.keyedDigest 0), .update 1 (ascii "01") (uint64Bytes 1000000), .update 1 [107] [1],
  .checkPoW 1 (fun _ _ _ => true) [fundedEntry, ⟨[107], some [1]⟩] 1, .accept 0 [] 1, .accept 0 [] 1]

/-- The miner, with its candidate. -/
def laggingMiner : System :=
  ((System.boot genesisTimeStamp 0 [2]).run laggingCalls).next (.candidate 2 0x200003)

/-- The receiver has the same blocks. -/
def follower : System :=
  (System.boot genesisTimeStamp 0 [4]).run (forkBlocks ++ [.decode 0 fundedChild, .accept 0 [] 1])

/-- **The balances differ.** The reward of the miner passes on a receiver with the parent and the uncle, and account 01 has
nothing in the view of the miner and 1000000 in the view of the receiver. -/
theorem lagging_balances_differ :
    ∃ b b₁ tx, laggingMiner.blocks 2 = some b ∧
      (Plain.config 2).trustee.newMiningRewardTx 0 0 0x200003 laggingMiner.db b = some (b₁, some tx) ∧
      (∀ h ∈ b.phash :: b.uncles, (getSpec follower.db h).isSome ∧ getSpec follower.db h = getSpec laggingMiner.db h) ∧
      (follower.step (.decode 1 b₁.toBlockSpec)).2 = some .ok ∧
      ∃ b', (follower.next (.decode 1 b₁.toBlockSpec)).blocks 1 = some b' ∧
        ¬ RewardVerifies laggingMiner.db (follower.next (.decode 1 b₁.toBlockSpec)).db b₁ b' := by
  have run : ((laggingMiner.blocks 2).any fun b : Block =>
      ((Plain.config 2).trustee.newMiningRewardTx 0 0 0x200003 laggingMiner.db b).any fun q : Block × Option Transaction =>
        q.2.any fun _ : Transaction =>
          decide ((∀ h ∈ b.phash :: b.uncles,
            (getSpec follower.db h).isSome ∧ getSpec follower.db h = getSpec laggingMiner.db h) ∧
            (follower.step (.decode 1 q.1.toBlockSpec)).2 = some .ok ∧
            (miningRewardBalance laggingMiner.db q.1 (ascii "01")).map Prod.snd = some 0) &&
          ((follower.next (.decode 1 q.1.toBlockSpec)).blocks 1).any fun b' : Block =>
            decide ((verifyMiningRewardTx (follower.next (.decode 1 q.1.toBlockSpec)).db b').map (fun v =>
              (miningRewardBalance (follower.next (.decode 1 q.1.toBlockSpec)).db v.1 (ascii "01")).map Prod.snd) =
                some (some 1000000))) = true := by decide +kernel
  obtain ⟨b, block, run⟩ := (Option.any_eq_true _ _).mp run
  obtain ⟨⟨b₁, sent⟩, built, run⟩ := (Option.any_eq_true _ _).mp run
  obtain ⟨tx, rfl, run⟩ := (Option.any_eq_true _ _).mp run
  dsimp only at run
  obtain ⟨run, seen⟩ := Bool.and_eq_true_iff.mp run
  obtain ⟨stored, decoded, mine⟩ := of_decide_eq_true run
  obtain ⟨b', block', seen⟩ := (Option.any_eq_true _ _).mp seen
  exact ⟨b, b₁, tx, block, built, stored, decoded, b', block',
    not_rewardVerifies (by decide) mine (of_decide_eq_true seen)⟩

/-- A node with the two blocks. -/
def forkedNode (minerId : Bytes) : System := (System.boot genesisTimeStamp 0 minerId).run forkBlocks

/-- The data of genesis and of the two blocks. -/
def forkHashed : List Bytes := platformGenesis :: hashedOn (System.boot genesisTimeStamp 0 [2]) forkBlocks

/-- The sender. -/
def sender : System := forkedNode [2]

/-- The receiver. -/
def receiver : System := forkedNode [4]

theorem forkHashed_sound : Sound512 {data | data ∈ forkHashed} (genesisHash genesisTimeStamp 0) ∧
    HashedUnder {data | data ∈ forkHashed} genesisParent (genesisHash genesisTimeStamp 0) := by
  have check : (∀ x ∈ forkHashed, ∀ y ∈ forkHashed, sum512 x = sum512 y → x = y) ∧
      (∀ x ∈ forkHashed, sum512 x ≠ genesisParent) ∧ genesisHash genesisTimeStamp 0 ≠ genesisParent ∧
      platformGenesis.take 64 = genesisParent.bytes := by decide +kernel
  exact ⟨⟨fun x memberX y memberY => check.1 x memberX y memberY, check.2.1, check.2.2.1⟩,
    platformGenesis, List.mem_cons_self, rfl, check.2.2.2⟩

theorem forkedNode_reached {minerId : Bytes} (started : (System.boot genesisTimeStamp 0 minerId).engine.isSome)
    (fine : System.Along RebaseOk (System.boot genesisTimeStamp 0 minerId) forkBlocks)
    (inside : ∀ data ∈ hashedOn (System.boot genesisTimeStamp 0 minerId) forkBlocks, data ∈ forkHashed) :
    Reached (Hashing {data | data ∈ forkHashed}) (genesisHash genesisTimeStamp 0) (forkedNode minerId) :=
  ⟨genesisTimeStamp, 0, minerId, forkBlocks, started, rfl, fine.and (hashedOn_along inside), rfl⟩

end Worked

/-- A node adds the rewards for itself and for an uncle to its candidate, and another node verifies them. -/
theorem honest_reward_verifies_shared :
    ∃ b b₁ tx b', (Worked.sender.next (.candidate 2 0x200003)).blocks 2 = some b ∧ b.uncleMiners = [[1]] ∧
      (Plain.config 2).trustee.newMiningRewardTx 0 0 0x200003 (Worked.sender.next (.candidate 2 0x200003)).db b =
        some (b₁, some tx) ∧
      (Worked.receiver.next (.decode 1 b₁.toBlockSpec)).blocks 1 = some b' ∧
      RewardVerifies (Worked.sender.next (.candidate 2 0x200003)).db
        (Worked.receiver.next (.decode 1 b₁.toBlockSpec)).db b₁ b' := by
  have nodes : ((System.boot genesisTimeStamp 0 [2]).engine.isSome ∧
        System.Along RebaseOk (System.boot genesisTimeStamp 0 [2]) Worked.forkBlocks) ∧
      ((System.boot genesisTimeStamp 0 [4]).engine.isSome ∧
        System.Along RebaseOk (System.boot genesisTimeStamp 0 [4]) Worked.forkBlocks ∧
        ∀ data ∈ hashedOn (System.boot genesisTimeStamp 0 [4]) Worked.forkBlocks, data ∈ Worked.forkHashed) := by
    decide +kernel
  obtain ⟨⟨startedS, fineS⟩, startedR, fineR, insideR⟩ := nodes
  have sender : Reached (Hashing {data | data ∈ Worked.forkHashed}) (genesisHash genesisTimeStamp 0) Worked.sender :=
    Worked.forkedNode_reached startedS fineS fun _ member => List.mem_cons_of_mem _ member
  have receiver : Reached (Hashing {data | data ∈ Worked.forkHashed}) (genesisHash genesisTimeStamp 0) Worked.receiver :=
    Worked.forkedNode_reached startedR fineR insideR
  have run : Worked.receiver.engine.isSome ∧ (acceptedBlocks Worked.sender.db).length ≤ 2 ^ 64 ∧
      Plain.Covered (Worked.sender.next (.candidate 2 0x200003)).db ∧
      (Worked.sender.engine.any fun c : BlockChainConsensus =>
        decide (c.minerId = (Plain.config 2).trustee.myAddress) &&
        (newCandidateBlock c Worked.sender.db 0x200003).2.any fun b : Block => decide (b.uncleMiners = [[1]] ∧
          (∀ h ∈ b.phash :: b.uncles, getSpec Worked.receiver.db h = getSpec Worked.sender.db h) ∧
          ∀ parent ∈ getSpec Worked.receiver.db b.phash, canRebase Worked.receiver.db parent.state = true) &&
          ((Plain.config 2).trustee.newMiningRewardTx 0 0 0x200003 (Worked.sender.next (.candidate 2 0x200003)).db b).any
            fun q : Block × Option Transaction => q.2.any fun tx : Transaction =>
              decide (hasTransaction (Worked.sender.next (.candidate 2 0x200003)).db tx.id = none ∧
                Plain.Covered (Worked.receiver.next (.decode 1 q.1.toBlockSpec)).db)) = true := by
    decide +kernel
  obtain ⟨running, room, covered, run⟩ := run
  generalize Worked.sender = s at sender room covered run ⊢
  generalize Worked.receiver = r at receiver running run ⊢
  obtain ⟨c, engine, run⟩ := (Option.any_eq_true _ _).mp run
  obtain ⟨miner, run⟩ := Bool.and_eq_true_iff.mp run
  obtain ⟨b, candidate, run⟩ := (Option.any_eq_true _ _).mp run
  obtain ⟨parents, run⟩ := Bool.and_eq_true_iff.mp run
  obtain ⟨uncles, stored, rebases⟩ := of_decide_eq_true parents
  obtain ⟨⟨b₁, sent⟩, built, run⟩ := (Option.any_eq_true _ _).mp run
  obtain ⟨tx, rfl, run⟩ := (Option.any_eq_true _ _).mp run
  dsimp only at run
  obtain ⟨unseen, covered'⟩ := of_decide_eq_true run
  obtain ⟨sound, data⟩ := Worked.forkHashed_sound
  obtain ⟨d, made⟩ : ∃ d, newCandidateBlock c s.db 0x200003 = (d, some b) := ⟨_, Prod.ext rfl candidate⟩
  have block : (s.next (.candidate 2 0x200003)).blocks 2 = some b := by
    simp only [System.next, System.step, engine, made, System.setBlock, Function.update_self]
  have rewarded : (Plain.config 2).trustee.newMiningRewardTx 0 0 0x200003 ((s.next (.candidate 2 0x200003)).run []).db b =
      some (b₁, some tx) := built
  have trie : HashSound fun n => Known ((s.next (.candidate 2 0x200003)).run []).db n ∨
      Known ((r.next (.decode 1 b₁.toBlockSpec)).run []).db n := by
    refine Plain.hashSound_of_covered fun n knows => ?_
    rcases knows with knows | knows
    · exact ⟨_, knows, covered⟩
    · exact ⟨_, knows, covered'⟩
  have wire : SentAs b₁ b₁.toBlockSpec := ⟨_, _, [], by rw [List.append_nil]⟩
  obtain ⟨-, b', block', verifies⟩ := honest_reward_verifies Plain.outside_works sound data data sender engine
    (of_decide_eq_true miner) room made (by simp [uncles]) rewarded unseen wire receiver running stored rebases trie
  exact ⟨b, b₁, tx, b', block, uncles, built, block', verifies⟩

end Worked

end TrustNet
