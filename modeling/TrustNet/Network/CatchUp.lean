import TrustNet.Network.Fetch
import TrustNet.Network.Rewind

/-!
# Catching up with a peer

A node whose chain is lighter than that of a peer asks it for blocks, ten at a time, from
the last hash on. If the peer does not have that hash on its main list, the node goes up
ten of its own blocks and asks again; otherwise the batch that it is sent ends further
down on the main list of the peer. The last hash therefore climbs to a block that both
nodes have, and then follows the peer's main list until the node's chain is no longer
behind. This bounds the rounds of `syncNode` by the depths of the two tips.
-/

namespace TrustNet
set_option autoImplicit false
open ParentTree (Anc)

/-! ## The last hash -/

section Model

variable [Sha512]

/-- The hash of the block of a delivery after the call that accepts it (`block.Hash()`). -/
def System.acceptedHash (s : System) (i : Nat) (v : Delivery) : Option Byte64 :=
  let s := (s.step (.decode i v.spec)).1.run (v.replay.map (BlockOp.action i))
  match s.engine, s.blocks i with
  | some c, some b => (acceptNetworkBlock c s.db b v.order v.tries).2.2.1.hash
  | _, _ => none

/-- `LastHash` of the peer after `handleGetBlocksResponseMsg`: that of the last block that was accepted, or that the node
had already. -/
def System.feedHash (s : System) (i : Nat) (last : Option Byte64) : List Delivery → Option Byte64
  | [] => last
  | v :: rest =>
    match s.receive i v with
    | (s', some .ok) => s'.feedHash i (s.acceptedHash i v) rest
    | (s', some (.error (.core .duplicateBlock _))) => s'.feedHash i (s.acceptedHash i v) rest
    | _ => last

end Model

section Receive

variable [Sha512] {g : Byte64} {s : System} {i : Nat} {v : Delivery}

theorem AddResult.hash_of_settled {c c' : BlockChainConsensus} {d d' : Disk} {child : Block} {outcome : Outcome}
    (result : AddResult c d child c' d' outcome) (settled : Settled (some outcome)) : ∃ h, child.hash = some h := by
  cases result with
  | unhashed hash => simp [Settled] at settled
  | duplicateBlock h hash stored => exact ⟨h, hash⟩
  | duplicateTx h hash fresh duplicate => simp [Settled] at settled
  | noParent h hash fresh missing => simp [Settled] at settled
  | side h pn admitted lighter => exact ⟨h, admitted.hash⟩
  | rebaseFailed h pn msg admitted better missing => simp [Settled] at settled
  | moved h pn d₁ d' state outcome admitted better rebased switched => exact ⟨h, admitted.hash⟩

/-- A delivery that comes to the end was decoded and replayed on the state of its parent. -/
theorem receive_replayed (ready : SystemReady s) (settled : Settled (s.receive i v).2) :
    ∃ c d t b, s.engine = some c ∧ TrieLog d ∧ t.Ready ∧ b.toBlockSpec = v.spec ∧ b.isNetworkBlock = true ∧
      b.worldState = some t ∧ b.hash = none ∧
      (s.step (.decode i v.spec)).1.run (v.replay.map (BlockOp.action i)) =
        ({ s with db := d } : System).setBlock i (some b) ∧
      s.receive i v = (({ s with db := d } : System).setBlock i (some b)).step (.accept i v.order v.tries) := by
  unfold System.receive at settled ⊢
  rcases Option.eq_none_or_eq_some s.engine with engine | ⟨c, engine⟩
  · simp only [System.step, engine] at settled
    simp [Settled] at settled
  · rcases decodeNetworkBlockSpec_cases ready.log v.spec with
      ⟨b', e, failed, eq⟩ | ⟨parent, eq, valid, missing⟩ | ⟨parent, d, t, miners, valid, rebased, eq⟩
    · simp only [System.step, engine, eq] at settled
      rcases validateBlock_error failed with ⟨msg, rfl⟩ | ⟨msg, rfl⟩
      · simp [Settled] at settled
      · simp [Settled] at settled
    · simp only [System.step, engine, eq] at settled
      simp [Settled] at settled
    · have steps : TrieSteps (fun _ => False) s.db d := rebased.fresh_steps
      have ready' := rebased.ready (ready.specs _ parent valid.stored)
      obtain ⟨vars, form⟩ := replay_eq (v.decoded miners t) d v.replay
      have decode : s.step (.decode i v.spec) =
          (({ s with db := d } : System).setBlock i (some (v.decoded miners t)), some .ok) := by
        simp only [System.step, engine, eq]
        rfl
      have run : (({ s with db := d } : System).setBlock i (some (v.decoded miners t))).run
          (v.replay.map (BlockOp.action i)) =
          ({ s with db := d } : System).setBlock i (some ((v.decoded miners t).replay d v.replay)) := by
        have isOpen : (v.decoded miners t).Open := ⟨t, rfl, ready'⟩
        have hand : (({ s with db := d } : System).setBlock i (some (v.decoded miners t))).blocks i =
            some (v.decoded miners t) := by simp [System.setBlock]
        have engine' : (({ s with db := d } : System).setBlock i (some (v.decoded miners t))).engine = some c := engine
        refine (run_replay engine' hand isOpen v.replay).trans ?_
        simp [System.setBlock]
      refine ⟨c, d, t, (v.decoded miners t).replay d v.replay, engine, ready.log.steps steps, ready', ?_, ?_, ?_, ?_, ?_, ?_⟩
      · rw [form]
        rfl
      · rw [form]
        rfl
      · rw [form]
        rfl
      · rw [form]
        rfl
      · rw [decode]
        exact run
      · rw [decode]
        simp only
        rw [run]

/-- The hash of a block that the node has in the end is the one of its own fields. -/
theorem receive_acceptedHash (ready : SystemReady s) (settled : Settled (s.receive i v).2) :
    s.acceptedHash i v = some v.spec.digest := by
  obtain ⟨c, d, t, b, engine, log, ready', wire, network, state, unhashed, run, call⟩ := receive_replayed ready settled
  rw [call] at settled
  unfold System.acceptedHash
  rw [run]
  simp only [System.step, System.onBlock, System.setBlock, engine, Function.update_self] at settled ⊢
  split at settled
  · rcases acceptNetworkBlock_network log state ready' (ready.engine c engine).1 network v.order v.tries with
      ⟨b', e, failed, eq⟩ | ⟨parent, miners, d₁, ws, child, -, -, -, form, differs | ⟨same, c', d', outcome, result, eq⟩⟩
    · rw [eq] at settled
      rcases validateBlock_error failed with ⟨msg, rfl⟩ | ⟨msg, rfl⟩
      · simp [System.submitted, Settled] at settled
      · simp [System.submitted, Settled] at settled
    · rw [differs.2] at settled
      simp [System.submitted, Settled] at settled
    · have settled' : Settled (some outcome) := by
        rw [eq] at settled
        cases outcome with
        | ok => exact settled
        | error e => exact settled
        | panic => exact settled
      obtain ⟨h, hash⟩ := result.hash_of_settled settled'
      have digest : h = v.spec.digest := by
        rw [form, unhashed, Option.or_none] at hash
        simp only [Block.tryHash, Option.ite_none_right_eq_some, Option.some.injEq] at hash
        rw [← hash.2, same, wire, BlockSpec.digest]
      rw [eq, ← digest]
      exact hash
  · simp [Settled] at settled

/-- A block that is accepted, or that the node had already, is stored afterwards. -/
theorem receive_stored (reached : Reached RebaseOk g s) (settled : Settled (s.receive i v).2) :
    (getSpec (s.receive i v).1.db v.spec.digest).isSome := by
  have received := receive_received reached.ready i v
  generalize s.receive i v = result at received settled ⊢
  obtain ⟨s', o⟩ := result
  simp only at received settled ⊢
  cases received with
  | idle => simp [Settled] at settled
  | invalid _ b b' e' steps wire invalid =>
    rcases validateBlock_error invalid with ⟨msg, rfl⟩ | ⟨msg, rfl⟩
    · simp [Settled] at settled
    · simp [Settled] at settled
  | missing => simp [Settled] at settled
  | differs => simp [Settled] at settled
  | added d d₁ d' t ws b child c c' outcome engine submitted root result =>
    obtain ⟨m, canonical, -⟩ := reached.onTip
    have same := SameRecords.of_steps submitted.steps
    have canonical := canonical.of_records same submitted.steps.length_le
    have digest : ∀ {h}, child.hash = some h → h = v.spec.digest := by
      intro h hash
      rw [submitted.hash hash, root, BlockSpec.digest]
    rw [submitted_db]
    rcases settled with ok | ⟨msg, duplicate⟩
    · cases ok
      obtain ⟨m', submission, -⟩ := result.submission canonical rfl fun h hash => submitted.putBlock root hash
      obtain ⟨h, pn, admitted, extended⟩ := submission.extended
      rw [extended.spec, if_pos (digest admitted.hash).symm]
      rfl
    · cases duplicate
      cases result with
      | duplicateBlock h hash found =>
        rw [← digest hash, ← canonical.stored_iff]
        exact found
      | moved h pn d₂ _ state _ admitted better rebased switched =>
        exact absurd (congrArg Prod.snd switched) (switchMainList_ne_error _ _ _ _)

/-- **A batch that is taken** leaves its last block stored, and its hash as the last hash. -/
theorem feed_settled (reached : Reached RebaseOk g s) {vs : List Delivery} (last : Option Byte64)
    (fed : (s.feed i vs).2 = some .ok) :
    Reached RebaseOk g (s.feed i vs).1 ∧ ∀ v, vs.getLast? = some v →
      s.feedHash i last vs = some v.spec.digest ∧ (getSpec (s.feed i vs).1.db v.spec.digest).isSome := by
  induction vs generalizing s last with
  | nil => exact ⟨reached, fun v ends => by cases ends⟩
  | cons w vs ih =>
    have next : Settled (s.receive i w).2 → ((s.receive i w).1.feed i vs).2 = some .ok →
        Reached RebaseOk g ((s.receive i w).1.feed i vs).1 ∧ ∀ v, (w :: vs).getLast? = some v →
          (s.receive i w).1.feedHash i (s.acceptedHash i w) vs = some v.spec.digest ∧
            (getSpec ((s.receive i w).1.feed i vs).1.db v.spec.digest).isSome := by
      intro settled fed
      have reached' := reached.receive i w fun msg eq => by
        rw [eq] at settled
        simp [Settled] at settled
      obtain ⟨reached'', rest⟩ := ih reached' (s.acceptedHash i w) fed
      refine ⟨reached'', fun v ends => ?_⟩
      cases vs with
      | nil =>
        cases ends
        exact ⟨receive_acceptedHash reached.ready settled, receive_stored reached settled⟩
      | cons w' vs =>
        rw [List.getLast?_cons_cons] at ends
        exact rest v ends
    unfold System.feed at fed
    unfold System.feed System.feedHash
    generalize s.receive i w = result at next fed ⊢
    obtain ⟨s', o⟩ := result
    split at fed
    · rename_i eq
      cases eq
      exact next (Or.inl rfl) fed
    · rename_i msg eq
      cases eq
      exact next (Or.inr ⟨msg, rfl⟩) fed
    · rename_i accepted duplicate eq
      cases eq
      simp only at fed
      rw [fed] at accepted
      exact (accepted rfl).elim

end Receive

/-! ## The peer -/

section Peer

variable {d d' : Disk} {g m p : Byte64}

/-- A batch is read off the records. -/
theorem descendentsFrom_congr (same : SameRecords d d') (parent : Byte64) (max fuel : Nat) (node : Option ChainNode)
    (found : List Block) (count : Nat) :
    descendentsFrom d' parent max fuel node found count = descendentsFrom d parent max fuel node found count := by
  have block : getBlock d' = getBlock d := by
    funext h
    unfold getBlock
    rw [same.spec]
  have child : ∀ n, findMainListChild d' n none = findMainListChild d n none := by
    intro n
    unfold findMainListChild
    simp only [same.chainNode]
  induction fuel generalizing node found count with
  | zero => cases node <;> rfl
  | succ fuel ih =>
    cases node with
    | none => rfl
    | some n =>
      unfold descendentsFrom
      simp only [block, child, ih]

theorem descendents_congr (same : SameRecords d d') (p : Byte64) (max : Int) :
    descendents d' p max = descendents d p max := by
  unfold descendents
  simp only [same.chainNode, descendentsFrom_congr same]

/-- Only below a block of the main list is there a batch. -/
theorem flagged_of_descendents {max : Int} {batch : List Block} {e : Option Err}
    (result : descendents d p max = some (batch, e)) (several : batch ≠ []) : Flagged d p := by
  unfold descendents at result
  simp only at result
  split at result
  · cases result
  · cases found : getChainNode d p with
    | none =>
      rw [found] at result
      cases result
      exact absurd rfl several
    | some n =>
      rw [found] at result
      simp only at result
      split at result
      · cases result
        exact absurd rfl several
      · rename_i mark
        exact ⟨n, found, by simpa using mark⟩

/-- A rewind is asked for if there is nothing to send. -/
theorem answered_rewind {request : GetBlockHashesRequestMsg} {hash : Byte64} {send : HashesMsg → Option String}
    {error : Option PeerError}
    (answered : handleGetBlockHashesRequestMsg d (.ok request) send = some (some (.rewind hash), error)) :
    ∃ e, descendents d request.parentHash (toInt request.maxBlocks) = some ([], e) := by
  unfold handleGetBlockHashesRequestMsg at answered
  simp only at answered
  cases result : descendents d request.parentHash (toInt request.maxBlocks) with
  | none =>
    rw [result] at answered
    cases answered
  | some reply =>
    obtain ⟨batch, e⟩ := reply
    rw [result] at answered
    simp only at answered
    split at answered
    · rename_i none'
      exact ⟨e, by rw [List.length_eq_zero_iff.mp (Nat.lt_one_iff.mp none')]⟩
    · cases listed : batch.mapM (·.hash) with
      | none =>
        rw [listed] at answered
        cases answered
      | some hashes =>
        rw [listed] at answered
        cases answered

/-- A peer with its best chain: the uncles of two consecutive blocks of its main list fit into a request, and these
blocks are stored under their own hashes. -/
structure Serving [Sha512] (d : Disk) (g m : Byte64) : Prop where
  canonical : Canonical d g m
  before : UnclesBefore d g
  dag : ChainDag d g
  few : ∀ {c p}, Flagged d c → parentOf d g c = some p → uncleCount d p + uncleCount d c < 10
  keyed : ∀ {h spec}, Flagged d h → h ≠ g → getSpec d h = some spec → spec.digest = h

/-- Its database while it answers: the tries are written to, and the states of the blocks are there. -/
structure Answering [Sha512] (d ds : Disk) : Prop where
  records : SameRecords d ds
  log : TrieLog ds
  states : ∀ h spec, getSpec ds h = some spec → Available ds spec.state

variable [Sha512]

/-- Above the tip, a batch ends further down on the main list. -/
theorem Serving.advances (serving : Serving d g m) (main : Flagged d p) (ne : p ≠ m) :
    ∃ batch, descendents d p (toInt syncBatch) = some (batch, none) ∧ Advances d g p batch := by
  obtain ⟨n, stored, mark⟩ := main
  have up := (serving.canonical.chain.main.2 p).mp ⟨n, stored, mark⟩
  obtain ⟨own, hs, eq, path, -, -, next⟩ :=
    descendents_spec serving.canonical serving.before ⟨n, stored, mark⟩ (toInt syncBatch) (by decide)
  have below : hs ≠ [] := by
    rcases serving.canonical.chain.mainListChild stored up with ⟨tip, -⟩ | ⟨cn, -, -, mainC, edge⟩
    · exact absurd tip.symm ne
    · exact next.mpr ⟨cn.hash, mainC, edge, serving.few ((serving.canonical.chain.main.2 _).mpr mainC) edge⟩
  exact ⟨_, eq, advances_of_path serving.canonical path below own⟩

/-- The main list is climbed by depth. -/
theorem Serving.depth_lt (serving : Serving d g m) {h : Byte64} (up : Anc (parentOf d g) h p) (ne : h ≠ p) :
    depthAt d p < depthAt d h := by
  have leveled := serving.dag.climbs.edge
  refine lt_of_le_of_ne (up.rank_le leveled.ranked) fun same => ?_
  exact ne (up.eq_of_level leveled same.symm)

theorem Serving.depth_le (serving : Serving d g m) {h : Byte64} (main : Flagged d h) : depthAt d h ≤ depthAt d m :=
  ((serving.canonical.chain.main.2 h).mp main).rank_le serving.dag.climbs.edge.ranked

end Peer

/-! ## A round -/

section Round

variable [Sha512]

/-- A request of `syncNode` after `last`, up to the signal: the peer has the node rewind, or it sends hashes and then
blocks, and the node takes all of them. The new last hash, and the signal. -/
inductive Exchange (d : Disk) (c : BlockChainConsensus) (i : Nat) (r : System) (last : Byte64) :
    System → Byte64 → ChanSignal → Prop where
  | rewound {ds : Disk} {hash x : Byte64} (answering : Answering d ds)
      (answer : handleGetBlockHashesRequestMsg ds (.ok ⟨last, syncBatch⟩) (fun _ => none) =
        some (some (.rewind hash), none))
      (passes : (handleGetBlockHashesRewindMsg c r.db (some last)).Passes x) : Exchange d c i r last r x .retry
  | fetched {ds ds' : Disk} {hashes : List Byte64} {specs : List BlockSpec} {vs : List Delivery} {h : Byte64}
      (answering : Answering d ds) (answering' : Answering d ds')
      (answer : handleGetBlockHashesRequestMsg ds (.ok ⟨last, syncBatch⟩) (fun _ => none) =
        some (some (.response hashes), none))
      (blocks : (handleGetBlocksRequestMsg ds' (.ok hashes) fun _ => none).2 = (some specs, none))
      (wire : vs.map Delivery.spec = specs) (fed : (r.feed i vs).2 = some .ok)
      (hash : r.feedHash i (some last) vs = some h) : Exchange d c i r last (r.feed i vs).1 h .next

variable {d : Disk} {g m : Byte64} {c : BlockChainConsensus} {i : Nat} {r r' : System} {last last' : Byte64}
  {signal : ChanSignal}

/-- **What a round comes to**, with the peer's tip not there yet: from a hash that is not on the peer's main list up
to ten blocks closer to genesis, and from one that is to a later one. -/
theorem Exchange.cases (exchange : Exchange d c i r last r' last' signal) (serving : Serving d g m)
    (reached : Reached RebaseOk g r) (root : c.genesisNode.hash = g) (dag : ChainDag r.db g)
    (stored : (getSpec r.db last).isSome) (behind : last ≠ m) :
    Reached RebaseOk g r' ∧ (getSpec r'.db last').isSome ∧
      ((signal = .retry ∧ r' = r ∧ ¬ Flagged d last ∧ (depthAt r.db last' + 9) / 10 + 1 ≤ (depthAt r.db last + 9) / 10) ∨
        (signal = .next ∧ Flagged d last ∧ Flagged d last' ∧ depthAt d last < depthAt d last')) := by
  have storedNode : (getChainNode r.db last).isSome := by rw [dag.blocks]; exact stored
  cases exchange with
  | @rewound ds hash x answering answer passes =>
    obtain ⟨e, empty⟩ := answered_rewind answer
    rw [descendents_congr answering.records] at empty
    have off : ¬ Flagged d last := by
      intro main
      obtain ⟨batch, result, b, h, ends, -⟩ := serving.advances main behind
      rw [result, Option.some.injEq, Prod.mk.injEq] at empty
      rw [empty.1] at ends
      cases ends
    have below : 0 < depthAt r.db last := by
      refine Nat.pos_of_ne_zero fun zero => off ?_
      rw [(dag.depthAt_eq_zero storedNode).mp zero]
      exact (serving.canonical.chain.main.2 g).mpr (serving.dag.anc_genesis serving.canonical.chain.main.1)
    obtain ⟨x', passes', up, depth⟩ := (StartsAt.last last).passes dag root storedNode below
    have same : x' = last' := Option.some.inj (passes'.lastHash.symm.trans passes.lastHash)
    subst same
    refine ⟨reached, ?_, Or.inl ⟨rfl, rfl, off, by omega⟩⟩
    rw [← dag.blocks]
    exact dag.climbs.anc_stored storedNode up
  | @fetched ds ds' hashes specs vs h answering answering' answer blocks wire fed hash =>
    obtain ⟨batch, e, result, several, listed⟩ := answered_batch answer
    have main : Flagged d last := by
      obtain ⟨n, found, mark⟩ := flagged_of_descendents result several
      exact ⟨n, by rw [← answering.records.chainNode]; exact found, mark⟩
    have kept : SpecsKept ds ds' := fun h spec found => by
      rw [answering'.records.spec, ← answering.records.spec]
      exact found
    have sent := handle_batch result several listed answering'.log kept answering'.states
    rw [blocks, Prod.mk.injEq, Option.some.injEq] at sent
    rw [descendents_congr answering.records] at result
    obtain ⟨batch', result', b, h', ends, hash', main', up, ne⟩ := serving.advances main behind
    rw [result, Option.some.injEq, Prod.mk.injEq] at result'
    obtain ⟨rfl, -⟩ := result'
    -- the last block of the batch is stored under its own hash
    obtain ⟨h'', block⟩ := descendents_stored result b (List.mem_of_getLast? ends)
    rw [getBlock_hash block, Option.some.injEq] at hash'
    subst hash'
    have ends' : vs.getLast?.map Delivery.spec = some b.spec := by
      rw [← List.getLast?_map, wire, sent.1, List.getLast?_map, ends]
      rfl
    obtain ⟨v, lastV, spec⟩ := Option.map_eq_some_iff.mp ends'
    have notRoot : h'' ≠ g := by
      rintro rfl
      rcases up.cases_head with eq | ⟨q, edge, -⟩
      · exact ne eq
      · simp [parentOf] at edge
    have digest : v.spec.digest = h'' := by
      rw [spec]
      exact serving.keyed main' notRoot (getBlock_spec block).symm
    obtain ⟨reached', rest⟩ := feed_settled reached (some last) fed
    obtain ⟨lastHash, stored'⟩ := rest v lastV
    rw [hash, Option.some.injEq, digest] at lastHash
    rw [digest, ← lastHash] at stored'
    subst lastHash
    exact ⟨reached', stored', Or.inr ⟨rfl, main, main', serving.depth_lt up ne⟩⟩

end Round

/-! ## The rounds of `syncNode` -/

section Rounds

variable [Sha512]

/-- A node that syncs with the peer: the rounds that `syncNode` meets, with other calls of the engine between the signal
and `BestBlock`. Blocks of the two nodes with the same hash are the same. -/
inductive Served (d : Disk) (g : Byte64) (i : Nat) : System → Byte64 → List SyncRound → Prop where
  | nil (r : System) (last : Byte64) : Served d g i r last []
  | round {r r' : System} {c c' : BlockChainConsensus} {last last' : Byte64} {signal : ChanSignal} {actions : List Action}
      {rounds : List SyncRound} (engine : r.engine = some c) (root : c.genesisNode.hash = g)
      (room : (acceptedBlocks r.db).length ≤ 2 ^ 64)
      (agree : ∀ {h spec spec'}, getSpec d h = some spec → getSpec r.db h = some spec' → spec' = spec)
      (exchange : Exchange d c i r last r' last' signal) (others : System.Along RebaseOk r' actions)
      (now : (r'.run actions).engine = some c')
      (rest : Served d g i ((r'.run actions).step .bestBlock).1 last' rounds) :
      Served d g i r last (⟨some last, none, some signal, (bestBlock c' (r'.run actions).db).2⟩ :: rounds)

variable {d : Disk} {g m : Byte64} {c : BlockChainConsensus} {i : Nat} {r : System} {last : Byte64}

theorem bestBlock_fields {b : Block} (best : (bestBlock c r.db).2 = some b) :
    b.wt = c.tip.wt ∧ b.hash = c.tip.hash ∧ b.depth = c.tip.depth := by
  unfold bestBlock at best
  split at best
  · cases best
  · split at best
    · cases best
    · cases best
      exact ⟨rfl, rfl, rfl⟩

/-- A node that is behind the tip of the peer does not have it. -/
theorem not_stored_of_needed {tip b : Block} (tipHash : tip.hash = some m) (spec : getSpec d m = some tip.toBlockSpec)
    (reached : Reached RebaseOk g r) (engine : r.engine = some c)
    (agree : ∀ {h spec spec'}, getSpec d h = some spec → getSpec r.db h = some spec' → spec' = spec)
    (weight : b.wt = c.tip.wt) (hash : b.hash = c.tip.hash) (needed : isSyncNeeded b ⟨tip.wt, tip.numeric⟩ = true) :
    getSpec r.db m = none := by
  by_contra stored
  obtain ⟨spec', found⟩ := Option.ne_none_iff_exists'.mp stored
  have same := agree spec found
  subst same
  obtain ⟨m', canonical, synced⟩ := reached.onTip
  have synced := synced c engine
  have least : ¬ forkRank tip.wt m < forkRank c.tip.wt m' :=
    List.not_lt_of_mem_argmin (mem_acceptedBlocks found) (canonical.first synced.spec)
  rw [forkRank_lt] at least
  have numericB : b.numeric = numeric m' := by simp [Block.numeric, hash, synced.hash]
  have numericM : tip.numeric = numeric m := by simp [Block.numeric, tipHash]
  refine least ?_
  unfold isSyncNeeded at needed
  rw [weight, numericB, numericM] at needed
  simp only [Bool.or_eq_true, Bool.and_eq_true, decide_eq_true_eq] at needed
  rcases needed with heavier | ⟨same, first⟩
  · exact Or.inl heavier
  · exact Or.inr ⟨same.symm, first⟩

theorem bestBlock_step (engine : r.engine = some c) : (r.step .bestBlock).1 = { r with db := (bestBlock c r.db).1 } := by
  simp only [System.step, engine]

theorem Exchange.signal_eq {c' : BlockChainConsensus} {r' : System} {last' : Byte64} {signal : ChanSignal}
    (exchange : Exchange d c' i r last r' last' signal) : signal = .next ∨ signal = .retry := by
  cases exchange with
  | rewound => exact Or.inr rfl
  | fetched => exact Or.inl rfl

omit [Sha512] in
/-- A round that does not end the function, and after which it still waits. -/
theorem syncRounds_waits {status : PeerStatus} {ends : SyncEnd} {rounds : List SyncRound} {s : Syncing} {hash : Byte64}
    {signal : ChanSignal} {best : Option Block} (goesOn : signal = .next ∨ signal = .retry)
    (waits : syncRounds status ends (⟨some hash, none, some signal, best⟩ :: rounds) s = none) :
    ∃ b s', best = some b ∧ isSyncNeeded b status = true ∧ syncRounds status ends rounds s' = none := by
  unfold syncRounds syncRound at waits
  cases best with
  | none => rcases goesOn with rfl | rfl <;> cases waits
  | some b =>
    rcases goesOn with rfl | rfl
    · simp only [Option.some_or, Option.getD_some] at waits
      split at waits
      · rename_i needed
        exact ⟨b, _, rfl, needed, waits⟩
      · cases waits
    · simp only [Option.some_or, Option.getD_some] at waits
      split at waits
      · rename_i needed
        exact ⟨b, _, rfl, needed, waits⟩
      · cases waits

omit [Sha512] in
theorem depthAt_eq_of_spec {h : Byte64} {spec : BlockSpec} (canonical : Canonical d g m) (found : getSpec d h = some spec) :
    depthAt d h = spec.depth.toNat := by
  have header := canonical.headers h
  rw [found, Option.map_some] at header
  obtain ⟨n, node, eq⟩ := Option.map_eq_some_iff.mp header
  have same : n.depth = spec.depth := congrArg (fun header => header.2.1) eq
  rw [depthAt_of_found node, same]

/-- A stored block keeps its depth. -/
theorem Reached.depthAt_eq {g : Byte64} (reached : Reached RebaseOk g r) {actions : List Action}
    (along : System.Along RebaseOk r actions) {h : Byte64} (stored : (getSpec r.db h).isSome) :
    depthAt (r.run actions).db h = depthAt r.db h := by
  obtain ⟨spec, found⟩ := Option.isSome_iff_exists.mp stored
  obtain ⟨m, canonical, -⟩ := reached.onTip
  obtain ⟨m', canonical', -⟩ := (reached.run along).onTip
  rw [depthAt_eq_of_spec canonical found, depthAt_eq_of_spec canonical' (reached.specsKept along h spec found)]

/-- The rounds from a last hash on. On the main list of the peer they are no more than the blocks below it; elsewhere
there is first a rewind for every ten blocks up to genesis. -/
theorem Served.length_le {rounds : List SyncRound} (served : Served d g i r last rounds) {tip b : Block}
    (serving : Serving d g m) (tipHash : tip.hash = some m) (spec : getSpec d m = some tip.toBlockSpec) {s : Syncing}
    {ends : SyncEnd} (reached : Reached RebaseOk g r) (stored : (getSpec r.db last).isSome)
    (best : ∀ c, r.engine = some c → b.wt = c.tip.wt ∧ b.hash = c.tip.hash)
    (needed : isSyncNeeded b ⟨tip.wt, tip.numeric⟩ = true)
    (waits : syncRounds ⟨tip.wt, tip.numeric⟩ ends rounds s = none) :
    (Flagged d last → rounds.length ≤ depthAt d m - depthAt d last) ∧
      rounds.length ≤ (depthAt r.db last + 9) / 10 + depthAt d m := by
  induction served generalizing b s with
  | nil r last => simp
  | @round r r' c c' last last' signal actions rounds engine root room agree exchange others now rest ih =>
    have behind : last ≠ m := by
      rintro rfl
      obtain ⟨weight, hash⟩ := best c engine
      rw [not_stored_of_needed tipHash spec reached engine agree weight hash needed] at stored
      cases stored
    obtain ⟨b', s', found, needed', waits'⟩ := syncRounds_waits exchange.signal_eq waits
    obtain ⟨reached', stored', change⟩ := exchange.cases serving reached root (reached.chainDag room) stored behind
    -- the calls in between and `BestBlock` keep the block and its depth
    have along : System.Along RebaseOk r' (actions ++ [.bestBlock]) :=
      Transition.along_append.mpr ⟨others, rebaseOk_of_quiet rfl _, trivial⟩
    have end' : r'.run (actions ++ [.bestBlock]) = ((r'.run actions).step .bestBlock).1 :=
      Transition.run_append _ r' actions [.bestBlock]
    have kept := reached'.depthAt_eq along stored'
    have reached'' := reached'.run along
    obtain ⟨spec', old⟩ := Option.isSome_iff_exists.mp stored'
    have stored'' := reached'.specsKept along last' spec' old
    rw [end'] at kept reached'' stored''
    have fields := bestBlock_fields found
    have bound := ih reached'' (by rw [stored'']; rfl) (fun c'' engine'' => by
      rw [bestBlock_step now] at engine''
      simp only [now, Option.some.injEq] at engine''
      subst engine''
      exact ⟨fields.1, fields.2.1⟩) needed' waits'
    rw [kept] at bound
    rw [List.length_cons]
    rcases change with ⟨-, rfl, off, climbs⟩ | ⟨-, main, main', deeper⟩
    · exact ⟨fun main => absurd main off, by omega⟩
    · have below := bound.1 main'
      have top := serving.depth_le main'
      omega

end Rounds

section Worked

attribute [local instance] workedSha512

end Worked

end TrustNet
