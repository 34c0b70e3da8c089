import TrustNet.Network.Custody
import TrustNet.Network.Knowledge

/-!
# Blocks that are produced and replayed

`blockProducer` has the application work on the candidate, and lists the transactions that
were accepted. `processBlock` has it work on the block again, with the listed transactions
only. `replayOf` is what the second comes to. The first comes to the same view if nothing
else was left in the candidate: no transaction that was rejected changed the view, and none
that was accepted was left out of the list because the chain or the block knows it already.
-/

namespace TrustNet
set_option autoImplicit false

/-! ## Handlers -/

section Replay

variable [Sha512]

/-- What `processBlock` makes of the overlay of a block over the contents `T`: the reward, and then the transactions. -/
def replayOf (txProcessor : Transaction → Script) (d : Disk) (T : Contents) (spec : BlockSpec) (txs : List Transaction) :
    Variables × Bool :=
  plays txProcessor (versionOf T) txs (rewardVars (versionOf T) ∅ spec.miner (spec.uncles.map (minerAt d)))

variable {txProcessor : Transaction → Script} {d d' : Disk} {T : Contents} {b : Block} {spec : BlockSpec}
  {txs rest : List Transaction}

omit [Sha512] in
theorem replayOf_same (same : ∀ u ∈ spec.uncles, getSpec d' u = getSpec d u) :
    replayOf txProcessor d' T spec txs = replayOf txProcessor d T spec txs := by
  unfold replayOf
  rw [map_minerAt same]

omit [Sha512] in
theorem replayOf_kept (stored : ∀ u ∈ spec.uncles, (getSpec d u).isSome) (specs : SpecsKept d d') :
    replayOf txProcessor d' T spec txs = replayOf txProcessor d T spec txs :=
  replayOf_same fun u member => specs.isSome (stored u member)

/-- The handler replayed all transactions but `rest`. -/
def Followed (txProcessor : Transaction → Script) (d : Disk) (rest : List Transaction) (b : Block) : Prop :=
  ∃ ws T first txs, Opened d b ws T ∧ b.miner ≠ [] ∧ b.txs = first :: (txs ++ rest) ∧
    replayOf txProcessor d T b.toBlockSpec txs = (b.vars, true)

/-- The handler replayed all transactions, and the overlay was persisted. -/
def Recomputed (txProcessor : Transaction → Script) (d : Disk) (b : Block) : Prop :=
  ∃ ws T order first txs, OnParent d b T ∧ (∀ u ∈ b.uncles, (getSpec d u).isSome) ∧ b.miner ≠ [] ∧ b.txs = first :: txs ∧
    replayOf txProcessor d T b.toBlockSpec txs = (b.vars, true) ∧ b.worldState = some ws ∧ order.Perm b.vars.entries ∧
    Working d ws (T.edits [] (batch order))

theorem Followed.later (followed : Followed txProcessor d rest b) (later : Later d d') : Followed txProcessor d' rest b := by
  obtain ⟨ws, T, first, txs, opened, named, listed, replay⟩ := followed
  refine ⟨ws, T, first, txs, opened.later later, named, listed, ?_⟩
  rw [replayOf_kept opened.uncles.stored later.specs, replay]

theorem Recomputed.later (recomputed : Recomputed txProcessor d b) (later : Later d d') : Recomputed txProcessor d' b := by
  obtain ⟨ws, T, order, first, txs, parent, stored, named, listed, replay, state, perm, working⟩ := recomputed
  refine ⟨ws, T, order, first, txs, parent.kept later.grow later.specs, fun u member => ?_, named, listed, ?_, state, perm,
    working.later later⟩
  · rw [later.specs.isSome (stored u member)]
    exact stored u member
  · rw [replayOf_kept stored later.specs, replay]

end Replay

section Handlers

variable [Sha512] [Outside] {cfg : Config} {d d' : Disk} {b b₁ : Block} {ws : MptWorldState} {T : Contents}
  {rest : List Transaction} {tx : Transaction}

/-- What handlers know of their blocks. -/
def replays (cfg : Config) : Knowledge where
  opened _ b := b.miner = cfg.trustee.myAddress
  filled _ _ b := b.miner = cfg.trustee.myAddress
  full _ b := b.miner = cfg.trustee.myAddress
  decoded d b := ∃ ws T, Opened d b ws T ∧ b.vars = ∅
  verified d rest b := Followed cfg.txProcessor d rest b
  checked d b := Recomputed cfg.txProcessor d b

theorem replays_lasts (cfg : Config) : (replays cfg).Lasts where
  opened _ own := own
  filled _ own := own
  full _ own := own
  decoded := by
    rintro d d' b later ⟨ws, T, opened, empty⟩
    exact ⟨ws, T, opened.later later, empty⟩
  verified later followed := Followed.later followed later
  checked later recomputed := Recomputed.later recomputed later

/-- `VerifyMiningRewardTx` credits the reward. -/
theorem Opened.followed (opened : Opened d b ws T) (sound : HashSound (Known d)) (empty : b.vars = ∅)
    (passed : verifyMiningRewardTx d b = some (b₁, true)) : Followed cfg.txProcessor d b₁.txs.tail b₁ := by
  obtain ⟨txs, named, rfl⟩ := opened.verify_eq sound passed
  obtain ⟨first, rest, listed⟩ := List.exists_cons_of_ne_nil txs
  refine ⟨ws, T, first, [], opened.of_fields rfl rfl rfl rfl, named, ?_, ?_⟩
  · change b.txs = first :: ([] ++ b.txs.tail)
    rw [listed]
    rfl
  · change (rewardVars (versionOf T) ∅ b.miner (b.uncles.map (minerAt d)), true) =
      (rewardVars (versionOf T) b.vars b.miner b.uncleMiners, true)
    rw [empty, opened.uncles.miners]

/-- The application accepts the next transaction. -/
theorem Followed.replay (followed : Followed cfg.txProcessor d (tx :: rest) b) (sound : HashSound (Known d))
    (processed : processTx cfg d tx b = some (b₁, true)) : Followed cfg.txProcessor d rest b₁ := by
  obtain ⟨ws, T, first, txs, opened, named, listed, replay⟩ := followed
  unfold processTx at processed
  rw [Script.run_eq opened.working sound _ opened.state] at processed
  simp only [Option.some.injEq, Prod.mk.injEq] at processed
  obtain ⟨rfl, accepted⟩ := processed
  refine ⟨ws, T, first, txs ++ [tx], opened.of_fields rfl rfl rfl rfl, named, ?_, ?_⟩
  · rw [List.append_assoc]
    exact listed
  · unfold replayOf at replay ⊢
    rw [plays_append tx (by rw [replay]), replay]
    exact Prod.ext rfl accepted

/-- `CheckNetworkBlockPoW` persists the overlay. -/
theorem Followed.recomputed {order : List Entry} {inputs : List Bytes} {ws₀ : MptWorldState} {d₁ : Disk} {child : Block}
    (followed : Followed cfg.txProcessor d [] b) (state : b.worldState = some ws₀) (perm : order.Perm b.vars.entries)
    (hashed : Hashed d b ws₀ order inputs d₁ child ws) (sound : HashSound (Known d₁)) :
    Recomputed cfg.txProcessor d₁ child := by
  obtain ⟨ws₁, T, first, txs, opened, named, listed, replay⟩ := followed
  have same : ws₁ = ws₀ := Option.some.inj (opened.state.symm.trans state)
  subst same
  obtain ⟨miners, pow, state', nonce, hash, eq⟩ := hashed.body
  have grow := hashed.persisted.steps.suffix
  have specs : SpecsKept d d₁ := fun h spec found => (hashed.records.spec h).trans found
  have working := opened.working.persistState hashed.result sound
  rw [eq]
  refine ⟨ws, T, order, first, txs, opened.parent.kept grow specs, fun u member => ?_, named, ?_, ?_, rfl, perm, working⟩
  · rw [hashed.records.spec]
    exact opened.uncles.stored u member
  · rw [← List.append_nil txs]
    exact listed
  · have kept : replayOf cfg.txProcessor d₁ T b.toBlockSpec txs = replayOf cfg.txProcessor d T b.toBlockSpec txs :=
      replayOf_kept opened.uncles.stored specs
    exact kept.trans replay

end Handlers

/-! ## Nodes -/

section Nodes

variable [Sha512]

theorem addTransaction_miner (b : Block) (d : Disk) (tx : Transaction) : (b.addTransaction d tx).1.miner = b.miner := by
  rcases addTransaction_cases b d tx with same | ⟨-, -, eq⟩
  · rw [same]
  · rw [eq]

omit [Sha512] in
theorem Replayed.miner {d : Disk} {b b' : Block} (replayed : Replayed d b b') : b'.miner = b.miner := by
  obtain ⟨vars, rfl⟩ := replayed.eq
  rfl

/-- The miner of a block that a submission stores. -/
theorem Submit.stored_miner {s s' : System} {i : Nat} {order : List Entry} {o : Option Outcome}
    (submit : Submit s i order s' o) {h : Byte64} {spec : BlockSpec} (found : getSpec s'.db h = some spec) :
    getSpec s.db h = some spec ∨ ∃ b, s.blocks i = some b ∧ spec.miner = b.miner := by
  cases submit with
  | refused _ _ records =>
    left
    rw [← records.spec]
    exact found
  | added c c' b child ws₀ ws parent d₁ d' inputs outcome engine block state perm valid hashed root result =>
    rw [submitted_db] at found
    rcases result.getSpec_cases h with same | ⟨-, stored⟩
    · left
      rw [← hashed.records.spec, ← same]
      exact found
    · right
      rw [stored, Option.some.injEq] at found
      subst found
      obtain ⟨state', nonce, wire⟩ := hashed.workedOn.wire
      exact ⟨b, block, by rw [wire]⟩

variable [Outside] {cfg : Config} {g : Byte64} {p p' : Platform} {e : Event}

/-- What holds of a node between two events. -/
structure Replaying (cfg : Config) (g : Byte64) (p : Platform) : Prop where
  reached : Reached RebaseOk g p.sys
  miner : ∀ c, p.sys.engine = some c → c.minerId = cfg.trustee.myAddress
  named : ∀ h spec, getSpec p.sys.db h = some spec → h ≠ g → spec.miner ≠ []
  hands : ∀ k t, p.threads k = some t → t.Suits (replays cfg) p.sys.db (p.sys.blocks k)

/-- A block that is submitted has a miner. -/
theorem Replaying.submitted (replaying : Replaying cfg g p) (works : Outside.Works) {k : Nat} {order : List Entry} {a : Action}
    (submits : Submits cfg p e k order a) {b : Block} (block : p.sys.blocks k = some b) : b.miner ≠ [] := by
  cases submits with
  | mine _ _ tries q thread phase =>
    have suits := replaying.hands k _ thread
    simp only [Thread.Suits, phase, Phase.Suits, block, Option.some.injEq] at suits
    obtain ⟨b', rfl, own⟩ := suits
    have own : b.miner = cfg.trustee.myAddress := own
    rw [own]
    exact works.address cfg.trustee.identity
  | accept _ _ tries thread =>
    have suits := replaying.hands k _ thread
    simp only [Thread.Suits, Stage.Suits, block, Option.some.injEq] at suits
    obtain ⟨b', rfl, ws, T, order, first, txs, -, -, named, -⟩ := suits
    exact named

/-- The engine after an event. -/
theorem Replaying.engine (replaying : Replaying cfg g p) (works : Outside.Works) (e : Event) :
    (∀ c, (Platform.step cfg p e).sys.engine = some c → c.minerId = cfg.trustee.myAddress) ∧
      ∀ h spec, getSpec (Platform.step cfg p e).sys.db h = some spec → h ≠ g → spec.miner ≠ [] := by
  have ready := replaying.reached.ready
  rcases step_leads replaying.reached e with quiet | ⟨k, order, a, submits, next⟩
  · obtain ⟨-, records, miner⟩ := quiet.quiet ready replaying.miner
    refine ⟨miner, fun h spec found => replaying.named h spec ?_⟩
    rw [← records.spec]
    exact found
  · have submit := submits.submit ready
    rw [next]
    refine ⟨submit.miner replaying.miner, fun h spec found other => ?_⟩
    rcases submit.stored_miner found with old | ⟨b, block, miner⟩
    · exact replaying.named h spec old other
    · rw [miner]
      exact replaying.submitted works submits block

/-- The calls of an event keep what handlers know. -/
theorem Replaying.replays_kept (replaying : Replaying cfg g p) (later : Later p.sys.db p'.sys.db)
    (sound : HashSound (Known p'.sys.db)) : (replays cfg).Kept cfg p e p' := by
  have sound₀ : HashSound (Known p.sys.db) := sound.of_suffix later.grow
  have script : ∀ {tx : Transaction} {b b₁ : Block} {accepted : Bool}, b.miner = cfg.trustee.myAddress →
      processTx cfg p.sys.db tx b = some (b₁, accepted) → b₁.miner = cfg.trustee.myAddress := by
    intro tx b b₁ accepted own processed
    exact (Script.run_replayed processed).miner.trans own
  constructor
  case candidate =>
    intro k now b next made
    rw [next] at made sound
    obtain ⟨ws, T, -, -, own, -⟩ := candidate_opened replaying.reached replaying.miner replaying.named made sound
    exact own
  case rewarded =>
    intro k order nonce now b b₁ reward _ _ own built
    have first := (newMiningRewardTx_replayed built).miner
    rw [addTransaction_miner] at first
    exact (addTransaction_miner b₁ _ reward).trans (first.trans own)
  case approved => exact script
  case rejected => exact fun _ _ _ _ own processed => script own processed
  case added =>
    intro k q tx b _ _ _ _ own
    exact ⟨(addTransaction_miner b _ tx).trans own, (addTransaction_miner b _ tx).trans own⟩
  case sent => exact fun own _ => own
  case received =>
    intro k spec next outcome
    rw [next] at sound ⊢
    obtain ⟨b, ws, T, block, opened⟩ := decode_opened replaying.reached outcome sound
    exact ⟨b, block, ws, T, opened⟩
  case verified =>
    rintro b b₁ ⟨ws, T, opened, empty⟩ passed
    exact opened.followed sound₀ empty passed
  case replayed =>
    intro tx rest b b₁ followed processed
    exact Followed.replay followed sound₀ processed
  case checked =>
    intro k order tries b next block followed outcome
    obtain ⟨ws₀, inputs, d₁, child, ws, state, perm, hashed, eq⟩ := check_hashed replaying.reached block outcome
    rw [next, eq] at sound ⊢
    exact ⟨child, Function.update_self _ _ _, Followed.recomputed followed state perm hashed sound⟩

/-- **One event.** -/
theorem Replaying.step (replaying : Replaying cfg g p) (works : Outside.Works)
    (leads : Leads RebaseOk p.sys (Platform.step cfg p e).sys) (sound : HashSound (Known (Platform.step cfg p e).sys.db)) :
    Replaying cfg g (Platform.step cfg p e) := by
  obtain ⟨miner, named⟩ := replaying.engine works e
  have later := leads.later replaying.reached sound
  exact ⟨leads.reached replaying.reached, miner, named,
    Knowledge.step (replays_lasts cfg) (replaying.replays_kept later sound) replaying.hands later⟩

theorem replaying_boot {now : UInt64} (started : (Platform.boot cfg now).sys.engine.isSome) :
    Replaying cfg (genesisHash genesisTimeStamp now) (Platform.boot cfg now) := by
  obtain ⟨-, booted⟩ := boot_of_started started
  have sys : (Platform.boot cfg now).sys = _ := booted
  refine ⟨⟨_, _, _, [], started, rfl, trivial, rfl⟩, fun c engine => ?_, fun h spec found other => ?_, ?_⟩
  · rw [sys] at engine
    cases engine
    rfl
  · rw [sys, bootDisk_getSpec, if_neg other] at found
    cases found
  · intro k t thread
    cases thread

end Nodes

/-! ## Producers -/

section Producers

variable [Sha512] [Outside]

/-- Nothing is left in a candidate but its reward and the transactions that it lists: the chain does not know the reward,
a transaction that the application rejects leaves what `Lookup` answers, and neither the chain nor the block knows one that
it accepts. -/
def Faithful (cfg : Config) (p : Platform) : Event → Prop
  | .reward k order nonce now => ∀ b tx, p.sys.blocks k = some b →
      cfg.trustee.rewardTx order nonce now b.uncleMiners = some tx → hasTransaction p.sys.db tx.id = none
  | .process k => ∀ q tx b b₁, p.threads k = some (.producer q) → q.phase = .processing tx → p.sys.blocks k = some b →
      processTx cfg p.sys.db tx b = some (b₁, false) → ∀ key, (b₁.lookup p.sys.db key).2 = (b.lookup p.sys.db key).2
  | .add k => ∀ q tx b, p.threads k = some (.producer q) → q.phase = .adding tx → p.sys.blocks k = some b →
      hasTransaction p.sys.db tx.id = none ∧ tx.id ∉ b.transactions
  | _ => True

/-- The view of the candidate is that of a replay of its transactions `txs`, and of `pending`. -/
structure Fills (cfg : Config) (d : Disk) (pending : List Transaction) (b : Block) (ws : MptWorldState) (T : Contents)
    (reward : Transaction) (txs : List Transaction) : Prop where
  opened : Opened d b ws T
  miner : b.miner = cfg.trustee.myAddress
  named : ∀ uncle ∈ b.uncleMiners, uncle ≠ []
  built : ∃ order nonce ts, cfg.trustee.rewardTx order nonce ts b.uncleMiners = some reward
  listed : b.txs = reward :: txs
  accepted : (replayOf cfg.txProcessor d T b.toBlockSpec (txs ++ pending)).2 = true
  same : SameReplies (versionOf T) b.vars (replayOf cfg.txProcessor d T b.toBlockSpec (txs ++ pending)).1

def InStep (cfg : Config) (d : Disk) (pending : List Transaction) (b : Block) : Prop :=
  ∃ ws T reward txs, Fills cfg d pending b ws T reward txs

/-- What producers know of their candidates. -/
def fills (cfg : Config) : Knowledge where
  opened d b := ∃ ws T, Opened d b ws T ∧ b.vars = ∅ ∧ b.miner = cfg.trustee.myAddress ∧
    (∀ uncle ∈ b.uncleMiners, uncle ≠ []) ∧ b.txs = [] ∧ b.transactions = ∅
  filled d pending b := InStep cfg d pending b
  full d b := InStep cfg d [] b ∧ 2 ≤ b.txs.length
  decoded _ _ := True
  verified _ _ _ := True
  checked _ _ := True

variable {cfg : Config} {d d' : Disk} {pending txs : List Transaction} {b b₁ : Block} {ws : MptWorldState} {T : Contents}
  {tx reward : Transaction}

theorem InStep.later (inStep : InStep cfg d pending b) (later : Later d d') : InStep cfg d' pending b := by
  obtain ⟨ws, T, reward, txs, fills⟩ := inStep
  have kept : replayOf cfg.txProcessor d' T b.toBlockSpec (txs ++ pending) =
      replayOf cfg.txProcessor d T b.toBlockSpec (txs ++ pending) := replayOf_kept fills.opened.uncles.stored later.specs
  refine ⟨ws, T, reward, txs, fills.opened.later later, fills.miner, fills.named, fills.built, fills.listed, ?_, ?_⟩
  · rw [kept]
    exact fills.accepted
  · rw [kept]
    exact fills.same

theorem fills_lasts (cfg : Config) : (fills cfg).Lasts where
  opened := by
    rintro d d' b later ⟨ws, T, opened, rest⟩
    exact ⟨ws, T, opened.later later, rest⟩
  filled later inStep := InStep.later inStep later
  full later full := ⟨InStep.later full.1 later, full.2⟩
  decoded _ _ := trivial
  verified _ _ := trivial
  checked _ _ := trivial

omit [Outside] in
/-- A transaction that is not known is added. -/
theorem Block.addTransaction_new (state : b.worldState = some ws) (unknown : hasTransaction d tx.id = none)
    (unlisted : tx.id ∉ b.transactions) :
    b.addTransaction d tx = ({ b with transactions := insert tx.id b.transactions, txs := b.txs ++ [tx] }, .ok) := by
  unfold Block.addTransaction
  rw [if_neg (by simp [state]), if_neg (by simp [unknown]), if_neg unlisted]

/-- `NewMiningRewardTx`, and `AddTransaction` of the reward that was added before. -/
theorem Opened.inStep (opened : Opened d b ws T) (works : Outside.Works) (sound : HashSound (Known d)) (empty : b.vars = ∅)
    (miner : b.miner = cfg.trustee.myAddress) (named : ∀ uncle ∈ b.uncleMiners, uncle ≠ []) (txs : b.txs = [])
    (fresh : b.transactions = ∅) {order nonce : Nat} {now : UInt64}
    (built : cfg.trustee.newMiningRewardTx order nonce now d b = some (b₁, some reward))
    (unseen : hasTransaction d reward.id = none) : InStep cfg d [] (b₁.addTransaction d reward).1 := by
  have first := newMiningRewardTx_tx built
  have submitter := (rewardTx_built works first).1
  rw [newMiningRewardTx_eq works opened.working sound opened.state named fresh first unseen] at built
  simp only [Option.some.injEq, Prod.mk.injEq, and_true] at built
  subst built
  have again : (Block.addTransaction { b with
      transactions := insert reward.id b.transactions
      txs := b.txs ++ [reward]
      vars := rewardVars (versionOf T) b.vars reward.submitter b.uncleMiners } d reward).1 = { b with
      transactions := insert reward.id b.transactions
      txs := b.txs ++ [reward]
      vars := rewardVars (versionOf T) b.vars reward.submitter b.uncleMiners } := by
    unfold Block.addTransaction
    rw [if_neg (by simp [opened.state]), if_neg (by simp [unseen]), if_pos (by simp)]
  rw [again]
  refine ⟨ws, T, reward, [], opened.of_fields rfl rfl rfl rfl, miner, named, ⟨order, nonce, now, first⟩, ?_, rfl, ?_⟩
  · change b.txs ++ [reward] = [reward]
    rw [txs]
    rfl
  · change SameReplies (versionOf T) (rewardVars (versionOf T) b.vars reward.submitter b.uncleMiners)
      (rewardVars (versionOf T) ∅ b.miner (b.uncles.map (minerAt d)))
    rw [empty, submitter, miner, opened.uncles.miners]
    exact SameReplies.refl _ _

/-- The application accepts a transaction. -/
theorem InStep.approve (inStep : InStep cfg d [] b) (sound : HashSound (Known d))
    (processed : processTx cfg d tx b = some (b₁, true)) : InStep cfg d [tx] b₁ := by
  obtain ⟨ws, T, reward, txs, fills⟩ := inStep
  unfold processTx at processed
  rw [Script.run_eq fills.opened.working sound _ fills.opened.state] at processed
  simp only [Option.some.injEq, Prod.mk.injEq] at processed
  obtain ⟨rfl, verdict⟩ := processed
  have accepted := fills.accepted
  have same := fills.same
  rw [List.append_nil] at accepted same
  obtain ⟨after, alike⟩ := (cfg.txProcessor tx).play_same same
  have more : replayOf cfg.txProcessor d T b.toBlockSpec (txs ++ [tx]) =
      (cfg.txProcessor tx).play (versionOf T) (replayOf cfg.txProcessor d T b.toBlockSpec txs).1 := plays_append tx accepted
  refine ⟨ws, T, reward, txs, fills.opened.of_fields rfl rfl rfl rfl, fills.miner, fills.named, fills.built, fills.listed,
    ?_, ?_⟩
  · change (replayOf cfg.txProcessor d T b.toBlockSpec (txs ++ [tx])).2 = true
    rw [more, ← alike]
    exact verdict
  · change SameReplies (versionOf T) _ (replayOf cfg.txProcessor d T b.toBlockSpec (txs ++ [tx])).1
    rw [more]
    exact after

/-- The application rejects a transaction, and leaves the view. -/
theorem InStep.reject (inStep : InStep cfg d [] b) (sound : HashSound (Known d))
    (processed : processTx cfg d tx b = some (b₁, false)) (view : ∀ key, (b₁.lookup d key).2 = (b.lookup d key).2) :
    InStep cfg d [] b₁ := by
  obtain ⟨ws, T, reward, txs, fills⟩ := inStep
  unfold processTx at processed
  rw [Script.run_eq fills.opened.working sound _ fills.opened.state] at processed
  simp only [Option.some.injEq, Prod.mk.injEq] at processed
  obtain ⟨rfl, -⟩ := processed
  refine ⟨ws, T, reward, txs, fills.opened.of_fields rfl rfl rfl rfl, fills.miner, fills.named, fills.built, fills.listed,
    fills.accepted, SameReplies.trans (fun key => ?_) fills.same⟩
  have answers := view key
  rw [lookup_eq fills.opened.working sound fills.opened.state, lookup_eq fills.opened.working sound] at answers
  · exact answers
  · exact fills.opened.state

/-- `AddTransaction` of the transaction that was accepted. -/
theorem InStep.add (inStep : InStep cfg d [tx] b) (unknown : hasTransaction d tx.id = none)
    (unlisted : tx.id ∉ b.transactions) :
    InStep cfg d [] (b.addTransaction d tx).1 ∧ 2 ≤ (b.addTransaction d tx).1.txs.length := by
  obtain ⟨ws, T, reward, txs, fills⟩ := inStep
  rw [Block.addTransaction_new fills.opened.state unknown unlisted]
  refine ⟨⟨ws, T, reward, txs ++ [tx], fills.opened.of_fields rfl rfl rfl rfl, fills.miner, fills.named, fills.built, ?_, ?_,
    ?_⟩, ?_⟩
  · change b.txs ++ [tx] = reward :: (txs ++ [tx])
    rw [fills.listed]
    rfl
  · rw [List.append_nil]
    exact fills.accepted
  · rw [List.append_nil]
    exact fills.same
  · simp [fills.listed]

variable {g : Byte64} {p p' : Platform} {e : Event}

/-- The calls of such an event keep the candidates in step. -/
theorem Replaying.fills_kept (replaying : Replaying cfg g p) (works : Outside.Works) (faithful : Faithful cfg p e)
    (later : Later p.sys.db p'.sys.db) (sound : HashSound (Known p'.sys.db)) : (fills cfg).Kept cfg p e p' := by
  have sound₀ : HashSound (Known p.sys.db) := sound.of_suffix later.grow
  constructor
  case candidate =>
    intro k now b next made
    rw [next] at made sound ⊢
    obtain ⟨ws, T, opened, empty, own, named⟩ :=
      candidate_opened replaying.reached replaying.miner replaying.named made sound
    exact ⟨ws, T, opened, empty, own, named, candidate_empty replaying.reached made⟩
  case rewarded =>
    rintro k order nonce now b b₁ reward rfl block ⟨ws, T, opened, empty, own, named, txs, fresh⟩ built
    exact opened.inStep works sound₀ empty own named txs fresh built (faithful b reward block (newMiningRewardTx_tx built))
  case approved => exact fun inStep processed => InStep.approve inStep sound₀ processed
  case rejected =>
    rintro k q tx b b₁ rfl thread phase block inStep processed
    exact InStep.reject inStep sound₀ processed (faithful q tx b b₁ thread phase block processed)
  case added =>
    rintro k q tx b rfl thread phase block inStep
    obtain ⟨unknown, unlisted⟩ := faithful q tx b thread phase block
    obtain ⟨after, several⟩ := InStep.add inStep unknown unlisted
    exact ⟨after, after, several⟩
  case sent => exact fun inStep several => ⟨inStep, several⟩
  case received =>
    intro k spec next outcome
    rw [next] at sound ⊢
    obtain ⟨b, -, -, block, -⟩ := decode_opened replaying.reached outcome sound
    exact ⟨b, block, trivial⟩
  case verified => exact fun _ _ => trivial
  case replayed => exact fun _ _ => trivial
  case checked =>
    intro k order tries b next block _ outcome
    obtain ⟨-, -, d₁, child, -, -, -, -, eq⟩ := check_hashed replaying.reached block outcome
    rw [next, eq]
    exact ⟨child, Function.update_self _ _ _, trivial⟩

/-- **Every run of a node.** -/
theorem Platform.Reached.replaying {Q : Platform → Event → Prop} (works : Outside.Works)
    (reached : Platform.Reached cfg RebaseOk Q g p) (sound : HashSound (Known p.sys.db)) : Replaying cfg g p := by
  refine reached.invariant_sound (Replaying cfg g) rebaseOk_fills sound (fun now started genesis => ?_)
    fun p e replaying _ leads sound => replaying.step works leads sound
  rw [← genesis]
  exact replaying_boot started

/-- **Every run that leaves nothing else in the candidates.** -/
theorem Platform.Reached.fills (works : Outside.Works) (reached : Platform.Reached cfg RebaseOk (Faithful cfg) g p)
    (sound : HashSound (Known p.sys.db)) (k : Nat) (t : Thread) (thread : p.threads k = some t) :
    t.Suits (TrustNet.fills cfg) p.sys.db (p.sys.blocks k) := by
  refine (reached.invariant_sound (fun p => Replaying cfg g p ∧
    ∀ k t, p.threads k = some t → t.Suits (TrustNet.fills cfg) p.sys.db (p.sys.blocks k)) rebaseOk_fills sound
    (fun now started genesis => ?_) fun p e inv faithful leads sound => ?_).2 k t thread
  · rw [← genesis]
    exact ⟨replaying_boot started, fun k t thread => by cases thread⟩
  · obtain ⟨replaying, hands⟩ := inv
    have later := leads.later replaying.reached sound
    exact ⟨replaying.step works leads sound,
      Knowledge.step (fills_lasts cfg) (replaying.fills_kept works faithful later sound) hands later⟩

end Producers

/-! ## A block on two nodes -/

section Peers

variable [Sha512]

/-- Nodes with the same record of the parent start on the same contents. -/
theorem OnParent.contents_eq {d d' : Disk} {b b' : Block} {T T' : Contents} (first : OnParent d b T)
    (second : OnParent d' b' T') (parent : b'.phash = b.phash) (stored : getSpec d' b.phash = getSpec d b.phash)
    (sound : HashSound fun n => Known d n ∨ Known d' n) : T = T' := by
  obtain ⟨ws, spec, holds, found, root⟩ := first
  obtain ⟨ws', spec', holds', found', root'⟩ := second
  rw [parent, stored, found, Option.some.injEq] at found'
  subst found'
  exact holds.contents_eq sound holds' (root.symm.trans root')

/-- Overlays with the same replies are persisted to the same root, on one node and on another. -/
theorem SameReplies.root_eq {d d' : Disk} {ws ws' : MptWorldState} {T : Contents} {vars vars' : Variables}
    {order order' : List Entry} (same : SameReplies (versionOf T) vars vars') (closed : T.Closed)
    (perm : order.Perm vars.entries) (perm' : order'.Perm vars'.entries) (working : Working d ws (T.edits [] (batch order)))
    (working' : Working d' ws' (T.edits [] (batch order'))) : ws'.rootHash = ws.rootHash := by
  have holds := working'.holds
  rw [← same.edits_eq closed perm perm'] at holds
  exact holds.hash_eq working.holds

variable [Outside] {cfg cfg' : Config} {g g' : Byte64} {p r : Platform} {k j : Nat} {q : Producer} {order : List Entry}
  {tries : Nat} {child b : Block} {stage : Stage}

/-- The next check of `processBlock` passes, and the root that it recomputes is the state of the block. -/
def Passes (cfg : Config) (r : Platform) (j : Nat) (b : Block) : Stage → Prop
  | .decoded => (Platform.step cfg r (.verify j)).threads j = some (.handler (.verified b.txs.tail))
  | .verified (_ :: rest) => (Platform.step cfg r (.replay j)).threads j = some (.handler (.verified rest))
  | .verified [] => ∃ ws, b.worldState = some ws ∧ ∀ order, order.Perm b.vars.entries →
      HashSound (Known (persistState r.sys.db ws order false).1) →
      (persistState r.sys.db ws order false).2.rootHash = b.state
  | .checked => ∃ ws, b.worldState = some ws ∧ ws.rootHash = b.state

theorem verify_goes_on {b₁ : Block} (alive : r.alive = true) (thread : r.threads j = some (.handler .decoded))
    (block : r.sys.blocks j = some b) (several : 2 ≤ b.txs.length)
    (passed : verifyMiningRewardTx r.sys.db b = some (b₁, true)) :
    (Platform.step cfg r (.verify j)).threads j = some (.handler (.verified b₁.txs.tail)) := by
  have many : ¬ b.txs.length < 2 := Nat.not_lt.mpr several
  simp [Platform.step, alive, Platform.next, Platform.verify, Platform.onHandler, thread, block, many, passed]

theorem replay_goes_on {b₁ : Block} {tx : Transaction} {rest : List Transaction} (alive : r.alive = true)
    (thread : r.threads j = some (.handler (.verified (tx :: rest)))) (block : r.sys.blocks j = some b)
    (processed : processTx cfg r.sys.db tx b = some (b₁, true)) :
    (Platform.step cfg r (.replay j)).threads j = some (.handler (.verified rest)) := by
  simp [Platform.step, alive, Platform.next, Platform.replay, Platform.onHandler, thread, block, processed]

/-- A block that the producer sent, and that was mined: what was in its hands, and the root that mining gave it. -/
theorem mined_inStep (works : Outside.Works) (producer : Platform.Reached cfg RebaseOk (Faithful cfg) g p)
    (thread : p.threads k = some (.producer q)) (phase : q.phase = .mining)
    (mined : p.sys.mined k (some cfg.powApprover) order tries = some child)
    (sound : HashSound (Known (p.sys.next (.mine k (some cfg.powApprover) order tries)).db)) :
    ∃ b₀ ws₀ d₁ ws T reward txs nonce, Fills cfg p.sys.db [] b₀ ws₀ T reward txs ∧ 2 ≤ b₀.txs.length ∧
      child.toBlockSpec = { b₀.toBlockSpec with state := ws.rootHash, nonce } ∧ order.Perm b₀.vars.entries ∧
      Working d₁ ws (T.edits [] (batch order)) := by
  have reached := producer.sys rebaseOk_fills
  obtain ⟨c, b₀, engine, block, perm⟩ : ∃ c b₀, p.sys.engine = some c ∧ p.sys.blocks k = some b₀ ∧
      order.Perm b₀.vars.entries := by
    unfold System.mined at mined
    split at mined
    · rename_i c b₀ engine block
      split at mined
      · rename_i guard
        exact ⟨c, b₀, engine, block, guard.2⟩
      · cases mined
    · cases mined
  obtain ⟨-, parent, inputs, d₁, ws₀, ws, c', d', valid, state, hashed, root, result, next⟩ :=
    mined_added reached.ready engine block mined
  rw [next, submitted_db] at sound
  have sound₁ : HashSound (Known d₁) := sound.of_suffix result.writes.suffix
  have suits := producer.fills works (sound₁.of_suffix hashed.persisted.steps.suffix) k _ thread
  simp only [Thread.Suits, phase, Phase.Suits, block, Option.some.injEq] at suits
  obtain ⟨b', rfl, ⟨ws', T, reward, txs, fills⟩, several⟩ := suits
  have same : ws' = ws₀ := Option.some.inj (fills.opened.state.symm.trans state)
  subst same
  obtain ⟨miners, pow, state', nonce, hash, eq⟩ := hashed.body
  refine ⟨b₀, ws', d₁, ws, T, reward, txs, nonce, fills, several, ?_, perm,
    fills.opened.working.persistState hashed.result sound₁⟩
  rw [eq] at root ⊢
  simp only at root ⊢
  rw [root]

/-- A block in the hands of a peer is the one that was sent, and the peer has the records of its parent and its uncles. -/
structure Delivered (d d' : Disk) (b₀ b : Block) : Prop where
  parent : b.phash = b₀.phash
  txs : b.txs = b₀.txs
  miner : b.miner = b₀.miner
  uncles : b.uncles = b₀.uncles
  stored : ∀ h ∈ b₀.phash :: b₀.uncles, getSpec d' h = getSpec d h
  sound : HashSound fun n => Known d n ∨ Known d' n

section Delivered

variable {d d' : Disk} {b₀ : Block} {ws₀ ws : MptWorldState} {T T' : Contents} {reward first tx : Transaction}
  {txs txs' rest : List Transaction}

omit [Outside] in
theorem Delivered.uncle_stored (delivered : Delivered d d' b₀ b) (u : Byte64) (member : u ∈ b₀.uncles) :
    getSpec d' u = getSpec d u := delivered.stored u (List.mem_cons_of_mem _ member)

omit [Outside] in
theorem Delivered.replayOf_eq (delivered : Delivered d d' b₀ b) (txProcessor : Transaction → Script) (T : Contents)
    (txs : List Transaction) :
    replayOf txProcessor d' T b.toBlockSpec txs = replayOf txProcessor d T b₀.toBlockSpec txs := by
  unfold replayOf
  rw [delivered.miner, delivered.uncles, map_minerAt delivered.uncle_stored]

omit [Outside] in
theorem Delivered.contents_eq (delivered : Delivered d d' b₀ b) (parent₀ : OnParent d b₀ T) (parent : OnParent d' b T') :
    T = T' :=
  parent₀.contents_eq parent delivered.parent (delivered.stored _ List.mem_cons_self) delivered.sound

/-- The reward passes. -/
theorem Fills.verifies (fills : Fills cfg d [] b₀ ws₀ T reward txs) (delivered : Delivered d d' b₀ b) (works : Outside.Works)
    (opened : Opened d' b ws T') :
    ∃ vars, verifyMiningRewardTx d' b = some ({ b with vars }, true) := by
  obtain ⟨order, nonce, ts, built⟩ := fills.built
  have listed : b.txs = reward :: txs := delivered.txs.trans fills.listed
  have miners : b.uncleMiners = b₀.uncleMiners := by
    rw [opened.uncles.miners, fills.opened.uncles.miners, delivered.uncles, map_minerAt delivered.uncle_stored]
  exact ⟨_, verifyMiningRewardTx_eq works opened.working (delivered.sound.mono fun _ => Or.inr) opened.state fills.named built
    listed (delivered.miner.trans fills.miner) miners⟩

/-- The next transaction is accepted. -/
theorem Fills.accepts (fills : Fills cfg d [] b₀ ws₀ T reward txs) (delivered : Delivered d d' b₀ b)
    (same : cfg'.txProcessor = cfg.txProcessor) (followed : Followed cfg'.txProcessor d' (tx :: rest) b) :
    ∃ b₁, processTx cfg' d' tx b = some (b₁, true) := by
  obtain ⟨ws, T', first, done, opened, -, listed, replay⟩ := followed
  obtain rfl := delivered.contents_eq fills.opened.parent opened.parent
  rw [delivered.txs, fills.listed, List.cons.injEq] at listed
  have accepted := fills.accepted
  rw [List.append_nil, listed.2] at accepted
  rw [same, delivered.replayOf_eq] at replay
  unfold replayOf at accepted replay
  obtain ⟨-, split⟩ := plays_split accepted
  rw [split, replay] at accepted
  unfold processTx
  rw [Script.run_eq opened.working (delivered.sound.mono fun _ => Or.inr) _ opened.state, same, plays_head accepted]
  exact ⟨_, rfl⟩

/-- After the last transaction the peer has the view of the producer. -/
theorem Fills.same_view (fills : Fills cfg d [] b₀ ws₀ T reward txs) (delivered : Delivered d d' b₀ b)
    (same : cfg'.txProcessor = cfg.txProcessor) (listed : b.txs = first :: txs')
    (replay : replayOf cfg'.txProcessor d' T b.toBlockSpec txs' = (b.vars, true)) :
    SameReplies (versionOf T) b₀.vars b.vars := by
  have view := fills.same
  rw [delivered.txs, fills.listed, List.cons.injEq] at listed
  rw [List.append_nil, listed.2] at view
  rw [same, delivered.replayOf_eq] at replay
  rw [replay] at view
  exact view

end Delivered

/-- **A produced block replays.** A producer that leaves nothing else in its candidates sends a block, which is mined. A
peer with the same application, on which the parent and the uncles of the block are recorded as on the producer's node,
has the block in hand. Then the block passes the next check of `processBlock` there, whichever it is, and when the
transactions are replayed the state of the block is recomputed. -/
theorem produced_block_replays (works : Outside.Works) (producer : Platform.Reached cfg RebaseOk (Faithful cfg) g p)
    (thread : p.threads k = some (.producer q)) (phase : q.phase = .mining)
    (mined : p.sys.mined k (some cfg.powApprover) order tries = some child)
    (peer : Platform.Reached cfg' RebaseOk (fun _ _ => True) g' r) (same : cfg'.txProcessor = cfg.txProcessor)
    (handler : r.threads j = some (.handler stage)) (block : r.sys.blocks j = some b)
    (wire : b.toBlockSpec = child.toBlockSpec)
    (stored : ∀ h ∈ child.phash :: child.uncles, getSpec r.sys.db h = getSpec p.sys.db h)
    (sound : HashSound fun n =>
      Known (p.sys.next (.mine k (some cfg.powApprover) order tries)).db n ∨ Known r.sys.db n) :
    Passes cfg' r j b stage := by
  have grow := run_grows (producer.sys rebaseOk_fills).ready [.mine k (some cfg.powApprover) order tries]
  obtain ⟨b₀, ws₀, d₁, ws, T, reward, txs, nonce, fills, several, sent, perm, working⟩ :=
    mined_inStep works producer thread phase mined (sound.mono fun _ => Or.inl)
  rw [sent] at stored wire
  have root : b.state = ws.rootHash := by rw [wire]
  have delivered : Delivered p.sys.db r.sys.db b₀ b := by
    refine ⟨by rw [wire], by rw [wire], by rw [wire], by rw [wire], stored, sound.mono fun n known => ?_⟩
    exact known.imp_left (Known.mono grow n)
  have closed : T.Closed := fills.opened.working.holds.rep.closed
  have alive := peer.alive rebaseOk_fills handler
  have suits := (peer.replaying works (sound.mono fun _ => Or.inr)).hands j _ handler
  cases stage with
  | decoded =>
    simp only [Thread.Suits, Stage.Suits, block, Option.some.injEq] at suits
    obtain ⟨b', rfl, ws', T', opened, -⟩ := suits
    obtain ⟨vars, passed⟩ := fills.verifies delivered works opened
    have many : 2 ≤ b.txs.length := by
      rw [delivered.txs]
      exact several
    have next := @verify_goes_on _ _ cfg' r j b _ alive handler block many passed
    exact next
  | verified rest =>
    simp only [Thread.Suits, Stage.Suits, block, Option.some.injEq] at suits
    obtain ⟨b', rfl, followed⟩ := suits
    cases rest with
    | cons tx rest =>
      obtain ⟨b₁, processed⟩ := fills.accepts delivered same followed
      exact replay_goes_on alive handler block processed
    | nil =>
      obtain ⟨ws', T', first, txs', opened, -, listed, replay⟩ := followed
      obtain rfl := delivered.contents_eq fills.opened.parent opened.parent
      rw [List.append_nil] at listed
      have view := fills.same_view delivered same listed replay
      refine ⟨ws', opened.state, fun order' perm' sound' => ?_⟩
      rw [root]
      exact view.root_eq closed perm perm' working (opened.working.persistState rfl sound')
  | checked =>
    simp only [Thread.Suits, Stage.Suits, block, Option.some.injEq] at suits
    obtain ⟨b', rfl, ws', T', order', first, txs', parent, -, -, listed, replay, state, perm', working'⟩ := suits
    obtain rfl := delivered.contents_eq fills.opened.parent parent
    have view := fills.same_view delivered same listed replay
    exact ⟨ws', state, (view.root_eq closed perm perm' working working').trans root.symm⟩

end Peers

/-! ## Two nodes -/

section Worked

attribute [local instance] Plain.sha512 Plain.outside

namespace Worked

/-- The transaction of the event is accepted and new, or the reward is new. -/
def listing (cfg : Config) (p : Platform) : Event → Bool
  | .reward k order nonce now =>
    (p.sys.blocks k).all fun b =>
      (cfg.trustee.rewardTx order nonce now b.uncleMiners).all fun tx => (hasTransaction p.sys.db tx.id).isNone
  | .process k =>
    match p.threads k, p.sys.blocks k with
    | some (.producer ⟨_, _, .processing tx⟩), some b => (processTx cfg p.sys.db tx b).all Prod.snd
    | _, _ => true
  | .add k =>
    match p.threads k, p.sys.blocks k with
    | some (.producer ⟨_, _, .adding tx⟩), some b => decide (hasTransaction p.sys.db tx.id = none ∧ tx.id ∉ b.transactions)
    | _, _ => true
  | _ => true

theorem faithful_of_listing (cfg : Config) (p : Platform) (e : Event) (lists : listing cfg p e = true) :
    Faithful cfg p e := by
  cases e with
  | reward k order nonce now =>
    intro b tx block built
    simpa [listing, block, built] using lists
  | process k =>
    rintro ⟨newBlock, txCount, phase⟩ tx b b₁ thread rfl block processed
    simp [listing, thread, block, processed] at lists
  | add k =>
    rintro ⟨newBlock, txCount, phase⟩ tx b thread rfl block
    simpa [listing, thread, block] using lists
  | _ => trivial

def isMining : Thread → Bool
  | .producer ⟨_, _, .mining⟩ => true
  | _ => false

def isReplayed : Thread → Bool
  | .handler (.verified []) => true
  | _ => false

/-- Node 1 fills a block with transaction 1, and sends it for mining. -/
def sending : List Event := Plain.startProducer ++ .submit (Plain.transfer 1) :: Plain.fillBlock ++ [.expire 1]

/-- The same, after a transaction that the application rejects. -/
def tainting : List Event := Plain.startProducer ++ [.submit (Plain.transfer 0), .submit (Plain.transfer 1), .take 1,
  .candidate 1 0x200001, .reward 1 0 0 0x200001, .process 1, .take 1, .process 1, .add 1, .expire 1]

/-- The block is mined, and replayed by a peer. -/
def replaying (p : Platform) (order : List Entry) : List Event :=
  ((p.sys.mined 1 (some (Plain.config 1).powApprover) order 1).map fun child => Event.receive 1 child.toBlockSpec).toList ++
    [.verify 1, .replay 1]

/-- A producer that has sent its block, and a peer that has replayed it. -/
def Delivers (p r : Platform) (order : List Entry) : Prop :=
  (p.threads 1).any isMining = true ∧ (r.threads 1).any isReplayed = true ∧
    ((p.sys.mined 1 (some (Plain.config 1).powApprover) order 1).any fun child => (r.sys.blocks 1).any fun b =>
      decide (b.toBlockSpec = child.toBlockSpec ∧
        ∀ h ∈ child.phash :: child.uncles, getSpec r.sys.db h = getSpec p.sys.db h)) = true

instance (p r : Platform) (order : List Entry) : Decidable (Delivers p r order) := inferInstanceAs (Decidable (_ ∧ _ ∧ _))

theorem Delivers.found {p r : Platform} {order : List Entry} (delivers : Delivers p r order) :
    ∃ q child b, p.threads 1 = some (.producer q) ∧ q.phase = .mining ∧
      p.sys.mined 1 (some (Plain.config 1).powApprover) order 1 = some child ∧
      r.threads 1 = some (.handler (.verified [])) ∧ r.sys.blocks 1 = some b ∧ b.toBlockSpec = child.toBlockSpec ∧
      ∀ h ∈ child.phash :: child.uncles, getSpec r.sys.db h = getSpec p.sys.db h := by
  obtain ⟨mining, replayed, sent⟩ := delivers
  obtain ⟨t, thread, mining⟩ := (Option.any_eq_true _ _).mp mining
  obtain ⟨t', handler, replayed⟩ := (Option.any_eq_true _ _).mp replayed
  obtain ⟨child, mined, sent⟩ := (Option.any_eq_true _ _).mp sent
  obtain ⟨b, block, same⟩ := (Option.any_eq_true _ _).mp sent
  obtain ⟨wire, stored⟩ := of_decide_eq_true same
  unfold isMining at mining
  split at mining
  · unfold isReplayed at replayed
    split at replayed
    · exact ⟨_, child, b, thread, rfl, mined, handler, block, wire, stored⟩
    · cases replayed
  · cases mining

/-- A run of the node with the address, each event of which passes the check. -/
def runs (address : UInt8) (check : Platform → Event → Bool) (events : List Event) : Bool :=
  decide ((Platform.boot (Plain.config address) 0).sys.engine.isSome ∧
    Platform.Along (Plain.config address) (Platform.boot (Plain.config address) 0)
      (fun p e => (Plain.config address).Permits RebaseOk p e ∧ check p e = true) events)

theorem reached {Q : Platform → Event → Prop} {address : UInt8} {check : Platform → Event → Bool} {events : List Event}
    (passes : ∀ p e, check p e = true → Q p e) (ran : runs address check events = true) :
    Platform.Reached (Plain.config address) RebaseOk Q (genesisHash genesisTimeStamp 0)
      (Platform.run (Plain.config address) (Platform.boot (Plain.config address) 0) events) := by
  obtain ⟨started, along⟩ := of_decide_eq_true ran
  exact ⟨0, events, started, rfl, along.mono fun p e step => ⟨step.1, passes p e step.2⟩, rfl⟩

end Worked

theorem produced_block_replays_mined :
    let p := Platform.run (Plain.config 1) (Platform.boot (Plain.config 1) 0) Worked.sending
    let r := Platform.run (Plain.config 2) (Platform.boot (Plain.config 2) 0) (Worked.replaying p [Worked.fundedEntry])
    ∃ b, r.sys.blocks 1 = some b ∧ b.txs.length = 2 ∧ Passes (Plain.config 2) r 1 b (.verified []) := by
  intro p r
  have run : Worked.runs 1 (Worked.listing (Plain.config 1)) Worked.sending = true ∧
      Worked.runs 2 (fun _ _ => true) (Worked.replaying p [Worked.fundedEntry]) = true ∧
      Worked.Delivers p r [Worked.fundedEntry] ∧ (r.sys.blocks 1).all (fun b => b.txs.length = 2) = true ∧
      Plain.Covered (p.sys.next (.mine 1 (some (Plain.config 1).powApprover) [Worked.fundedEntry] 1)).db ∧
      Plain.Covered r.sys.db := by decide +kernel
  obtain ⟨ran, ran', delivers, several, covered, covered'⟩ := run
  have producer : Platform.Reached (Plain.config 1) RebaseOk (Faithful (Plain.config 1)) (genesisHash genesisTimeStamp 0) p :=
    Worked.reached (Worked.faithful_of_listing (Plain.config 1)) ran
  clear_value p
  have peer : Platform.Reached (Plain.config 2) RebaseOk (fun _ _ => True) (genesisHash genesisTimeStamp 0) r :=
    Worked.reached (fun _ _ _ => trivial) ran'
  clear_value r
  obtain ⟨q, child, b, thread, phase, mined, handler, block, wire, stored⟩ := delivers.found
  have sound : HashSound fun n => Known (p.sys.next (.mine 1 (some (Plain.config 1).powApprover) [Worked.fundedEntry] 1)).db n ∨
      Known r.sys.db n :=
    Plain.hashSound_of_covered fun n known => known.elim (fun known => ⟨_, known, covered⟩) fun known => ⟨_, known, covered'⟩
  rw [block] at several
  exact ⟨b, block, of_decide_eq_true several,
    produced_block_replays Plain.outside_works producer thread phase mined peer rfl handler block wire stored sound⟩

/-- The application rejects transaction 0 after it set k. The next candidate has k, and the peer that replays it does
not. -/
theorem Worked.rejected_write_stays :
    let p := Platform.run (Plain.config 1) (Platform.boot (Plain.config 1) 0) Worked.tainting
    let order : List Entry := [Worked.fundedEntry, ⟨[107], some [1]⟩]
    let r := Platform.run (Plain.config 2) (Platform.boot (Plain.config 2) 0) (Worked.replaying p order)
    Platform.Reached (Plain.config 1) RebaseOk (fun _ _ => True) (genesisHash genesisTimeStamp 0) p ∧
    Platform.Reached (Plain.config 2) RebaseOk (fun _ _ => True) (genesisHash genesisTimeStamp 0) r ∧
    (HashSound fun n => Known (p.sys.next (.mine 1 (some (Plain.config 1).powApprover) order 1)).db n ∨ Known r.sys.db n) ∧
    (Plain.config 2).txProcessor = (Plain.config 1).txProcessor ∧
    ∃ q child b, p.threads 1 = some (.producer q) ∧ q.phase = .mining ∧
      p.sys.mined 1 (some (Plain.config 1).powApprover) order 1 = some child ∧
      r.threads 1 = some (.handler (.verified [])) ∧ r.sys.blocks 1 = some b ∧ b.toBlockSpec = child.toBlockSpec ∧
      (∀ h ∈ child.phash :: child.uncles, getSpec r.sys.db h = getSpec p.sys.db h) ∧
      ¬ Passes (Plain.config 2) r 1 b (.verified []) := by
  intro p order r
  have run : Worked.runs 1 (fun _ _ => true) Worked.tainting = true ∧
      Worked.runs 2 (fun _ _ => true) (Worked.replaying p order) = true ∧
      Worked.Delivers p r order ∧
      (r.sys.blocks 1).all (fun b => b.worldState.all fun ws =>
        let persisted := persistState r.sys.db ws [Worked.fundedEntry] false
        decide ([Worked.fundedEntry].Perm b.vars.entries ∧ Plain.Covered persisted.1 ∧
          persisted.2.rootHash ≠ b.state)) = true ∧
      Plain.Covered (p.sys.next (.mine 1 (some (Plain.config 1).powApprover) order 1)).db ∧
      Plain.Covered r.sys.db := by decide +kernel
  obtain ⟨ran, ran', delivers, differ, covered, covered'⟩ := run
  have producer : Platform.Reached (Plain.config 1) RebaseOk (fun _ _ => True) (genesisHash genesisTimeStamp 0) p :=
    Worked.reached (fun _ _ _ => trivial) ran
  clear_value p
  have peer : Platform.Reached (Plain.config 2) RebaseOk (fun _ _ => True) (genesisHash genesisTimeStamp 0) r :=
    Worked.reached (fun _ _ _ => trivial) ran'
  clear_value r
  obtain ⟨q, child, b, thread, phase, mined, handler, block, wire, stored⟩ := delivers.found
  refine ⟨producer, peer, ?_, rfl, q, child, b, thread, phase, mined, handler, block, wire, stored, ?_⟩
  · exact Plain.hashSound_of_covered fun n known =>
      known.elim (fun known => ⟨_, known, covered⟩) fun known => ⟨_, known, covered'⟩
  · rintro ⟨ws, state, recomputed⟩
    simp only [block, state, Option.all_some, decide_eq_true_eq] at differ
    obtain ⟨perm, covered, ne⟩ := differ
    exact ne (recomputed _ perm (Plain.hashSound_of_covered fun n known => ⟨_, known, covered⟩))

end Worked

end TrustNet
