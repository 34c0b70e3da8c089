import TrustNet.Lib.TreeFold
import TrustNet.Network.Conservation
import TrustNet.Network.Produced

/-!
# The chain as a replicated machine

What a node is for: its keys are the state of a machine, and a block is a step of it.
`applyBlock` is that step, as a function of the keys, of the block and of the miners of its
uncles: the rewards, the transactions as the application processes them, and the empty
values left out. The state that a stored block names is the step of the state of its parent,
so the keys at a block are the fold of the blocks on its branch, and at the tip that of the
main list.

A node replays what others send, so this holds of their blocks whatever they do. Its own
blocks are stored without a replay, and are steps as long as the producer leaves nothing
else in its candidates.
-/

namespace TrustNet
set_option autoImplicit false
open ParentTree (Anc PathTo)

/-! ## The machine -/

/-- The step of the machine. A block with a transaction that is rejected is no step. -/
def applyBlock (txProcessor : Transaction → Script) (minerOf : Byte64 → Bytes) (version : Version) (spec : BlockSpec) :
    Option Version :=
  match plays txProcessor version spec.txs.tail (rewardVars version ∅ spec.miner (spec.uncles.map minerOf)) with
  | (vars, true) => some fun key => (effective version vars key).bind nonEmpty
  | (_, false) => none

section Machine

variable {txProcessor : Transaction → Script} {d d' : Disk} {T : Contents} {spec : BlockSpec} {vars : Variables}

theorem applyBlock_replayOf (accepted : (replayOf txProcessor d T spec spec.txs.tail).2 = true) :
    applyBlock txProcessor (minerAt d) (versionOf T) spec =
      some fun key => (effective (versionOf T) (replayOf txProcessor d T spec spec.txs.tail).1 key).bind nonEmpty := by
  unfold replayOf at accepted ⊢
  unfold applyBlock
  generalize plays txProcessor (versionOf T) spec.txs.tail
    (rewardVars (versionOf T) ∅ spec.miner (spec.uncles.map (minerAt d))) = replay at accepted ⊢
  obtain ⟨vars, verdict⟩ := replay
  cases accepted
  rfl

theorem applyBlock_kept (version : Version) (stored : ∀ u ∈ spec.uncles, (getSpec d u).isSome) (specs : SpecsKept d d') :
    applyBlock txProcessor (minerAt d') version spec = applyBlock txProcessor (minerAt d) version spec := by
  unfold applyBlock
  rw [map_minerAt fun u member => specs.isSome (stored u member)]

theorem SameReplies.effective_eq {version : Version} {vars vars' : Variables} (same : SameReplies version vars vars') :
    effective version vars = effective version vars' := by
  funext key
  rw [← found_reply, ← found_reply, same key]

/-- What is persisted of an overlay with the replies of the replay is the step. -/
theorem applyBlock_persisted {order : List Entry} (accepted : (replayOf txProcessor d T spec spec.txs.tail).2 = true)
    (same : SameReplies (versionOf T) vars (replayOf txProcessor d T spec spec.txs.tail).1) (perm : order.Perm vars.entries) :
    applyBlock txProcessor (minerAt d) (versionOf T) spec = some (versionOf (T.edits [] (batch order))) := by
  rw [applyBlock_replayOf accepted, Option.some.injEq]
  funext key
  rw [versionOf_persisted T perm, same.effective_eq]

end Machine

/-! ## Submissions -/

section Submissions

variable [Sha512] {txProcessor : Transaction → Script} {d d' : Disk} {spec : BlockSpec} {b child : Block}
  {ws ws₀ : MptWorldState}

/-- The state of the block is the step of the state of its parent. -/
def Executed (txProcessor : Transaction → Script) (d : Disk) (spec : BlockSpec) : Prop :=
  ∃ parent ws₀ ws T₀ T, getSpec d spec.phash = some parent ∧ (∀ u ∈ spec.uncles, (getSpec d u).isSome) ∧
    Holds d ws₀ T₀ ∧ parent.state = ws₀.rootHash ∧ Holds d ws T ∧ spec.state = ws.rootHash ∧
    applyBlock txProcessor (minerAt d) (versionOf T₀) spec = some (versionOf T)

theorem Executed.kept (executed : Executed txProcessor d spec) (grow : d.log <:+ d'.log) (specs : SpecsKept d d') :
    Executed txProcessor d' spec := by
  obtain ⟨parent, ws₀, ws, T₀, T, found, stored, holds₀, root₀, holds, root, step⟩ := executed
  refine ⟨parent, ws₀, ws, T₀, T, specs _ _ found, fun u member => ?_, holds₀.of_suffix grow, root₀, holds.of_suffix grow,
    root, ?_⟩
  · rw [specs.isSome (stored u member)]
    exact stored u member
  · rw [applyBlock_kept _ stored specs, step]

section Hashed

variable {order : List Entry} {inputs : List Bytes} {d₁ : Disk} {T T' : Contents}

/-- A block is hashed, and what was persisted is the step. -/
theorem Hashed.executed (hashed : Hashed d b ws₀ order inputs d₁ child ws) (root : child.state = ws.rootHash)
    (parent : OnParent d b T) (stored : ∀ u ∈ b.uncles, (getSpec d u).isSome) (holds : Holds d₁ ws T')
    (step : applyBlock txProcessor (minerAt d) (versionOf T) b.toBlockSpec = some (versionOf T')) :
    Executed txProcessor d₁ child.toBlockSpec := by
  have specs : SpecsKept d d₁ := fun h spec found => (hashed.records.spec h).trans found
  obtain ⟨wsp, spec, holdsp, found, rootp⟩ := parent.kept hashed.persisted.steps.suffix specs
  obtain ⟨state, nonce, wire⟩ := hashed.body_spec
  rw [← applyBlock_kept _ stored specs] at step
  refine ⟨spec, wsp, ws, T, T', ?_, fun u member => ?_, holdsp, rootp, holds, root, ?_⟩
  · rw [wire]
    exact found
  · rw [wire] at member
    rw [hashed.records.spec]
    exact stored u member
  · rw [wire]
    exact step

/-- A block that a handler replayed. -/
theorem Recomputed.executed (recomputed : Recomputed txProcessor d b) (state : b.worldState = some ws₀)
    (perm : order.Perm b.vars.entries) (hashed : Hashed d b ws₀ order inputs d₁ child ws) (root : child.state = ws.rootHash)
    (sound : HashSound (Known d₁)) : Executed txProcessor d₁ child.toBlockSpec := by
  obtain ⟨ws₁, T, order₁, first, txs, parent, stored, -, listed, replay, state₁, perm₁, working⟩ := recomputed
  have same : ws₁ = ws₀ := Option.some.inj (state₁.symm.trans state)
  subst same
  have tail : b.txs.tail = txs := by
    rw [listed]
    rfl
  rw [← tail] at replay
  refine hashed.executed root parent stored (working.persistState_again perm₁ perm hashed.result sound).holds
    (applyBlock_persisted (by rw [replay]) ?_ perm₁)
  rw [replay]
  exact SameReplies.refl _ _

/-- A candidate that is in step. -/
theorem InStep.executed [Outside] {cfg : Config} (inStep : InStep cfg d [] b) (state : b.worldState = some ws₀)
    (perm : order.Perm b.vars.entries) (hashed : Hashed d b ws₀ order inputs d₁ child ws) (root : child.state = ws.rootHash)
    (sound : HashSound (Known d₁)) : Executed cfg.txProcessor d₁ child.toBlockSpec := by
  obtain ⟨ws₁, T, reward, txs, fills⟩ := inStep
  have same : ws₁ = ws₀ := Option.some.inj (fills.opened.state.symm.trans state)
  subst same
  have tail : b.txs.tail = txs ++ [] := by
    rw [fills.listed, List.append_nil]
    rfl
  have accepted := fills.accepted
  have view := fills.same
  rw [← tail] at accepted view
  exact hashed.executed root fills.opened.parent fills.opened.uncles.stored
    (fills.opened.working.persistState hashed.result sound).holds (applyBlock_persisted accepted view perm)

end Hashed

/-- **What a submission stores** was stored before, or is a step if the block in hand leads to one. -/
theorem Submit.executed {s s' : System} {i : Nat} {order : List Entry} {o : Option Outcome} (own : BlockSpec → Prop)
    (submit : Submit s i order s' o)
    (hand : ∀ {b child ws₀ ws inputs d₁}, s.blocks i = some b → b.worldState = some ws₀ → order.Perm b.vars.entries →
      Hashed s.db b ws₀ order inputs d₁ child ws → child.state = ws.rootHash → HashSound (Known d₁) →
      Executed txProcessor d₁ child.toBlockSpec ∨ own child.toBlockSpec)
    (sound : HashSound (Known s'.db)) (kept : SpecsKept s.db s'.db) {h : Byte64} {spec : BlockSpec}
    (found : getSpec s'.db h = some spec) :
    getSpec s.db h = some spec ∨ Executed txProcessor s'.db spec ∨ own spec := by
  cases submit with
  | refused _ _ records engine fine =>
    left
    rw [← records.spec]
    exact found
  | added c c' b child ws₀ ws parent d₁ d' inputs outcome engine block state perm valid hashed root result =>
    rw [submitted_db] at sound kept found ⊢
    have grow := result.writes.suffix
    rcases result.getSpec_cases h with same | ⟨-, stored⟩
    · left
      rw [← hashed.records.spec, ← same]
      exact found
    · right
      rw [stored, Option.some.injEq] at found
      subst found
      refine (hand block state perm hashed root (sound.of_suffix grow)).imp_left fun executed => ?_
      refine executed.kept grow fun q old there => kept q old ?_
      rw [← hashed.records.spec]
      exact there

end Submissions

/-! ## Runs -/

section Runs

variable [Sha512] [Outside] {cfg : Config} {g : Byte64} {p : Platform} {e : Event}

/-- What is stored of a node. Its own blocks may be no steps if `own`. -/
structure Ledgered (own : Prop) (cfg : Config) (g : Byte64) (p : Platform) : Prop where
  genesis : ∃ spec ws, getSpec p.sys.db g = some spec ∧ spec.state = ws.rootHash ∧ Holds p.sys.db ws (PathMap.single [])
  executed : ∀ h spec, getSpec p.sys.db h = some spec → h ≠ g →
    Executed cfg.txProcessor p.sys.db spec ∨ own ∧ spec.miner = cfg.trustee.myAddress

/-- What an event submits: a block that was replayed, or the candidate of a producer. -/
theorem Replaying.hand {own : Prop} {k : Nat} {order : List Entry} {a : Action} (replaying : Replaying cfg g p)
    (submits : Submits cfg p e k order a)
    (producers : ∀ q b, p.threads k = some (.producer q) → q.phase = .mining → p.sys.blocks k = some b →
      own ∨ InStep cfg p.sys.db [] b)
    {b child : Block} {ws₀ ws : MptWorldState} {inputs : List Bytes} {d₁ : Disk} (block : p.sys.blocks k = some b)
    (state : b.worldState = some ws₀) (perm : order.Perm b.vars.entries)
    (hashed : Hashed p.sys.db b ws₀ order inputs d₁ child ws) (root : child.state = ws.rootHash)
    (sound : HashSound (Known d₁)) :
    Executed cfg.txProcessor d₁ child.toBlockSpec ∨ own ∧ child.toBlockSpec.miner = cfg.trustee.myAddress := by
  cases submits with
  | mine _ _ tries q thread phase =>
    have suits := replaying.hands k _ thread
    simp only [Thread.Suits, phase, Phase.Suits, block, Option.some.injEq] at suits
    obtain ⟨b', rfl, miner⟩ := suits
    obtain ⟨state', nonce, wire⟩ := hashed.body_spec
    rcases producers q b thread phase block with own | inStep
    · right
      rw [wire]
      exact ⟨own, miner⟩
    · exact Or.inl (inStep.executed state perm hashed root sound)
  | accept _ _ tries thread =>
    have suits := replaying.hands k _ thread
    simp only [Thread.Suits, Stage.Suits, block, Option.some.injEq] at suits
    obtain ⟨b', rfl, recomputed⟩ := suits
    exact Or.inl (Recomputed.executed recomputed state perm hashed root sound)

/-- **One event.** -/
theorem Ledgered.step {own : Prop} (ledgered : Ledgered own cfg g p) (replaying : Replaying cfg g p)
    (producers : ∀ k q b, p.threads k = some (.producer q) → q.phase = .mining → p.sys.blocks k = some b →
      own ∨ InStep cfg p.sys.db [] b)
    (leads : Leads RebaseOk p.sys (Platform.step cfg p e).sys) (sound : HashSound (Known (Platform.step cfg p e).sys.db)) :
    Ledgered own cfg g (Platform.step cfg p e) := by
  have later := leads.later replaying.reached sound
  refine ⟨?_, fun h spec found other => ?_⟩
  · obtain ⟨spec, ws, found, root, holds⟩ := ledgered.genesis
    exact ⟨spec, ws, later.specs g spec found, root, holds.of_suffix later.grow⟩
  · have old : getSpec p.sys.db h = some spec →
        Executed cfg.txProcessor (Platform.step cfg p e).sys.db spec ∨ own ∧ spec.miner = cfg.trustee.myAddress :=
      fun old => (ledgered.executed h spec old other).imp_left fun executed => executed.kept later.grow later.specs
    rcases step_leads replaying.reached e with quiet | ⟨k, order, a, submits, next⟩
    · obtain ⟨-, records, -⟩ := quiet.quiet replaying.reached.ready replaying.miner
      apply old
      rw [← records.spec]
      exact found
    · rw [next] at sound found later old ⊢
      have stored := (submits.submit replaying.reached.ready).executed (fun spec => own ∧ spec.miner = cfg.trustee.myAddress)
        (replaying.hand submits (producers k)) sound later.specs found
      exact stored.elim old id

theorem ledgered_boot (own : Prop) {now : UInt64} (started : (Platform.boot cfg now).sys.engine.isSome) :
    Ledgered own cfg (genesisHash genesisTimeStamp now) (Platform.boot cfg now) := by
  obtain ⟨-, booted⟩ := boot_of_started started
  have sys : (Platform.boot cfg now).sys = _ := booted
  refine ⟨?_, fun h spec found other => ?_⟩
  · rw [sys]
    exact ⟨_, freshState, by rw [bootDisk_getSpec, if_pos rfl], rfl, holds_fresh _⟩
  · rw [sys, bootDisk_getSpec, if_neg other] at found
    cases found

/-- **Every run**, whatever the producers do. -/
theorem Platform.Reached.ledgered {Q : Platform → Event → Prop} (works : Outside.Works)
    (reached : Platform.Reached cfg RebaseOk Q g p) (sound : HashSound (Known p.sys.db)) : Ledgered True cfg g p := by
  refine (reached.invariant_sound (fun p => Replaying cfg g p ∧ Ledgered True cfg g p) rebaseOk_fills sound
    (fun now started genesis => ?_) fun p e inv _ leads sound => ?_).2
  · rw [← genesis]
    exact ⟨replaying_boot started, ledgered_boot True started⟩
  · exact ⟨inv.1.step works leads sound, inv.2.step inv.1 (fun _ _ _ _ _ _ => Or.inl trivial) leads sound⟩

/-- **Every run that leaves nothing else in the candidates.** -/
theorem Platform.Reached.ledgered_faithful (works : Outside.Works)
    (reached : Platform.Reached cfg RebaseOk (Faithful cfg) g p) (sound : HashSound (Known p.sys.db)) :
    Ledgered False cfg g p := by
  refine (reached.invariant_sound (fun p => Replaying cfg g p ∧ Ledgered False cfg g p ∧
    ∀ k t, p.threads k = some t → t.Suits (TrustNet.fills cfg) p.sys.db (p.sys.blocks k)) rebaseOk_fills sound
    (fun now started genesis => ?_) fun p e inv faithful leads sound => ?_).2.1
  · rw [← genesis]
    exact ⟨replaying_boot started, ledgered_boot False started, fun k t thread => by cases thread⟩
  · obtain ⟨replaying, ledgered, hands⟩ := inv
    have later := leads.later replaying.reached sound
    have producers : ∀ k q b, p.threads k = some (.producer q) → q.phase = .mining → p.sys.blocks k = some b →
        False ∨ InStep cfg p.sys.db [] b := by
      intro k q b thread phase block
      have suits := hands k _ thread
      simp only [Thread.Suits, phase, Phase.Suits, block, Option.some.injEq] at suits
      obtain ⟨b', rfl, full⟩ := suits
      exact Or.inr full.1
    exact ⟨replaying.step works leads sound, ledgered.step replaying producers leads sound,
      Knowledge.step (fills_lasts cfg) (replaying.fills_kept works faithful later sound) hands later⟩

end Runs

/-! ## Branches -/

/-- Every stored block has a branch. -/
theorem branch_of_stored {d : Disk} {g m h : Byte64} (canonical : Canonical d g m) (stored : (getSpec d h).isSome) :
    ∃ path, PathTo (parentOf d g) g h path := by
  rw [← canonical.stored_iff] at stored
  exact (canonical.chain.tree.anc_genesis stored).exists_path

/-- The branch of the tip is the main list. -/
theorem branch_of_tip {d : Disk} {g m : Byte64} (canonical : Canonical d g m) :
    ∃ path, PathTo (parentOf d g) g m path ∧ ∀ h, h ∈ path ↔ Flagged d h ∧ h ≠ g := by
  have stored : (getSpec d m).isSome := by
    rw [← canonical.stored_iff]
    exact canonical.chain.main.1
  obtain ⟨path, down⟩ := branch_of_stored canonical stored
  refine ⟨path, down, fun h => ?_⟩
  rw [down.mem_iff (by simp [parentOf]), canonical.chain.main.2 h]

/-! ## The keys at a block -/

section Keys

variable [Sha512]

/-- The keys of the state with the root `root`. -/
def versionAt (d : Disk) (root : Byte64) : Version := fun key =>
  match (stateAt d root).lookup d key with
  | .ok value => some value
  | .error _ => none

/-- The keys at a stored block. -/
def keysAt (d : Disk) (h : Byte64) : Version := ((getSpec d h).map fun spec => versionAt d spec.state).getD fun _ => none

/-- The step of the machine by a stored block. -/
def stepAt (txProcessor : Transaction → Script) (d : Disk) (version : Version) (h : Byte64) : Option Version :=
  (getSpec d h).bind (applyBlock txProcessor (minerAt d) version)

theorem Holds.versionAt {d : Disk} {ws : MptWorldState} {T : Contents} (log : TrieLog d) (sound : HashSound (Known d))
    (holds : Holds d ws T) : TrustNet.versionAt d ws.rootHash = versionOf T := by
  funext key
  unfold TrustNet.versionAt
  rw [(holds.stateAt log sound).lookup log sound key, Version.answer]
  cases versionOf T key with
  | none => rfl
  | some value => rfl

theorem Executed.step {txProcessor : Transaction → Script} {d : Disk} {spec : BlockSpec}
    (executed : Executed txProcessor d spec) (log : TrieLog d) (sound : HashSound (Known d)) :
    ∃ parent, getSpec d spec.phash = some parent ∧
      applyBlock txProcessor (minerAt d) (versionAt d parent.state) spec = some (versionAt d spec.state) := by
  obtain ⟨parent, ws₀, ws, T₀, T, found, -, holds₀, root₀, holds, root, step⟩ := executed
  refine ⟨parent, found, ?_⟩
  rw [root, root₀, holds₀.versionAt log sound, holds.versionAt log sound, step]

variable [Outside] {cfg : Config} {g : Byte64} {p : Platform}

/-- **The blocks of others are steps.** Whatever the producers of a node and its peers do, the state of every stored block
of another miner is the step of the state of its parent. -/
theorem network_blocks_executed (works : Outside.Works)
    (reached : Platform.Reached cfg RebaseOk (fun _ _ => True) g p) (sound : HashSound (Known p.sys.db)) {h : Byte64}
    {spec : BlockSpec} (found : getSpec p.sys.db h = some spec) (other : h ≠ g) (foreign : spec.miner ≠ cfg.trustee.myAddress) :
    ∃ parent, getSpec p.sys.db spec.phash = some parent ∧
      applyBlock cfg.txProcessor (minerAt p.sys.db) (versionAt p.sys.db parent.state) spec =
        some (versionAt p.sys.db spec.state) := by
  have ledgered := reached.ledgered works sound
  rcases ledgered.executed h spec found other with executed | ⟨-, own⟩
  · exact executed.step (reached.sys rebaseOk_fills).ready.log sound
  · exact absurd own foreign

theorem Ledgered.genesis_keys {own : Prop} (ledgered : Ledgered own cfg g p) (log : TrieLog p.sys.db)
    (sound : HashSound (Known p.sys.db)) : keysAt p.sys.db g = fun _ => none := by
  obtain ⟨spec, ws, found, root, holds⟩ := ledgered.genesis
  unfold keysAt
  rw [found, Option.map_some, Option.getD_some, root, holds.versionAt log sound, versionOf_single]

/-- The step of a stored block leads from the keys at its parent to the keys at the block. -/
theorem Ledgered.follows (ledgered : Ledgered False cfg g p) (reached : Reached RebaseOk g p.sys)
    (sound : HashSound (Known p.sys.db)) (c q : Byte64) (edge : parentOf p.sys.db g c = some q) :
    stepAt cfg.txProcessor p.sys.db (keysAt p.sys.db q) c = some (keysAt p.sys.db c) := by
  obtain ⟨m, canonical, -⟩ := reached.onTip
  rw [canonical.parentOf_eq] at edge
  split at edge
  · cases edge
  · rename_i other
    obtain ⟨spec, found, above⟩ := Option.map_eq_some_iff.mp edge
    subst above
    obtain ⟨parent, stored, step⟩ :=
      ((ledgered.executed c spec found other).resolve_right fun own => own.1).step reached.ready.log sound
    unfold stepAt keysAt
    rw [found, stored]
    exact step

theorem Ledgered.fold (ledgered : Ledgered False cfg g p) (reached : Reached RebaseOk g p.sys)
    (sound : HashSound (Known p.sys.db)) {h : Byte64} {path : List Byte64} (down : PathTo (parentOf p.sys.db g) g h path) :
    path.foldlM (stepAt cfg.txProcessor p.sys.db) (fun _ => none) = some (keysAt p.sys.db h) := by
  rw [← ledgered.genesis_keys reached.ready.log sound]
  exact down.foldlM fun c q _ => ledgered.follows reached sound c q

/-- **The chain is the machine.** On a node that leaves nothing but the listed transactions in its candidates, the keys at
every stored block are the fold of the steps of the blocks on its branch. At the tip, which the engine works on, these are
the blocks of the main list. -/
theorem ledger_is_fold (works : Outside.Works) (reached : Platform.Reached cfg RebaseOk (Faithful cfg) g p)
    (sound : HashSound (Known p.sys.db)) :
    (∀ h, (getSpec p.sys.db h).isSome → ∃ path, PathTo (parentOf p.sys.db g) g h path ∧
      path.foldlM (stepAt cfg.txProcessor p.sys.db) (fun _ => none) = some (keysAt p.sys.db h)) ∧
    ∃ tip path, getDagTip p.sys.db = some tip ∧ PathTo (parentOf p.sys.db g) g tip path ∧
      (∀ h, h ∈ path ↔ Flagged p.sys.db h ∧ h ≠ g) ∧
      path.foldlM (stepAt cfg.txProcessor p.sys.db) (fun _ => none) = some (keysAt p.sys.db tip) ∧
      ∀ c, p.sys.engine = some c → c.tip.hash = some tip ∧ versionAt p.sys.db c.state.rootHash = keysAt p.sys.db tip := by
  have engine := reached.sys rebaseOk_fills
  have ledgered := reached.ledgered_faithful works sound
  obtain ⟨m, canonical, synced⟩ := engine.onTip
  refine ⟨fun h stored => ?_, m, ?_⟩
  · obtain ⟨path, down⟩ := branch_of_stored canonical stored
    exact ⟨path, down, ledgered.fold engine sound down⟩
  · obtain ⟨path, down, members⟩ := branch_of_tip canonical
    refine ⟨path, canonical.tip, down, members, ledgered.fold engine sound down,
      fun c running => ⟨(synced c running).hash, ?_⟩⟩
    unfold keysAt
    rw [(synced c running).spec, (synced c running).root]
    rfl

end Keys

/-! ## Two nodes -/

section Worked

attribute [local instance] Plain.sha512 Plain.outside

namespace Worked

/-- The block that node 1 mines. -/
def producedSpec : BlockSpec where
  phash := digest Plain.genesisDigest
  miner := [1]
  state := digest Plain.fundedDigest
  txs := ((Plain.config 1).trustee.rewardTx 0 0 0x200001 []).toList ++ [Plain.transfer 1]
  ts := 0x200001
  delta := 0x200000
  depth := 1
  wt := 1
  uncles := []
  nonce := 0

/-- Its sibling, a tick later and with another transaction. -/
def siblingSpec : BlockSpec :=
  { producedSpec with
    txs := ((Plain.config 1).trustee.rewardTx 0 0 0x200002 []).toList ++ [Plain.transfer 3]
    ts := 0x200002 }

/-- A handler receives a block that funds account 01, replays it and accepts it. -/
def receiving (k : Nat) (spec : BlockSpec) : List Event :=
  [.receive k spec, .verify k, .replay k, .check k [fundedEntry] 1, .accept k [fundedEntry] 1]

/-- Node 2 accepts the block. -/
def accepting : List Event := receiving 1 producedSpec

/-- Node 1 gets its two blocks back from a peer, and fills a candidate on the sibling with the other for an uncle. -/
def assembling : List Event :=
  receiving 2 producedSpec ++ receiving 3 siblingSpec ++ Plain.startProducer ++ .submit (Plain.transfer 4) ::
    [.take 1, .candidate 1 0x200003, .reward 1 0 0 0x200003, .process 1, .add 1, .expire 1]

/-- The balance of account 01 after both rewards. -/
def richEntry : Entry := ⟨ascii "01", some (uint64Bytes 2200000)⟩

/-- The candidate is mined. -/
def mining : List Event := assembling ++ [.mine 1 [richEntry] 1]

/-- Node 1, after it mined the block. -/
def minedNode : Platform := Platform.run (Plain.config 1) (Platform.boot (Plain.config 1) 0) mining

/-- Node 2, after it accepted the block. -/
def acceptingNode : Platform := Platform.run (Plain.config 2) (Platform.boot (Plain.config 2) 0) accepting

end Worked

/-- What the run comes to: the tip has an uncle, and account 01 has the rewards of three blocks. -/
theorem Worked.minedNode_run :
    Worked.runs 1 (Worked.listing (Plain.config 1)) Worked.mining = true ∧ Plain.Covered Worked.minedNode.sys.db ∧
      getDagTip Worked.minedNode.sys.db = some (digest Plain.nephewDigest) ∧
      digest Plain.nephewDigest ≠ genesisHash genesisTimeStamp 0 ∧
      (getSpec Worked.minedNode.sys.db (digest Plain.nephewDigest)).map (·.uncles.length) = some 1 ∧
      keysAt Worked.minedNode.sys.db (digest Plain.nephewDigest) (ascii "01") = some (uint64Bytes 2200000) := by
  decide +kernel

theorem ledger_is_fold_mined :
    ∃ (tip : Byte64) (path : List Byte64), getDagTip Worked.minedNode.sys.db = some tip ∧
      keysAt Worked.minedNode.sys.db tip (ascii "01") = some (uint64Bytes 2200000) ∧
      path.foldlM (stepAt (Plain.config 1).txProcessor Worked.minedNode.sys.db) (fun _ => none) =
        some (keysAt Worked.minedNode.sys.db tip) := by
  obtain ⟨ran, covered, top, -, -, rich⟩ := Worked.minedNode_run
  have reached : Platform.Reached (Plain.config 1) RebaseOk (Faithful (Plain.config 1)) (genesisHash genesisTimeStamp 0)
      Worked.minedNode := Worked.reached (Worked.faithful_of_listing (Plain.config 1)) ran
  generalize Worked.minedNode = p at covered top rich reached ⊢
  have sound : HashSound (Known p.sys.db) := Plain.hashSound_of_covered fun n knows => ⟨_, knows, covered⟩
  obtain ⟨-, tip, path, isTip, -, -, fold, -⟩ := ledger_is_fold Plain.outside_works reached sound
  rw [isTip, Option.some.injEq] at top
  subst top
  exact ⟨_, path, isTip, rich, fold⟩

theorem network_blocks_executed_accepted :
    ∃ parent, getSpec Worked.acceptingNode.sys.db (digest Plain.producedDigest) = some Worked.producedSpec ∧
      getSpec Worked.acceptingNode.sys.db Worked.producedSpec.phash = some parent ∧
      applyBlock (Plain.config 2).txProcessor (minerAt Worked.acceptingNode.sys.db)
          (versionAt Worked.acceptingNode.sys.db parent.state) Worked.producedSpec =
        some (versionAt Worked.acceptingNode.sys.db Worked.producedSpec.state) := by
  have run : Worked.runs 2 (fun _ _ => true) Worked.accepting = true ∧ Plain.Covered Worked.acceptingNode.sys.db ∧
      getSpec Worked.acceptingNode.sys.db (digest Plain.producedDigest) = some Worked.producedSpec ∧
      digest Plain.producedDigest ≠ genesisHash genesisTimeStamp 0 := by decide +kernel
  obtain ⟨ran, covered, found, other⟩ := run
  have reached : Platform.Reached (Plain.config 2) RebaseOk (fun _ _ => True) (genesisHash genesisTimeStamp 0)
      Worked.acceptingNode := Worked.reached (fun _ _ _ => trivial) ran
  generalize Worked.acceptingNode = p at covered found reached ⊢
  have sound : HashSound (Known p.sys.db) := Plain.hashSound_of_covered fun n knows => ⟨_, knows, covered⟩
  have foreign : Worked.producedSpec.miner ≠ (Plain.config 2).trustee.myAddress := by decide
  obtain ⟨parent, above, step⟩ := network_blocks_executed Plain.outside_works reached sound found other foreign
  exact ⟨parent, found, above, step⟩

end Worked

end TrustNet
