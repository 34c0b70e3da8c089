import TrustNet.Consensus.Written
import TrustNet.Network.HonestReward
import TrustNet.Network.Supply

/-!
# Blocks in hand and their rewards

A block in hand starts on the state of its parent. Its miner, or the handler that verifies
it, credits the rewards to its overlay, and from then on the application works on it. If
the application leaves the accounts alone, the balances that the block shows stay those of
the parent with the rewards, until the overlay is persisted.
-/

namespace TrustNet
set_option autoImplicit false

/-! ## Rewards in an overlay -/

theorem lookup_creditVars (version : Version) (vars : Variables) (account : Bytes) (delta : UInt64) (key : Bytes)
    (has : ∃ value, vars.lookup key = some (some value)) :
    ∃ value, (creditVars version vars account delta).lookup key = some (some value) := by
  unfold creditVars
  by_cases own : key = account
  · rw [own, AList.lookup_insert]
    exact ⟨_, rfl⟩
  · rw [AList.lookup_insert_ne own]
    simp only [BlockOp.record]
    split
    · rw [AList.lookup_insert_ne own]
      exact has
    · exact has

theorem lookup_uncleVars (version : Version) (vars : Variables) (uncles : List Bytes) (key : Bytes)
    (has : ∃ value, vars.lookup key = some (some value)) :
    ∃ value, (uncleVars version vars uncles).lookup key = some (some value) := by
  induction uncles generalizing vars with
  | nil => exact has
  | cons uncle uncles ih => exact ih _ (lookup_creditVars version vars _ _ key has)

/-- The rewards are in the overlay. -/
theorem lookup_rewardVars (version : Version) (vars : Variables) (miner : Bytes) (uncles : List Bytes) :
    ∃ value, (rewardVars version vars miner uncles).lookup (bytesToHexString miner) = some (some value) := by
  have first : ∃ value, (creditVars version vars (bytesToHexString miner) 1000000).lookup (bytesToHexString miner) =
      some (some value) := ⟨_, AList.lookup_insert _⟩
  exact lookup_uncleVars version _ uncles _ first

/-! ## Blocks in hand -/

section Blocks

variable [Sha512] {d d' : Disk} {b b' : Block} {ws : MptWorldState} {T : Contents}

/-- The database of a later state of the node. -/
structure Later (d d' : Disk) : Prop where
  grow : d.log <:+ d'.log
  specs : SpecsKept d d'
  log : TrieLog d'
  whole : Whole d'

/-- The state of the parent of the block has the contents `T`. -/
def OnParent (d : Disk) (b : Block) (T : Contents) : Prop :=
  ∃ ws spec, Holds d ws T ∧ getSpec d b.phash = some spec ∧ spec.state = ws.rootHash

/-- The block has the miners of its uncles, which are stored. -/
structure KnowsUncles (d : Disk) (b : Block) : Prop where
  miners : b.uncleMiners = b.uncles.map (minerAt d)
  stored : ∀ u ∈ b.uncles, (getSpec d u).isSome

/-- The block is worked on over the state of its parent. -/
structure Opened (d : Disk) (b : Block) (ws : MptWorldState) (T : Contents) : Prop where
  state : b.worldState = some ws
  working : Working d ws T
  parent : OnParent d b T
  uncles : KnowsUncles d b

/-- The overlay has the rewards of the block, and the balances that the block shows are those of `version` with the
rewards. -/
structure Credited (version : Version) (b : Block) : Prop where
  named : b.miner ≠ []
  balances : ∃ miners : List Bytes, miners.length = b.uncles.length ∧ ∀ address,
    balance (effective version b.vars) (bytesToHexString address) =
      balance (effective version (rewardVars version ∅ b.miner miners)) (bytesToHexString address)
  written : ∃ value, b.vars.lookup (bytesToHexString b.miner) = some (some value)

/-- The block has its rewards. -/
def Paid (d : Disk) (b : Block) : Prop := ∃ ws T, Opened d b ws T ∧ Credited (versionOf T) b

/-- The overlay of a block with its rewards was persisted. -/
def PaidOut (d : Disk) (b : Block) : Prop :=
  ∃ ws T order, OnParent d b T ∧ b.worldState = some ws ∧ order.Perm b.vars.entries ∧
    Working d ws (T.edits [] (batch order)) ∧ Credited (versionOf T) b

/-! ## While others work -/

theorem OnParent.kept (parent : OnParent d b T) (grow : d.log <:+ d'.log) (specs : SpecsKept d d') : OnParent d' b T := by
  obtain ⟨ws, spec, holds, found, root⟩ := parent
  exact ⟨ws, spec, holds.of_suffix grow, specs _ _ found, root⟩

theorem Working.later (working : Working d ws T) (later : Later d d') : Working d' ws T :=
  ⟨later.log, later.whole, working.ready, working.holds.of_suffix later.grow⟩

omit [Sha512] in
theorem SpecsKept.isSome (specs : SpecsKept d d') {h : Byte64} (stored : (getSpec d h).isSome) :
    getSpec d' h = getSpec d h := by
  obtain ⟨spec, found⟩ := Option.isSome_iff_exists.mp stored
  rw [found]
  exact specs h spec found

omit [Sha512] in
/-- Miners are read off the records of the blocks. -/
theorem map_minerAt {uncles : List Byte64} (same : ∀ u ∈ uncles, getSpec d' u = getSpec d u) :
    uncles.map (minerAt d') = uncles.map (minerAt d) :=
  List.map_congr_left fun u member => by rw [minerAt, minerAt, same u member]

omit [Sha512] in
theorem KnowsUncles.kept (knows : KnowsUncles d b) (specs : SpecsKept d d') : KnowsUncles d' b := by
  have same : ∀ u ∈ b.uncles, getSpec d' u = getSpec d u := fun u member => specs.isSome (knows.stored u member)
  refine ⟨knows.miners.trans (map_minerAt same).symm, fun u member => ?_⟩
  rw [same u member]
  exact knows.stored u member

omit [Sha512] in
theorem KnowsUncles.length (knows : KnowsUncles d b) : b.uncleMiners.length = b.uncles.length := by
  rw [knows.miners, List.length_map]

/-- The overlay and the transactions of a block do not matter. -/
theorem Opened.of_fields (opened : Opened d b ws T) (state : b'.worldState = b.worldState) (parent : b'.phash = b.phash)
    (miners : b'.uncleMiners = b.uncleMiners) (uncles : b'.uncles = b.uncles) : Opened d b' ws T := by
  obtain ⟨ws₀, spec, holds, found, root⟩ := opened.parent
  refine ⟨state.trans opened.state, opened.working, ⟨ws₀, spec, holds, by rw [parent]; exact found, root⟩, ?_, ?_⟩
  · rw [miners, uncles]
    exact opened.uncles.miners
  · rw [uncles]
    exact opened.uncles.stored

theorem Opened.later (opened : Opened d b ws T) (later : Later d d') : Opened d' b ws T :=
  ⟨opened.state, opened.working.later later, opened.parent.kept later.grow later.specs,
    opened.uncles.kept later.specs⟩

theorem Paid.later (paid : Paid d b) (later : Later d d') : Paid d' b := by
  obtain ⟨ws, T, opened, credited⟩ := paid
  exact ⟨ws, T, opened.later later, credited⟩

theorem PaidOut.later (paidOut : PaidOut d b) (later : Later d d') : PaidOut d' b := by
  obtain ⟨ws, T, order, parent, state, perm, working, credited⟩ := paidOut
  exact ⟨ws, T, order, parent.kept later.grow later.specs, state, perm, working.later later, credited⟩

/-! ## The calls that fill a block -/

/-- The rewards on an overlay that was empty. -/
theorem Opened.paid (opened : Opened d b ws T) {miners : List Bytes} (named : b.miner ≠ [])
    (count : miners.length = b.uncles.length) (vars : b.vars = rewardVars (versionOf T) ∅ b.miner miners) : Paid d b := by
  refine ⟨ws, T, opened, named, ⟨miners, count, fun address => by rw [vars]⟩, ?_⟩
  rw [vars]
  exact lookup_rewardVars (versionOf T) ∅ b.miner miners

/-- `AddTransaction`. -/
theorem Paid.addTransaction (paid : Paid d b) (tx : Transaction) : Paid d (b.addTransaction d tx).1 := by
  obtain ⟨ws, T, opened, credited⟩ := paid
  rcases addTransaction_cases b d tx with same | ⟨-, -, eq⟩
  · rw [same]
    exact ⟨ws, T, opened, credited⟩
  · rw [eq]
    exact ⟨ws, T, opened.of_fields rfl rfl rfl rfl, credited.named, credited.balances, credited.written⟩

/-- The application, if it spares the accounts. -/
theorem Paid.script (paid : Paid d b) (sound : HashSound (Known d)) {script : Script} (spares : script.Spares IsAccount)
    {accepted : Bool} (ran : script.run d b = some (b', accepted)) : Paid d b' := by
  obtain ⟨ws, T, opened, credited⟩ := paid
  rw [script.run_eq opened.working sound opened.state] at ran
  cases ran
  have spared : ∀ address,
      effective (versionOf T) (script.play (versionOf T) b.vars).1 (bytesToHexString address) =
        effective (versionOf T) b.vars (bytesToHexString address) ∧
      (bytesToHexString address ∈ b.vars → (script.play (versionOf T) b.vars).1.lookup (bytesToHexString address) =
        b.vars.lookup (bytesToHexString address)) :=
    fun address => Script.play_spares spares ⟨address, rfl⟩
  refine ⟨ws, T, opened.of_fields rfl rfl rfl rfl, credited.named, ?_, ?_⟩
  · obtain ⟨miners, count, balances⟩ := credited.balances
    refine ⟨miners, count, fun address => Eq.trans ?_ (balances address)⟩
    unfold balance
    rw [(spared address).1]
  · obtain ⟨value, written⟩ := credited.written
    have member : bytesToHexString b.miner ∈ b.vars := by
      rw [← AList.lookup_isSome, written]
      rfl
    exact ⟨value, ((spared b.miner).2 member).trans written⟩

/-! ## Persisting the overlay -/

omit [Sha512] in
theorem Credited.of_fields {version : Version} (credited : Credited version b) (miner : b'.miner = b.miner)
    (uncles : b'.uncles = b.uncles) (vars : b'.vars = b.vars) : Credited version b' := by
  refine ⟨by rw [miner]; exact credited.named, ?_, by rw [vars, miner]; exact credited.written⟩
  rw [uncles, vars, miner]
  exact credited.balances

omit [Sha512] in
/-- The overlay of a block with rewards has a write. -/
theorem Credited.writes {version : Version} {order : List Entry} (credited : Credited version b)
    (perm : order.Perm b.vars.entries) : ∃ e ∈ order, e.2.isSome := by
  obtain ⟨value, written⟩ := credited.written
  exact ⟨⟨bytesToHexString b.miner, some value⟩, perm.symm.subset (AList.mem_lookup_iff.mp written), rfl⟩

section Hashed

variable {ws₀ : MptWorldState} {order : List Entry} {inputs : List Bytes} {d₁ : Disk} {child : Block}

/-- A block with its rewards is hashed, for the first time or once more. -/
theorem Hashed.paidOut (hashed : Hashed d b ws₀ order inputs d₁ child ws) (hand : Paid d b ∨ PaidOut d b)
    (state : b.worldState = some ws₀) (perm : order.Perm b.vars.entries) (sound : HashSound (Known d₁)) :
    PaidOut d₁ child := by
  obtain ⟨miners, pow, state', nonce, hash, eq⟩ := hashed.body
  have grow := hashed.persisted.steps.suffix
  have specs : SpecsKept d d₁ := fun h spec found => (hashed.records.spec h).trans found
  have result := hashed.result
  rcases hand with ⟨ws₁, T, opened, credited⟩ | ⟨ws₁, T, order₁, parent, state₁, perm₁, working, credited⟩
  · have same : ws₁ = ws₀ := Option.some.inj (opened.state.symm.trans state)
    subst same
    have persisted := opened.working.persistState result sound
    refine ⟨ws, T, order, ?_, hashed.state, by rw [eq]; exact perm, persisted, ?_⟩
    · rw [eq]
      exact opened.parent.kept grow specs
    · rw [eq]
      exact credited.of_fields rfl rfl rfl
  · have same : ws₁ = ws₀ := Option.some.inj (state₁.symm.trans state)
    subst same
    have persisted := working.persistState_again perm₁ perm result sound
    refine ⟨ws, T, order₁, ?_, hashed.state, by rw [eq]; exact perm₁, persisted, ?_⟩
    · rw [eq]
      exact parent.kept grow specs
    · rw [eq]
      exact credited.of_fields rfl rfl rfl

/-- Its new root is there. -/
theorem Hashed.available (hashed : Hashed d b ws₀ order inputs d₁ child ws) (hand : Paid d b ∨ PaidOut d b)
    (state : b.worldState = some ws₀) (perm : order.Perm b.vars.entries) (sound : HashSound (Known d₁)) :
    Available d₁ ws.rootHash := by
  have result := hashed.result
  obtain ⟨T, working, writes⟩ : ∃ T, Working d ws₀ T ∧ ∃ e ∈ order, e.2.isSome := by
    rcases hand with ⟨ws₁, T, opened, credited⟩ | ⟨ws₁, T, order₁, parent, state₁, perm₁, working, credited⟩
    · have same : ws₁ = ws₀ := Option.some.inj (opened.state.symm.trans state)
      subst same
      exact ⟨T, opened.working, credited.writes perm⟩
    · have same : ws₁ = ws₀ := Option.some.inj (state₁.symm.trans state)
      subst same
      exact ⟨_, working, credited.writes perm⟩
  have available := persistState_available order false working.log working.ready working.whole working.holds writes
  rw [result] at available
  exact available sound

end Hashed

/-! ## Stored blocks -/

/-- The state of a stored block is that of its parent with the rewards. -/
def Minted (d : Disk) (spec : BlockSpec) : Prop :=
  spec.miner ≠ [] ∧ ∃ parent ws₀ ws T₀ T, getSpec d spec.phash = some parent ∧ Holds d ws₀ T₀ ∧
    parent.state = ws₀.rootHash ∧ Holds d ws T ∧ spec.state = ws.rootHash ∧
    total (versionOf T) = total (versionOf T₀) + rewards spec.uncles.length

theorem Minted.kept {spec : BlockSpec} (minted : Minted d spec) (grow : d.log <:+ d'.log) (specs : SpecsKept d d') :
    Minted d' spec := by
  obtain ⟨named, parent, ws₀, ws, T₀, T, found, holds₀, root₀, holds, root, sum⟩ := minted
  exact ⟨named, parent, ws₀, ws, T₀, T, specs _ _ found, holds₀.of_suffix grow, root₀, holds.of_suffix grow, root, sum⟩

omit [Sha512] in
/-- An empty value is the balance of a missing one. -/
theorem balance_nonEmpty (value : Option Bytes) :
    bytesToUint64 ((value.bind nonEmpty).getD []) = bytesToUint64 (value.getD []) := by
  cases value with
  | none => rfl
  | some value =>
    cases value with
    | nil => rfl
    | cons byte bytes => rfl

/-- **A block that is paid out raises the supply by its rewards.** -/
theorem PaidOut.minted (paidOut : PaidOut d b) (state : b.worldState = some ws) (root : b.state = ws.rootHash) :
    Minted d b.toBlockSpec := by
  obtain ⟨ws₁, T, order, ⟨ws₀, spec, holds, found, root₀⟩, state₁, perm, working, credited⟩ := paidOut
  have same : ws₁ = ws := Option.some.inj (state₁.symm.trans state)
  subst same
  obtain ⟨miners, count, balances⟩ := credited.balances
  have shown : total (versionOf (T.edits [] (batch order))) = total (effective (versionOf T) b.vars) := by
    refine total_congr fun address => ?_
    unfold balance
    rw [versionOf_persisted T perm, balance_nonEmpty]
  refine ⟨credited.named, spec, ws₀, ws₁, T, _, found, holds, root₀, working.holds, root, ?_⟩
  rw [shown, total_congr balances, total_rewardVars holds.funded_finite, count]

section Submit

variable {s s' : System} {i : Nat} {order : List Entry} {o : Option Outcome}

/-- A block with its rewards can be made the tip. -/
theorem Submit.rebases (submit : Submit s i order s' o)
    (hand : ∀ b, s.blocks i = some b → Paid s.db b ∨ PaidOut s.db b) (sound : HashSound (Known s'.db)) (msg : String) :
    o ≠ some (.error (.core .notFound msg)) := by
  cases submit with
  | refused _ _ records engine fine => exact fine msg
  | added c c' b child ws₀ ws parent d₁ d' inputs outcome engine block state perm valid hashed root result =>
    rw [submitted_db] at sound
    have available := hashed.available (hand b block) state perm (sound.of_suffix result.writes.suffix)
    rw [← root] at available
    exact fun eq => result.rebase_ok available msg (Option.some.inj eq)

/-- What a submission stores. -/
theorem Submit.minted (submit : Submit s i order s' o)
    (hand : ∀ b, s.blocks i = some b → Paid s.db b ∨ PaidOut s.db b) (sound : HashSound (Known s'.db))
    (kept : SpecsKept s.db s'.db) {h : Byte64} {spec : BlockSpec} (found : getSpec s'.db h = some spec) :
    getSpec s.db h = some spec ∨ Minted s'.db spec := by
  cases submit with
  | refused _ _ records engine fine =>
    left
    rw [← records.spec]
    exact found
  | added c c' b child ws₀ ws parent d₁ d' inputs outcome engine block state perm valid hashed root result =>
    rw [submitted_db] at sound kept found ⊢
    have grow := result.writes.suffix
    rcases result.getSpec_cases h with same | ⟨-, stored⟩
    · left
      rw [← hashed.records.spec, ← same]
      exact found
    · right
      rw [stored, Option.some.injEq] at found
      subst found
      have paidOut := hashed.paidOut (hand b block) state perm (sound.of_suffix grow)
      refine (paidOut.minted hashed.state root).kept grow fun q old there => kept q old ?_
      rw [← hashed.records.spec]
      exact there

end Submit

variable [Outside]

/-- What `VerifyMiningRewardTx` does to a block that passes. -/
theorem Opened.verify_eq (opened : Opened d b ws T) (sound : HashSound (Known d))
    (passed : verifyMiningRewardTx d b = some (b', true)) :
    b.txs ≠ [] ∧ b.miner ≠ [] ∧ b' = { b with vars := rewardVars (versionOf T) b.vars b.miner b.uncleMiners } := by
  unfold verifyMiningRewardTx at passed
  split at passed
  · cases passed
  · rename_i tx rest txs
    split at passed
    · simp at passed
    · split at passed
      · simp at passed
      · rename_i own
        rw [not_not] at own
        obtain ⟨named, eq⟩ := process_true opened.working sound opened.state passed
        rw [own] at named eq
        exact ⟨by rw [txs]; exact List.cons_ne_nil _ _, named, eq⟩

/-- `VerifyMiningRewardTx`. -/
theorem Opened.verify (opened : Opened d b ws T) (sound : HashSound (Known d)) (empty : b.vars = ∅)
    (passed : verifyMiningRewardTx d b = some (b', true)) : Paid d b' := by
  obtain ⟨-, named, rfl⟩ := opened.verify_eq sound passed
  have opened' : Opened d { b with vars := rewardVars (versionOf T) b.vars b.miner b.uncleMiners } ws T :=
    opened.of_fields rfl rfl rfl rfl
  exact opened'.paid named opened.uncles.length (by rw [empty])

/-- `NewMiningRewardTx`, on a candidate of the node. -/
theorem Opened.reward (opened : Opened d b ws T) (works : Outside.Works) (sound : HashSound (Known d)) (empty : b.vars = ∅)
    (named : ∀ uncle ∈ b.uncleMiners, uncle ≠ []) {t : Trustee} (miner : b.miner = t.myAddress) {order nonce : Nat}
    {now : UInt64} {tx : Transaction} (built : t.newMiningRewardTx order nonce now d b = some (b', some tx)) :
    Paid d b' := by
  obtain ⟨submitter, -, ops, decoded, same⟩ := rewardTx_built works (newMiningRewardTx_tx built)
  obtain ⟨credited, processed⟩ := newMiningRewardTx_processed built
  -- whether the reward was added or not, the block has the same overlay and the same uncles
  obtain ⟨ids, txs, eq⟩ : ∃ ids txs, (b.addTransaction d tx).1 = { b with transactions := ids, txs := txs } := by
    rcases addTransaction_cases b d tx with same | ⟨-, -, eq⟩
    · exact ⟨b.transactions, b.txs, same⟩
    · exact ⟨_, _, eq⟩
  have address : t.myAddress ≠ [] := works.address t.identity
  rw [eq, process_built (b := { b with transactions := ids, txs := txs }) opened.working sound opened.state t submitter
    address named decoded same] at processed
  cases processed
  have opened' : Opened d
      { b with
        transactions := ids
        txs := txs
        vars := rewardVars (versionOf T) b.vars tx.submitter b.uncleMiners } ws T :=
    opened.of_fields rfl rfl rfl rfl
  refine opened'.paid ?_ opened.uncles.length ?_
  · change b.miner ≠ []
    rw [miner]
    exact address
  · change rewardVars (versionOf T) b.vars tx.submitter b.uncleMiners = rewardVars (versionOf T) ∅ b.miner b.uncleMiners
    rw [empty, submitter, miner]

end Blocks

end TrustNet
