import TrustNet.Consensus.ForkChoice

/-!
# Availability of the world states

`persistState` cleans up every transient root but the first one it leaves. Roots
are content addressed, so a transient root of one block can be the `STATE` of a
stored block, and after `Cleanup` nothing can be rebased to it any more. In runs
in which no call cleans up a root that is in use (`CleanupSafe`), every stored
block keeps its world state, the engine can always rebase to its new tip, and a
call that ends in an error has changed nothing.
-/

namespace TrustNet
set_option autoImplicit false
open WriteLog (WritesOnly)

section Invariant

variable [Sha512]

/-- A fresh world state on the database can be rebased to `h`. -/
def canRebase (d : Disk) (h : Byte64) : Bool :=
  match newMptWorldState d with
  | (d', some state) => (state.rebase d' h).2.2.isNone
  | (_, none) => false

theorem canRebase_of_available {d : Disk} {h : Byte64} (log : TrieLog d) (available : Available d h) :
    canRebase d h = true := by
  obtain ⟨d', t, eq, -⟩ := available.fresh_rebased log
  simp only [canRebase, newMptWorldState_disk, eq, Option.isNone_none]

theorem not_canRebase {d : Disk} {h : Byte64} (log : TrieLog d) (missing : ¬ Available (freshDisk d) h) :
    ¬ canRebase d h = true := by
  rcases fresh_rebase log h with ⟨-, msg, eq⟩ | ⟨d', t, -, rebased⟩
  · simp [canRebase, newMptWorldState_disk, eq]
  · exact absurd rebased.available missing

/-- No root that the call cleans up is the `STATE` of a stored block or the root of another block in
hand. -/
def CleanupSafe (s : System) (a : Action) : Prop :=
  ∀ r ∈ cleanedBy s a, (∀ h spec, getSpec s.db h = some spec → spec.state ≠ r) ∧
    ∀ j b ws, a.target ≠ some j → s.blocks j = some b → b.worldState = some ws → ws.rootHash ≠ r

theorem CleanupSafe.of_nil {s : System} {a : Action} (nothing : cleanedBy s a = []) : CleanupSafe s a := by
  intro r member
  rw [nothing] at member
  cases member

/-- The world states of the stored blocks and of the blocks in hand are there. -/
structure StatesKept (s : System) : Prop where
  specs : ∀ h spec, getSpec s.db h = some spec → Available s.db spec.state
  blocks : ∀ j b ws, s.blocks j = some b → b.worldState = some ws → Available s.db ws.rootHash

variable {s s' : System} {a : Action} {o : Option Outcome} {g : Byte64}

/-- The stored blocks keep their states in trie writes that do not clean them up. -/
theorem StatesKept.specs_steps {cleaned : Byte64 → Prop} {d' : Disk} (kept : StatesKept s) (log : TrieLog s.db)
    (steps : TrieSteps cleaned s.db d')
    (safe : ∀ h spec, getSpec s.db h = some spec → ¬ cleaned spec.state) (h : Byte64) (spec : BlockSpec)
    (found : getSpec d' h = some spec) : Available d' spec.state := by
  rw [(SameRecords.of_steps steps).spec] at found
  exact (kept.specs h spec found).steps log steps (safe h spec found)

theorem CleanupSafe.not_cleaned (safe : CleanupSafe s a) (h : Byte64) (spec : BlockSpec)
    (found : getSpec s.db h = some spec) : spec.state ∉ cleanedBy s a :=
  fun hit => (safe spec.state hit).1 h spec found rfl

/-- The writes of an addition keep what is available. -/
theorem Available.addWrites {d d' : Disk} {child : Block} {h : Byte64} (log : TrieLog d) (log' : TrieLog d')
    (writes : WritesOnly (AddWrite child) d d') (available : Available d h) : Available d' h := by
  have kept : ∀ k, k = .state h ∨ k = .txRoot h → ¬ AddWrite child (k, none) := by
    rintro k key (⟨_, -, eq⟩ | ⟨_, eq⟩ | (⟨_, _, eq⟩ | ⟨_, _, eq⟩) | write)
    · cases eq
    · cases eq
    · cases eq
    · cases eq
    · cases write with
      | dropTx h => rcases key with eq | eq <;> cases eq
      | dropRoot h hit => exact hit
      | dropEmpty hit => exact hit
  exact available.of_writes log log' writes (kept _ (Or.inl rfl)) (kept _ (Or.inr rfl))

theorem AddResult.available {c c' : BlockChainConsensus} {d d' : Disk} {child : Block} {outcome : Outcome} {h : Byte64}
    (result : AddResult c d child c' d' outcome) (log : TrieLog d) (available : Available d h) : Available d' h :=
  available.addWrites log (result.trieLog log) result.writes

/-- With its own state at hand, an addition does not fail in `Rebase`. -/
theorem AddResult.rebase_ok {c c' : BlockChainConsensus} {d d' : Disk} {child : Block} {outcome : Outcome}
    (result : AddResult c d child c' d' outcome) (available : Available d child.state) (msg : String) :
    outcome ≠ .error (.core .notFound msg) := by
  cases result with
  | unhashed hash => simp
  | duplicateBlock h hash found => simp
  | duplicateTx h hash fresh duplicate => simp
  | noParent h hash fresh missing => simp
  | side h pn admitted lighter => simp
  | rebaseFailed h pn msg' admitted better missing =>
    refine absurd (available.writes (moveDagTip_writes d child pn admitted.hash) ?_) missing
    rintro w (rfl | rfl | rfl)
    · rfl
    · rfl
    · rfl
  | moved h pn d₁ _ state _ admitted better rebased switched =>
    have ends := switchMainList_ne_error (registerTransactions d₁ h child.txs).1 (newChainNode child.toBlockSpec h)
      (pn.addChild h) (.core .notFound msg)
    rw [switched] at ends
    exact ends

/-- **One call.** A call that cleans up no root in use keeps all world states and the canonical chain. -/
theorem StepResult.kept (result : StepResult s a s' o) (ready : SystemReady s) (kept : StatesKept s) (inv : OnTip g s)
    (safe : CleanupSafe s a) : StatesKept s' ∧ OnTip g s' := by
  cases result with
  | quiet s' o steps engine blocks contents =>
    refine ⟨⟨kept.specs_steps ready.log steps safe.not_cleaned, fun j b' ws found state => ?_⟩,
      inv.of_records (SameRecords.of_steps steps) steps.length_le fun c found => engine ▸ found⟩
    rcases blocks j b' found with ⟨old, other⟩ | ⟨-, -, ws', state', -, available⟩
    · exact (kept.blocks j b' ws old state).steps ready.log steps
        fun hit => (safe _ hit).2 j b' ws other old state rfl
    · rw [state', Option.some.injEq] at state
      subst state
      exact available fun b ws found state => kept.blocks j b ws found state
  | added i c c' b child ws₀ ws order parent d₁ d' outcome submits target engine block state cleaned valid hashed root
      result =>
    have steps : TrieSteps (· ∈ cleanedBy s a) s.db d₁ := by
      rw [cleaned]
      exact hashed.persisted.steps
    have log₁ := ready.log.steps steps
    have own : Available d₁ ws.rootHash := hashed.persisted.available (kept.blocks i b ws₀ block state)
    have fine := fun msg => result.rebase_ok (by rw [root]; exact own) msg
    refine ⟨⟨fun h spec found => ?_, fun j b' ws' found state' => ?_⟩,
      inv.submitted engine valid hashed root result fine⟩
    · rw [submitted_db] at found ⊢
      rcases result.getSpec_cases h with old | ⟨-, new⟩
      · rw [old] at found
        exact result.available log₁ (kept.specs_steps ready.log steps safe.not_cleaned h spec found)
      · rw [new] at found
        cases found
        rw [root]
        exact result.available log₁ own
    · rw [submitted_db]
      rcases submitted_block found with ⟨ne, old⟩ | ⟨-, rfl, -⟩
      · refine result.available log₁ ((kept.blocks j b' ws' old state').steps ready.log steps fun hit => ?_)
        refine (safe _ hit).2 j b' ws' (fun same => ne ?_) old state' rfl
        exact Option.some.inj (same.symm.trans target)
      · rw [hashed.state, Option.some.injEq] at state'
        rw [← state']
        exact result.available log₁ own
  | stopped =>
    have steps : TrieSteps (fun _ => False) s.db (freshDisk s.db) := freshDisk_steps s.db
    exact ⟨⟨kept.specs_steps ready.log steps fun _ _ _ => not_false, fun j b ws found => by simp [System.dead] at found⟩,
      inv.stopped⟩
  | restarted h spec d' t gn minerId restarts tip found rebased =>
    have steps : TrieSteps (fun _ => False) s.db d' := rebased.fresh_steps
    exact ⟨⟨kept.specs_steps ready.log steps fun _ _ _ => not_false, fun j b ws found => by simp at found⟩,
      inv.restarted tip found rebased⟩

/-- The empty world state is there after a start. -/
theorem freshDisk_available (d : Disk) : Available (freshDisk d) emptyNode.hash := by
  constructor
  · have stored : getState (freshDisk d) emptyNode.hash = some emptyNode := by
      unfold freshDisk
      rw [newMptWorldState_eq]
      simp [getState, getNode, WriteLog.get_write]
    rw [stored]
    rfl
  · have stored : getNode (freshDisk d) (.txRoot emptyNode.hash) = some emptyNode := by
      unfold freshDisk
      rw [newMptWorldState_eq]
      exact getNode_write_self _ _ _
    rw [stored]
    rfl

theorem statesKept_boot {genesisTime now : UInt64} {minerId : Bytes}
    (started : (System.boot genesisTime now minerId).engine.isSome) :
    StatesKept (System.boot genesisTime now minerId) := by
  rw [(boot_of_started started).2]
  refine ⟨fun h spec found => ?_, fun j b ws found => by simp at found⟩
  rw [bootDisk_getSpec] at found
  split at found
  · cases found
    have other : ∀ {d : Disk} {k : Key} (v : Option Value), k.isTrie = false → Available d emptyNode.hash →
        Available (d.write k v) emptyNode.hash := fun v ne available =>
      available.writes (WritesOnly.write (P := fun w => w.1.isTrie = false) ne _) fun _ trie => trie
    exact other _ rfl (other _ rfl (other _ rfl (freshDisk_available _)))
  · cases found

theorem Reached.kept (reached : Reached CleanupSafe g s) : SystemReady s ∧ StatesKept s ∧ OnTip g s :=
  reached.invariant (fun s => StatesKept s ∧ OnTip g s)
    (fun _ _ _ started genesis => ⟨statesKept_boot started, genesis ▸ onTip_boot started⟩)
    (fun _ a ready inv safe => (step_result ready a).kept ready inv.1 inv.2 safe)

/-- A restart finds its tip and the state of the tip. -/
theorem StatesKept.restart {m : Byte64} (kept : StatesKept s) (log : TrieLog s.db) (canonical : Canonical s.db g m)
    (genesisTime now : UInt64) (minerId : Bytes) : (System.restart s.db genesisTime now minerId).1.engine.isSome := by
  obtain ⟨tip, found⟩ := canonical.tip_stored
  have steps : TrieSteps (fun _ => False) s.db (freshDisk s.db) := freshDisk_steps s.db
  rcases restart_cases log canonical.tip genesisTime now minerId with ⟨e, -, missing⟩ | ⟨spec, d', t, -, -, eq⟩
  · exact absurd ((kept.specs m tip found).steps log steps not_false) (missing tip found)
  · rw [eq]
    rfl

end Invariant

/-! ## A clean-up that hits a stored block -/

namespace Worked

attribute [local instance] workedSha512

/-- A child of genesis that sets `a` to 1. -/
def small : BlockSpec := { left with state := digest oneDigest }

/-- A child of genesis that sets `a` to 1 and `b` to 2. -/
def large : BlockSpec := { left with miner := [2], state := digest bothDigest }

/-- A child of `small` without state updates. -/
def smallChild : BlockSpec := { small with phash := digest smallDigest, depth := 2, wt := 2 }

/-- An approver that approves. -/
def approve : PowApprover := fun _ _ _ => true

/-- `small` is delivered. -/
def deliverSmall : List Action := [.decode 0 small, .update 0 [97] [1], .accept 0 [⟨[97], some [1]⟩] 1]

/-- `large` is decoded, replayed and its proof of work is checked. -/
def checkLarge : List Action :=
  [.decode 1 large, .update 1 [97] [1], .update 1 [98] [2],
    .checkPoW 1 approve [⟨[97], some [1]⟩, ⟨[98], some [2]⟩] 1]

theorem reached_always (actions : List Action) :
    Reached (fun _ _ => True) (genesisHash 1 1) ((System.boot 1 1 [7]).run actions) :=
  ⟨1, 1, [7], actions, started, rfl, Transition.along_true _ _, rfl⟩

/-- The PoW check of `large` cleans up the state of `small`, which is stored and the tip: no world state
can be rebased to it, and a restart fails. -/
theorem small_state_lost :
    let s := (System.boot 1 1 [7]).run (deliverSmall ++ checkLarge)
    Reached (fun _ _ => True) (genesisHash 1 1) s ∧ getSpec s.db (digest smallDigest) = some small ∧
      canRebase s.db small.state = false ∧ (s.next (.restart 1 1 [7])).engine.isNone :=
  ⟨reached_always _, by decide +kernel⟩

/-- The child of `small` is decoded before, and accepted after that: the call ends in an error, and the
engine has moved to the child. -/
theorem smallChild_half_added :
    let s := (System.boot 1 1 [7]).run (deliverSmall ++ .decode 0 smallChild :: checkLarge)
    Reached (fun _ _ => True) (genesisHash 1 1) s ∧
      (s.step (.accept 0 [] 1)).2 = some (.error (.core .notFound "transaction trie does not exists")) ∧
      s.engine.map (·.tip.hash) = some (some (digest smallDigest)) ∧
      (s.next (.accept 0 [] 1)).engine.map (·.tip.hash) = some (some (digest smallChildDigest)) ∧
      getDagTip s.db = some (digest smallDigest) ∧
      getDagTip (s.next (.accept 0 [] 1)).db = some (digest smallChildDigest) :=
  ⟨reached_always _, by decide +kernel⟩

end Worked

/-! ## Runs without such a clean-up -/

section Availability

variable [Sha512] {g : Byte64} {s : System}

/-- **Every stored block keeps its world state.** A fresh world state can be rebased to it, valid children
of stored blocks can be decoded, the engine can hand out its best block and a candidate, and a restart
succeeds. -/
theorem stored_states_available (reached : Reached CleanupSafe g s) :
    (∀ h spec, getSpec s.db h = some spec → canRebase s.db spec.state = true) ∧
      (∀ spec parent, Valid s.db spec parent → ∃ d' b, decodeNetworkBlockSpec s.db spec = (d', .ok b)) ∧
      (∀ c now, s.engine = some c → (newCandidateBlock c s.db now).2.isSome ∧ (bestBlock c s.db).2.isSome) ∧
      ∀ genesisTime now minerId, (System.restart s.db genesisTime now minerId).1.engine.isSome := by
  obtain ⟨ready, kept, m, canonical, synced⟩ := reached.kept
  refine ⟨fun h spec found => canRebase_of_available ready.log (kept.specs h spec found), fun spec parent valid => ?_,
    fun c now engine => ?_, kept.restart ready.log canonical⟩
  · obtain ⟨d', t, miners, -, eq⟩ := decodeNetworkBlockSpec_of_valid ready.log valid (kept.specs _ _ valid.stored)
    exact ⟨d', _, eq⟩
  · obtain ⟨hash, spec, -, root⟩ := synced c engine
    have available : Available s.db c.state.rootHash := by
      rw [root]
      exact kept.specs m _ spec
    exact ⟨newCandidateBlock_isSome ready.log now hash available, bestBlock_isSome ready.log available⟩

end Availability

section Worked

attribute [local instance] workedSha512

theorem Worked.small_safe (s : System) :
    CleanupSafe s (.decode 0 Worked.small) ∧ CleanupSafe s (.update 0 [97] [1]) ∧
      CleanupSafe s (.accept 0 [⟨[97], some [1]⟩] 1) := by
  refine ⟨.of_nil rfl, .of_nil rfl, .of_nil ?_⟩
  simp only [cleanedBy, System.cleanedRoots]
  split
  · exact cleanedRoots_singleton _ _ _
  · rfl

theorem Worked.deliverSmall_reached :
    Reached CleanupSafe (genesisHash 1 1) ((System.boot 1 1 [7]).run Worked.deliverSmall) :=
  ⟨1, 1, [7], Worked.deliverSmall, Worked.started, rfl,
    ⟨(Worked.small_safe _).1, (Worked.small_safe _).2.1, (Worked.small_safe _).2.2, trivial⟩, rfl⟩

theorem stored_states_available_small :
    let s := (System.boot 1 1 [7]).run Worked.deliverSmall
    (∀ h spec, getSpec s.db h = some spec → canRebase s.db spec.state = true) ∧
      (∀ spec parent, Valid s.db spec parent → ∃ d' b, decodeNetworkBlockSpec s.db spec = (d', .ok b)) ∧
      (∀ c now, s.engine = some c → (newCandidateBlock c s.db now).2.isSome ∧ (bestBlock c s.db).2.isSome) ∧
      ∀ genesisTime now minerId, (System.restart s.db genesisTime now minerId).1.engine.isSome :=
  stored_states_available Worked.deliverSmall_reached

end Worked

section Rejection

variable [Sha512] {g : Byte64} {s : System} {a : Action}

/-- **A rejected block changes nothing.** If a submission ends in an error, the engine and all its records
are what they were. -/
theorem rejection_changes_nothing (reached : Reached CleanupSafe g s) (submits : a.submits = true) {e : Err}
    (failed : (s.step a).2 = some (.error e)) :
    (s.next a).engine = s.engine ∧ SameRecords s.db (s.next a).db := by
  obtain ⟨ready, kept, m, canonical, synced⟩ := reached.kept
  have result := step_result ready a
  unfold System.next
  generalize (s.step a).1 = s', (s.step a).2 = o at result failed
  subst failed
  cases result with
  | quiet s' o steps engine blocks contents => exact ⟨engine, SameRecords.of_steps steps⟩
  | added i c c' b child ws₀ ws order parent d₁ d' outcome submits target engine block state cleaned valid hashed root
      result =>
    have own : Available d₁ ws.rootHash := hashed.persisted.available (kept.blocks i b ws₀ block state)
    obtain ⟨m', addition, -⟩ := added_canonical canonical (synced c engine) valid hashed root result
      (fun msg => result.rebase_ok (by rw [root]; exact own) msg)
    cases addition with
    | refused outcome failed =>
      rw [submitted_db]
      exact ⟨engine.symm, hashed.records⟩
  | stopped o restarts =>
    rw [restarts] at submits
    cases submits

end Rejection

section Worked

attribute [local instance] workedSha512

/-- `small` is delivered, decoded again and replayed. -/
def Worked.replaySmall : List Action := Worked.deliverSmall ++ [.decode 0 Worked.small, .update 0 [97] [1]]

theorem Worked.replaySmall_reached :
    Reached CleanupSafe (genesisHash 1 1) ((System.boot 1 1 [7]).run Worked.replaySmall) :=
  ⟨1, 1, [7], Worked.replaySmall, Worked.started, rfl,
    ⟨(Worked.small_safe _).1, (Worked.small_safe _).2.1, (Worked.small_safe _).2.2, (Worked.small_safe _).1,
      (Worked.small_safe _).2.1, trivial⟩, rfl⟩

theorem rejection_changes_nothing_small :
    let s := (System.boot 1 1 [7]).run Worked.replaySmall
    let a := Action.accept 0 [⟨[97], some [1]⟩] 1
    (s.step a).2 = some (.error (.core .duplicateBlock "duplicate block")) ∧ (s.next a).engine = s.engine ∧
      SameRecords s.db (s.next a).db := by
  have failed : (((System.boot 1 1 [7]).run Worked.replaySmall).step (.accept 0 [⟨[97], some [1]⟩] 1)).2 =
      some (.error (.core .duplicateBlock "duplicate block")) := by decide +kernel
  exact ⟨failed, rejection_changes_nothing Worked.replaySmall_reached rfl failed⟩

end Worked

end TrustNet
