import TrustNet.Consensus.Calls

/-!
# The steps of a node

`StepResult` says once what a call can do to a node: trie writes only, an
addition (`AddResult`), or a restart. `SystemReady` is what every reachable
state satisfies and what the lemmas about single calls need.
-/

namespace TrustNet
set_option autoImplicit false
open WriteLog (WritesOnly)

variable [Sha512]

/-- The block has a world state to work on. -/
def Block.Open (b : Block) : Prop := ∃ ws, b.worldState = some ws ∧ ws.Ready

/-- What holds in every state of a node, whatever was called. -/
structure SystemReady (s : System) : Prop where
  log : TrieLog s.db
  tip : (getDagTip s.db).isSome
  blocks : ∀ i b, s.blocks i = some b → b.Open
  engine : ∀ c, s.engine = some c → c.state.Ready ∧ c.tip.hash.isSome
  specs : ∀ h spec, getSpec s.db h = some spec → spec.state ≠ null

/-- The block that a call works on. -/
def Action.target : Action → Option Nat
  | .decode i _ | .candidate i _ | .update i _ _ | .delete i _ | .lookup i _ | .addTransaction i _
  | .checkPoW i _ _ _ | .accept i _ _ | .mine i _ _ _ => some i
  | .block _ | .bestBlock | .restart _ _ _ => none

/-- The calls that submit a block. -/
def Action.submits : Action → Bool
  | .accept _ _ _ | .mine _ _ _ _ => true
  | _ => false

/-- The roots that persisting the overlay of block `i` cleans up. -/
def System.cleanedRoots (s : System) (i : Nat) (order : List Entry) : List Byte64 :=
  match (s.blocks i).bind (·.worldState) with
  | some ws => TrustNet.cleanedRoots s.db ws order false
  | none => []

/-- The roots that a call cleans up. -/
def cleanedBy (s : System) : Action → List Byte64
  | .checkPoW i _ order _ | .accept i order _ | .mine i _ order _ => s.cleanedRoots i order
  | _ => []

/-- The data whose digest a call takes for the hash of a block. -/
def hashedBy (s : System) : Action → List Bytes
  | .checkPoW i apprvr order tries =>
    match s.blocks i with
    | some b => ({ b with pow := some apprvr } : Block).hashInputs s.db order tries
    | none => []
  | .accept i order tries =>
    match s.blocks i with
    | some b => b.submittedInputs s.db order tries
    | none => []
  | .mine i apprvr order tries =>
    match s.blocks i with
    | some b => (System.withApprover b apprvr).submittedInputs s.db order tries
    | none => []
  | _ => []

/-- Where the hash of block `j` comes from: an earlier call, or this one. -/
def HashOrigin (s : System) (a : Action) (j : Nat) (b' : Block) : Prop :=
  b'.hash = none ∨ (∃ b, s.blocks j = some b ∧ b'.hash = b.hash ∧ b'.phash = b.phash) ∨
    (b'.hash = some (sum512 b'.hashInput) ∧ b'.hashInput ∈ hashedBy s a)

/-- The blocks in hand after a call: only its own block changes, and its root stays available. -/
def BlocksAfter (s : System) (a : Action) (s' : System) : Prop :=
  ∀ j b', s'.blocks j = some b' →
    (s.blocks j = some b' ∧ a.target ≠ some j) ∨
      (a.target = some j ∧ HashOrigin s a j b' ∧ ∃ ws', b'.worldState = some ws' ∧ ws'.Ready ∧
        ((∀ b ws, s.blocks j = some b → b.worldState = some ws → Available s.db ws.rootHash) →
          Available s'.db ws'.rootHash))

/-- All nodes of the database are roots of tries, and all world states in hand have contents. -/
structure ContentsKept (s : System) : Prop where
  whole : Whole s.db
  blocks : ∀ j b ws, s.blocks j = some b → b.worldState = some ws → ∃ T, Holds s.db ws T

/-- What a call can do. -/
inductive StepResult (s : System) (a : Action) : System → Option Outcome → Prop where
  | quiet (s' : System) (o : Option Outcome) (steps : TrieSteps (· ∈ cleanedBy s a) s.db s'.db)
      (engine : s'.engine = s.engine) (blocks : BlocksAfter s a s')
      (contents : HashSound (Known s'.db) → ContentsKept s → ContentsKept s') : StepResult s a s' o
  | added (i : Nat) (c c' : BlockChainConsensus) (b child : Block) (ws₀ ws : MptWorldState) (order : List Entry)
      (parent : BlockSpec) (d₁ d' : Disk) (outcome : Outcome) (submits : a.submits = true) (target : a.target = some i)
      (engine : s.engine = some c) (block : s.blocks i = some b) (state : b.worldState = some ws₀)
      (cleaned : cleanedBy s a = cleanedRoots s.db ws₀ order false) (valid : Valid s.db b.toBlockSpec parent)
      (hashed : Hashed s.db b ws₀ order (hashedBy s a) d₁ child ws) (root : child.state = ws.rootHash)
      (result : AddResult c d₁ child c' d' outcome) :
      StepResult s a (s.submitted i c' d' child outcome).1 (some outcome)
  | stopped (o : Option Outcome) (restarts : a.submits = false) : StepResult s a (System.dead (freshDisk s.db)) o
  | restarted (h : Byte64) (spec : BlockSpec) (d' : Disk) (t : MptWorldState) (gn : ChainNode) (minerId : Bytes)
      (restarts : a.submits = false) (tip : getDagTip s.db = some h) (found : getSpec s.db h = some spec)
      (rebased : Rebased (freshDisk s.db) spec.state d' t) :
      StepResult s a ⟨d', some ⟨t, { spec.toBlock with hash := some h }, spec.wt, gn, minerId⟩, fun _ => none⟩
        (some .ok)

section Blocks

variable {s : System} {a : Action} {i : Nat}

/-- A call that could not be made, or that made no change. -/
theorem StepResult.idle (ready : SystemReady s) (o : Option Outcome) : StepResult s a s o := by
  refine .quiet s o (WritesOnly.refl s.db) rfl (fun j b' found => ?_) fun _ => id
  by_cases target : a.target = some j
  · obtain ⟨ws, state, ok⟩ := ready.blocks j b' found
    exact Or.inr ⟨target, Or.inr (Or.inl ⟨b', found, rfl, rfl⟩), ws, state, ok, fun available =>
      available b' ws found state⟩
  · exact Or.inl ⟨found, target⟩

/-- A call that made trie writes and touched no block. -/
theorem StepResult.writes {d' : Disk} (ready : SystemReady s) (steps : TrieSteps (fun _ => False) s.db d')
    (whole : Whole s.db → Whole d') (o : Option Outcome) : StepResult s a { s with db := d' } o := by
  refine .quiet _ o (steps.mono (TrieWrite.mono fun _ hit => hit.elim)) rfl (fun j b' found => ?_) fun _ kept =>
    ⟨whole kept.whole, fun j b ws found state => (kept.blocks j b ws found state).imp fun _ => Holds.of_suffix steps.suffix⟩
  by_cases target : a.target = some j
  · obtain ⟨ws, state, ok⟩ := ready.blocks j b' found
    exact Or.inr ⟨target, Or.inr (Or.inl ⟨b', found, rfl, rfl⟩), ws, state, ok, fun available =>
      Available.steps ready.log steps not_false (available b' ws found state)⟩
  · exact Or.inl ⟨found, target⟩

/-- A call that made trie writes and left `b'` in hand. -/
theorem StepResult.setBlock {d' : Disk} {b' : Block} (ws' : MptWorldState) (target : a.target = some i)
    (origin : HashOrigin s a i b')
    (steps : TrieSteps (· ∈ cleanedBy s a) s.db d') (state : b'.worldState = some ws') (ok : ws'.Ready)
    (available : (∀ b ws, s.blocks i = some b → b.worldState = some ws → Available s.db ws.rootHash) →
      Available d' ws'.rootHash)
    (contents : HashSound (Known d') → ContentsKept s → Whole d' ∧ ∃ T, Holds d' ws' T) (o : Option Outcome) :
    StepResult s a (({ s with db := d' } : System).setBlock i (some b')) o := by
  refine .quiet _ o steps rfl (fun j b found => ?_) fun sound kept => ⟨(contents sound kept).1, fun j b ws found has => ?_⟩
  · by_cases eq : j = i
    · subst eq
      simp only [System.setBlock, Function.update_self, Option.some.injEq] at found
      subst found
      exact Or.inr ⟨target, origin, ws', state, ok, available⟩
    · simp only [System.setBlock, Function.update_of_ne eq] at found
      exact Or.inl ⟨found, fun same => eq (Option.some.inj (same.symm.trans target))⟩
  · by_cases eq : j = i
    · subst eq
      simp only [System.setBlock, Function.update_self, Option.some.injEq] at found
      rw [← found, state, Option.some.injEq] at has
      subst has
      exact (contents sound kept).2
    · simp only [System.setBlock, Function.update_of_ne eq] at found
      exact (kept.blocks j b ws found has).imp fun _ => Holds.of_suffix steps.suffix

/-- A call that changed a block in hand but not its world state. -/
theorem StepResult.overlay {b : Block} (b' : Block) (ready : SystemReady s) (target : a.target = some i)
    (block : s.blocks i = some b) (hash : b'.hash = b.hash ∧ b'.phash = b.phash)
    (same : b'.worldState = b.worldState) (o : Option Outcome) :
    StepResult s a (s.setBlock i (some b')) o := by
  obtain ⟨ws, state, ok⟩ := ready.blocks i b block
  exact StepResult.setBlock ws target (Or.inr (Or.inl ⟨b, block, hash⟩)) (WritesOnly.refl s.db) (same.trans state) ok
    (fun available => available b ws block state) (fun _ kept => ⟨kept.whole, kept.blocks i b ws block state⟩) o

theorem Hashed.origin {b child : Block} {ws₀ ws : MptWorldState} {order : List Entry} {d₁ : Disk}
    (block : s.blocks i = some b) (hashed : Hashed s.db b ws₀ order (hashedBy s a) d₁ child ws) :
    HashOrigin s a i child :=
  Or.inr (hashed.input.imp (fun same => ⟨b, block, same, hashed.fields.1⟩) id)

/-- A call that persisted the overlay of a block in hand and left it there. -/
theorem StepResult.hashed {b child : Block} {ws₀ ws : MptWorldState} {order : List Entry} {d₁ : Disk}
    (ready : SystemReady s) (target : a.target = some i) (block : s.blocks i = some b) (state : b.worldState = some ws₀)
    (cleaned : cleanedBy s a = cleanedRoots s.db ws₀ order false)
    (hashed : Hashed s.db b ws₀ order (hashedBy s a) d₁ child ws) (o : Option Outcome) :
    StepResult s a (({ s with db := d₁ } : System).setBlock i (some child)) o := by
  obtain ⟨ws', state', ok⟩ := ready.blocks i b block
  rw [state, Option.some.injEq] at state'
  subst state'
  refine StepResult.setBlock ws target (hashed.origin block) ?_ hashed.state hashed.persisted.ready ?_
    (fun sound kept => ?_) o
  · rw [cleaned]
    exact hashed.persisted.steps
  · exact fun available => hashed.persisted.available (available b ws₀ block state)
  · obtain ⟨T, holds⟩ := kept.blocks i b ws₀ block state
    obtain ⟨holds', whole⟩ := hashed.contents ready.log ok kept.whole holds sound
    exact ⟨whole, _, holds'⟩

end Blocks

/-- The end of a call that persisted the overlay of a block in hand, without a panic. -/
theorem StepResult.finished {s : System} {a : Action} {i : Nat} {b child : Block} {ws₀ ws : MptWorldState}
    {order : List Entry} {d₁ : Disk} {outcome : Outcome} (ready : SystemReady s) (target : a.target = some i)
    (block : s.blocks i = some b) (state : b.worldState = some ws₀) (cleaned : cleanedBy s a = cleanedRoots s.db ws₀ order false)
    (hashed : Hashed s.db b ws₀ order (hashedBy s a) d₁ child ws) (alive : outcome ≠ .panic) :
    StepResult s a (s.finish i d₁ child outcome).1 (s.finish i d₁ child outcome).2 := by
  cases outcome with
  | ok => exact StepResult.hashed ready target block state cleaned hashed _
  | error e => exact StepResult.hashed ready target block state cleaned hashed _
  | panic => exact absurd rfl alive

omit [Sha512] in
/-- A submission that was turned down before the block was added leaves the block in hand. -/
theorem submitted_error (s : System) (i : Nat) {c : BlockChainConsensus} (engine : s.engine = some c) (d' : Disk)
    (b : Block) (e : Err) :
    s.submitted i c d' b (.error e) = (({ s with db := d' } : System).setBlock i (some b), some (.error e)) := by
  simp only [System.submitted, ← engine]

theorem StepResult.of_added {s : System} {a : Action} {i : Nat} {c c' : BlockChainConsensus} {b child : Block}
    {ws₀ ws : MptWorldState} {order : List Entry} {parent : BlockSpec} {d₁ d' : Disk} {outcome : Outcome}
    (submits : a.submits = true) (target : a.target = some i) (engine : s.engine = some c)
    (block : s.blocks i = some b) (state : b.worldState = some ws₀)
    (cleaned : cleanedBy s a = cleanedRoots s.db ws₀ order false) (valid : Valid s.db b.toBlockSpec parent)
    (hashed : Hashed s.db b ws₀ order (hashedBy s a) d₁ child ws) (root : child.state = ws.rootHash) (result : AddResult c d₁ child c' d' outcome) :
    StepResult s a (s.submitted i c' d' child outcome).1 (s.submitted i c' d' child outcome).2 := by
  have ends : (s.submitted i c' d' child outcome).2 = some outcome := by cases outcome <;> rfl
  rw [ends]
  exact .added i c c' b child ws₀ ws order parent d₁ d' outcome submits target engine block state cleaned valid hashed
    root result

omit [Sha512] in
/-- `Lookup` changes the overlay of the block. -/
theorem lookup_vars (b : Block) (d : Disk) (key : Bytes) : ∃ vars, (b.lookup d key).1 = { b with vars } := by
  unfold Block.lookup
  split
  · exact ⟨b.vars, rfl⟩
  · exact ⟨b.vars, rfl⟩
  · split
    · exact ⟨b.vars, rfl⟩
    · split
      · exact ⟨_, rfl⟩
      · exact ⟨b.vars, rfl⟩

omit [Sha512] in
theorem lookup_same (b : Block) (d : Disk) (key : Bytes) :
    (b.lookup d key).1.worldState = b.worldState ∧ (b.lookup d key).1.toBlockSpec = b.toBlockSpec ∧
      (b.lookup d key).1.hash = b.hash := by
  obtain ⟨vars, eq⟩ := lookup_vars b d key
  rw [eq]
  exact ⟨rfl, rfl, rfl⟩

omit [Sha512] in
theorem lookup_ne_panic {b : Block} (isOpen : b.Open) (d : Disk) (key : Bytes) : (b.lookup d key).2 ≠ .panic := by
  obtain ⟨ws, state, -⟩ := isOpen
  unfold Block.lookup
  rw [state]
  split
  · simp
  · simp
  · simp only
    split
    · simp
    · simp

theorem addTransaction_same (b : Block) (d : Disk) (tx : Transaction) :
    (b.addTransaction d tx).1.worldState = b.worldState ∧ (b.addTransaction d tx).1.phash = b.phash ∧
      (b.addTransaction d tx).1.hash = b.hash := by
  unfold Block.addTransaction
  split
  · exact ⟨rfl, rfl, rfl⟩
  · split
    · exact ⟨rfl, rfl, rfl⟩
    · split
      · exact ⟨rfl, rfl, rfl⟩
      · exact ⟨rfl, rfl, rfl⟩

theorem addTransaction_ne_panic {b : Block} (isOpen : b.Open) (d : Disk) (tx : Transaction) :
    (b.addTransaction d tx).2 ≠ .panic := by
  obtain ⟨ws, state, -⟩ := isOpen
  unfold Block.addTransaction
  simp only [state, Option.isNone_some, Bool.false_eq_true, if_false]
  split
  · simp
  · split
    · simp
    · simp

section Results

variable {s : System} (ready : SystemReady s)
include ready

theorem decode_result (i : Nat) (spec : BlockSpec) :
    StepResult s (.decode i spec) (s.step (.decode i spec)).1 (s.step (.decode i spec)).2 := by
  simp only [System.step]
  split
  · exact StepResult.idle ready _
  · rcases decodeNetworkBlockSpec_cases ready.log spec with
      ⟨b', e, -, eq⟩ | ⟨parent, eq, -, -⟩ | ⟨parent, d', t, miners, valid, rebased, eq⟩
    · rw [eq]
      exact StepResult.idle ready _
    · rw [eq]
      exact StepResult.writes ready (freshDisk_steps s.db) Whole.newMptWorldState _
    · rw [eq]
      exact StepResult.setBlock t rfl (Or.inl rfl) rebased.fresh_steps rfl (rebased.ready (ready.specs _ _ valid.stored))
        (fun _ => rebased.available_after ready.log.freshDisk)
        (fun _ kept => rebased.contents ready.log.freshDisk kept.whole.newMptWorldState) _

theorem candidate_result (i : Nat) (now : UInt64) :
    StepResult s (.candidate i now) (s.step (.candidate i now)).1 (s.step (.candidate i now)).2 := by
  simp only [System.step]
  split
  · exact StepResult.idle ready _
  · rename_i c engine
    obtain ⟨ok, hashed⟩ := ready.engine c engine
    obtain ⟨th, tip⟩ := Option.isSome_iff_exists.mp hashed
    rcases newCandidateBlock_cases ready.log c now tip with ⟨-, eq⟩ | ⟨d', t, miners, rebased, eq⟩
    · rw [eq]
      have steps : TrieSteps (fun _ => False) s.db (freshDisk s.db) := freshDisk_steps s.db
      refine .quiet _ _ (freshDisk_steps s.db) rfl (fun j b found => ?_) fun _ kept =>
        ⟨kept.whole.newMptWorldState, fun j b ws found state => ?_⟩
      · by_cases same : j = i
        · subst same
          simp [System.setBlock] at found
        · simp only [System.setBlock, Function.update_of_ne same] at found
          exact Or.inl ⟨found, by simpa [Action.target] using Ne.symm same⟩
      · by_cases same : j = i
        · subst same
          simp [System.setBlock] at found
        · simp only [System.setBlock, Function.update_of_ne same] at found
          exact (kept.blocks j b ws found state).imp fun _ => Holds.of_suffix steps.suffix
    · rw [eq]
      exact StepResult.setBlock t rfl (Or.inl rfl) rebased.fresh_steps rfl (rebased.ready ok.rootHash)
        (fun _ => rebased.available_after ready.log.freshDisk)
        (fun _ kept => rebased.contents ready.log.freshDisk kept.whole.newMptWorldState) _

theorem update_result (i : Nat) (key value : Bytes) :
    StepResult s (.update i key value) (s.step (.update i key value)).1 (s.step (.update i key value)).2 := by
  simp only [System.step, System.onBlock]
  split
  · rename_i c b _ block
    exact StepResult.overlay (a := .update i key value) (b.update key value) ready rfl block ⟨rfl, rfl⟩ rfl _
  · exact StepResult.idle ready _

theorem delete_result (i : Nat) (key : Bytes) :
    StepResult s (.delete i key) (s.step (.delete i key)).1 (s.step (.delete i key)).2 := by
  simp only [System.step, System.onBlock]
  split
  · rename_i c b _ block
    exact StepResult.overlay (a := .delete i key) (b.delete key) ready rfl block ⟨rfl, rfl⟩ rfl _
  · exact StepResult.idle ready _

theorem lookup_result (i : Nat) (key : Bytes) :
    StepResult s (.lookup i key) (s.step (.lookup i key)).1 (s.step (.lookup i key)).2 := by
  simp only [System.step, System.onBlock]
  split
  · rename_i c b _ block
    have same := lookup_same b s.db key
    have alive := lookup_ne_panic (ready.blocks i b block) s.db key
    generalize b.lookup s.db key = result at same alive ⊢
    obtain ⟨b', reply⟩ := result
    cases reply with
    | value v =>
      exact StepResult.overlay (a := .lookup i key) b' ready rfl block
        ⟨same.2.2, congrArg BlockSpec.phash same.2.1⟩ same.1 _
    | error e =>
      exact StepResult.overlay (a := .lookup i key) b' ready rfl block
        ⟨same.2.2, congrArg BlockSpec.phash same.2.1⟩ same.1 _
    | panic => exact absurd rfl alive
  · exact StepResult.idle ready _

theorem addTransaction_result (i : Nat) (tx : Transaction) :
    StepResult s (.addTransaction i tx) (s.step (.addTransaction i tx)).1 (s.step (.addTransaction i tx)).2 := by
  simp only [System.step, System.onBlock]
  split
  · rename_i c b _ block
    have same := addTransaction_same b s.db tx
    have alive := addTransaction_ne_panic (ready.blocks i b block) s.db tx
    generalize b.addTransaction s.db tx = result at same alive ⊢
    obtain ⟨b', outcome⟩ := result
    cases outcome with
    | ok =>
      exact StepResult.overlay (a := .addTransaction i tx) b' ready rfl block
        ⟨same.2.2, same.2.1⟩ same.1 _
    | error e =>
      exact StepResult.overlay (a := .addTransaction i tx) b' ready rfl block
        ⟨same.2.2, same.2.1⟩ same.1 _
    | panic => exact absurd rfl alive
  · exact StepResult.idle ready _

theorem checkPoW_result (i : Nat) (apprvr : PowApprover) (order : List Entry) (tries : Nat) :
    StepResult s (.checkPoW i apprvr order tries) (s.step (.checkPoW i apprvr order tries)).1 (s.step (.checkPoW i apprvr order tries)).2 := by
  simp only [System.step, System.onBlock]
  split
  · rename_i c b _ block
    split
    · obtain ⟨ws₀, state, ok⟩ := ready.blocks i b block
      have cleaned : cleanedBy s (.checkPoW i apprvr order tries) = cleanedRoots s.db ws₀ order false := by
        simp [cleanedBy, System.cleanedRoots, block, state]
      have inputs : hashedBy s (.checkPoW i apprvr order tries) =
        ({ b with pow := some apprvr } : Block).hashInputs s.db order tries := by simp [hashedBy, block]
      have ends := checkNetworkBlockPoW_cases ready.log state ok apprvr order tries
      rw [← inputs] at ends
      rcases ends with
        ⟨e, eq⟩ | ⟨d₁, child, ws, outcome, hashed, alive, eq⟩
      · rw [eq]
        exact StepResult.overlay (a := .checkPoW i apprvr order tries) b ready rfl block ⟨rfl, rfl⟩ rfl _
      · rw [eq]
        exact StepResult.finished ready rfl block state cleaned hashed alive
    · exact StepResult.idle ready _
  · exact StepResult.idle ready _

theorem accept_result (i : Nat) (order : List Entry) (tries : Nat) :
    StepResult s (.accept i order tries) (s.step (.accept i order tries)).1 (s.step (.accept i order tries)).2 := by
  simp only [System.step, System.onBlock]
  split
  · rename_i c b engine block
    split
    · obtain ⟨ws₀, state, ok⟩ := ready.blocks i b block
      have cleaned : cleanedBy s (.accept i order tries) = cleanedRoots s.db ws₀ order false := by
        simp [cleanedBy, System.cleanedRoots, block, state]
      have inputs : hashedBy s (.accept i order tries) = b.submittedInputs s.db order tries := by simp [hashedBy, block]
      have ends := acceptNetworkBlock_cases ready.log state ok (ready.engine c engine).1 order tries
      rw [← inputs] at ends
      rcases ends with
        ⟨e, miners, -, eq⟩ | ⟨parent, d₁, child, ws, valid, hashed, ⟨e, -, eq⟩ | ⟨root, c', d', outcome, result, eq⟩⟩
      · rw [eq, submitted_error s i engine]
        exact StepResult.overlay (a := .accept i order tries) { b with uncleMiners := miners } ready rfl block
          ⟨rfl, rfl⟩ rfl _
      · rw [eq, submitted_error s i engine]
        exact StepResult.hashed ready rfl block state cleaned hashed _
      · rw [eq]
        exact StepResult.of_added rfl rfl engine block state cleaned valid hashed root result
    · exact StepResult.idle ready _
  · exact StepResult.idle ready _

theorem mine_result (i : Nat) (apprvr : Option PowApprover) (order : List Entry) (tries : Nat) :
    StepResult s (.mine i apprvr order tries) (s.step (.mine i apprvr order tries)).1 (s.step (.mine i apprvr order tries)).2 := by
  simp only [System.step, System.onBlock]
  split
  · rename_i c b engine block
    split
    · rename_i own
      obtain ⟨ws₀, state, ok⟩ := ready.blocks i b block
      have cleaned : cleanedBy s (.mine i apprvr order tries) = cleanedRoots s.db ws₀ order false := by
        simp [cleanedBy, System.cleanedRoots, block, state]
      have inputs : hashedBy s (.mine i apprvr order tries) =
        (System.withApprover b apprvr).submittedInputs s.db order tries := by simp [hashedBy, block]
      have ends := mineCandidateBlock_cases ready.log state ok (ready.engine c engine).1 own.1 apprvr order tries
      rw [← inputs] at ends
      rcases ends with
        ⟨e, miners, pow, -, eq⟩ | ⟨parent, d₁, child, ws, valid, hashed, ⟨e, -, eq⟩ | ⟨root, c', d', outcome, result, eq⟩⟩
      · rw [eq, submitted_error s i engine]
        exact StepResult.overlay (a := .mine i apprvr order tries) { b with uncleMiners := miners, pow } ready rfl
          block ⟨rfl, rfl⟩ rfl _
      · rw [eq, submitted_error s i engine]
        exact StepResult.hashed ready rfl block state cleaned hashed _
      · rw [eq]
        exact StepResult.of_added rfl rfl engine block state cleaned valid hashed root result
    · exact StepResult.idle ready _
  · exact StepResult.idle ready _

theorem block_result (h : Byte64) :
    StepResult s (.block h) (s.step (.block h)).1 (s.step (.block h)).2 := by
  simp only [System.step]
  split
  · exact StepResult.idle ready _
  · have steps := blockAt_steps ready.log h
    have whole := fun start => Whole.blockAt ready.log start h
    generalize blockAt s.db h = result at steps whole ⊢
    obtain ⟨d', answer⟩ := result
    cases answer with
    | ok b => exact StepResult.writes ready steps whole _
    | error e => exact StepResult.writes ready steps whole _

theorem bestBlock_result :
    StepResult s .bestBlock (s.step .bestBlock).1 (s.step .bestBlock).2 := by
  simp only [System.step]
  split
  · exact StepResult.idle ready _
  · rename_i c _
    exact StepResult.writes ready (bestBlock_steps ready.log c) (fun start => start.bestBlock ready.log c) _

theorem restart_result (genesisTime now : UInt64) (minerId : Bytes) :
    StepResult s (.restart genesisTime now minerId) (s.step (.restart genesisTime now minerId)).1 (s.step (.restart genesisTime now minerId)).2 := by
  obtain ⟨h, tip⟩ := Option.isSome_iff_exists.mp ready.tip
  simp only [System.step]
  rcases restart_cases ready.log tip genesisTime now minerId with ⟨e, eq, -⟩ | ⟨spec, d', t, found, rebased, eq⟩
  · rw [eq]
    exact .stopped _ rfl
  · rw [eq]
    exact .restarted h spec d' t _ minerId rfl tip found rebased

end Results

/-- **What a call can do.** -/
theorem step_result {s : System} (ready : SystemReady s) (a : Action) :
    StepResult s a (s.step a).1 (s.step a).2 := by
  cases a with
  | decode i spec => exact decode_result ready i spec
  | candidate i now => exact candidate_result ready i now
  | update i key value => exact update_result ready i key value
  | delete i key => exact delete_result ready i key
  | lookup i key => exact lookup_result ready i key
  | addTransaction i tx => exact addTransaction_result ready i tx
  | checkPoW i apprvr order tries => exact checkPoW_result ready i apprvr order tries
  | accept i order tries => exact accept_result ready i order tries
  | mine i apprvr order tries => exact mine_result ready i apprvr order tries
  | block h => exact block_result ready h
  | bestBlock => exact bestBlock_result ready
  | restart genesisTime now minerId => exact restart_result ready genesisTime now minerId

/-! ## Every state is ready -/

section Submitted

variable {s : System} {i j : Nat} {c c' : BlockChainConsensus} {d' : Disk} {b : Block} {outcome : Outcome}

omit [Sha512] in
theorem submitted_db (s : System) (i : Nat) (c : BlockChainConsensus) (d' : Disk) (b : Block) (outcome : Outcome) :
    (s.submitted i c d' b outcome).1.db = d' := by
  cases outcome <;> rfl

omit [Sha512] in
theorem submitted_engine (engine : (s.submitted i c d' b outcome).1.engine = some c') :
    c' = c ∧ outcome ≠ .panic := by
  cases outcome with
  | ok =>
    simp only [System.submitted, System.setBlock, Option.some.injEq] at engine
    exact ⟨engine.symm, by simp⟩
  | error e =>
    simp only [System.submitted, System.setBlock, Option.some.injEq] at engine
    exact ⟨engine.symm, by simp⟩
  | panic => cases engine

omit [Sha512] in
/-- A submitted block stays in hand only if it was turned down. -/
theorem submitted_block {b' : Block} (found : (s.submitted i c d' b outcome).1.blocks j = some b') :
    (j ≠ i ∧ s.blocks j = some b') ∨ (j = i ∧ b' = b ∧ ∃ e, outcome = .error e) := by
  cases outcome with
  | ok =>
    by_cases eq : j = i
    · subst eq
      simp [System.submitted, System.setBlock] at found
    · simp only [System.submitted, System.setBlock, Function.update_of_ne eq] at found
      exact Or.inl ⟨eq, found⟩
  | error e =>
    by_cases eq : j = i
    · subst eq
      simp only [System.submitted, System.setBlock, Function.update_self, Option.some.injEq] at found
      exact Or.inr ⟨rfl, found.symm, e, rfl⟩
    · simp only [System.submitted, System.setBlock, Function.update_of_ne eq] at found
      exact Or.inl ⟨eq, found⟩
  | panic => cases found

end Submitted

theorem systemReady_next {s : System} (ready : SystemReady s) (a : Action) : SystemReady (s.next a) := by
  have result := step_result ready a
  unfold System.next
  generalize (s.step a).1 = s', (s.step a).2 = o at result
  cases result with
  | quiet s' _ steps engine blocks contents =>
    have same := SameRecords.of_steps steps
    refine ⟨ready.log.steps steps, by rw [same.dagTip]; exact ready.tip, ?_, ?_, ?_⟩
    · intro j b' found
      rcases blocks j b' found with ⟨old, -⟩ | ⟨-, -, ws, state, ok, -⟩
      · exact ready.blocks j b' old
      · exact ⟨ws, state, ok⟩
    · rw [engine]
      exact ready.engine
    · intro h spec found
      rw [same.spec] at found
      exact ready.specs h spec found
  | added i c c' b child ws₀ ws order parent d₁ d' outcome submits target engine block state cleaned valid hashed root
      result =>
    have log₁ := ready.log.steps hashed.persisted.steps
    have same := SameRecords.of_steps hashed.persisted.steps
    have childState : child.state ≠ null := by
      rw [root]
      exact hashed.persisted.ready.rootHash
    obtain ⟨engineReady, tipHashed⟩ := ready.engine c engine
    refine ⟨?_, ?_, ?_, ?_, ?_⟩
    · rw [submitted_db]
      exact result.trieLog log₁
    · rw [submitted_db]
      exact result.dagTip_isSome (by rw [same.dagTip]; exact ready.tip)
    · intro j b' found
      rcases submitted_block found with ⟨-, old⟩ | ⟨-, rfl, -⟩
      · exact ready.blocks j b' old
      · exact ⟨ws, hashed.state, hashed.persisted.ready⟩
    · intro c'' found
      obtain ⟨rfl, alive⟩ := submitted_engine found
      exact result.engine_ready alive engineReady tipHashed childState
    · intro h spec found
      rw [submitted_db] at found
      rcases result.getSpec_cases h with old | ⟨-, new⟩
      · rw [old, same.spec] at found
        exact ready.specs h spec found
      · rw [new] at found
        cases found
        exact childState
  | stopped =>
    have steps : TrieSteps (fun _ => False) s.db (freshDisk s.db) := freshDisk_steps s.db
    have same := SameRecords.of_steps steps
    refine ⟨ready.log.steps steps, ?_, ?_, ?_, ?_⟩
    · simp only [System.dead, same.dagTip]
      exact ready.tip
    · intro j b found
      simp [System.dead] at found
    · intro c found
      simp [System.dead] at found
    · intro h spec found
      simp only [System.dead, same.spec] at found
      exact ready.specs h spec found
  | restarted h spec d' t gn minerId restarts tip found rebased =>
    have steps : TrieSteps (fun _ => False) s.db d' := rebased.fresh_steps
    have same := SameRecords.of_steps steps
    refine ⟨ready.log.steps steps, ?_, ?_, ?_, ?_⟩
    · simp only [same.dagTip]
      exact ready.tip
    · intro j b found
      simp at found
    · intro c engine
      simp only [Option.some.injEq] at engine
      subst engine
      exact ⟨rebased.ready (ready.specs h spec found), rfl⟩
    · intro h' spec' found'
      simp only [same.spec] at found'
      exact ready.specs h' spec' found'

theorem TrieLog.write {d : Disk} (log : TrieLog d) {k : Key} (v : Option Value) (other : k.isTrie = false) :
    TrieLog (d.write k v) := by
  refine log.writes (WritesOnly.write (P := fun w => w = (k, v)) rfl d) ?_
  rintro w rfl trie
  rw [other] at trie
  cases trie

theorem bootDisk_trieLog (genesisTime now : UInt64) : TrieLog (bootDisk genesisTime now) :=
  ((TrieLog.empty.freshDisk.write _ rfl).write _ rfl).write _ rfl

/-- The records that the first start leaves. -/
theorem bootDisk_getSpec (genesisTime now : UInt64) (h : Byte64) :
    getSpec (bootDisk genesisTime now) h =
      if h = genesisHash genesisTime now then some (hashedGenesis genesisTime now).toBlockSpec else none := by
  unfold bootDisk initDisk
  rw [getSpec_write_of_ne _ _ (by simp)]
  by_cases eq : h = genesisHash genesisTime now
  · subst eq
    simp
  · rw [getSpec_write_of_ne _ _ (by simpa using Ne.symm eq), getSpec_write_of_ne _ _ (by simp), if_neg eq]
    rfl

theorem bootDisk_getDagTip (genesisTime now : UInt64) :
    getDagTip (bootDisk genesisTime now) = some (genesisHash genesisTime now) := by
  unfold bootDisk initDisk
  rw [getDagTip_write_of_ne _ _ (by simp), getDagTip_write_of_ne _ _ (by simp), getDagTip_write_self]

theorem bootDisk_getChainNode (genesisTime now : UInt64) (h : Byte64) :
    getChainNode (bootDisk genesisTime now) h =
      if h = genesisHash genesisTime now then some (genesisNode genesisTime now) else none := by
  unfold bootDisk initDisk
  by_cases eq : h = genesisHash genesisTime now
  · subst eq
    simp
  · rw [getChainNode_write_of_ne _ _ (by simpa using Ne.symm eq), getChainNode_write_of_ne _ _ (by simp),
      getChainNode_write_of_ne _ _ (by simp), if_neg eq]
    rfl

theorem bootDisk_acceptedBlocks (genesisTime now : UInt64) :
    acceptedBlocks (bootDisk genesisTime now) =
      [(genesisHash genesisTime now, (hashedGenesis genesisTime now).toBlockSpec)] := by
  unfold bootDisk initDisk
  rw [acceptedBlocks_write_of_ne _ _ (by simp), acceptedBlocks_write, acceptedBlocks_write_of_ne _ _ (by simp),
    (freshDisk_records _).accepted]
  rfl

/-- A node whose first start succeeded. -/
theorem boot_of_started {genesisTime now : UInt64} {minerId : Bytes}
    (started : (System.boot genesisTime now minerId).engine.isSome) :
    emptyNode.hash ≠ null ∧ System.boot genesisTime now minerId =
      ⟨bootDisk genesisTime now, some ⟨freshState, hashedGenesis genesisTime now, 0, genesisNode genesisTime now,
        minerId⟩, fun _ => none⟩ := by
  rcases init_cases (d := WriteLog.empty) rfl genesisTime now minerId with ⟨-, none'⟩ | booted
  · unfold System.boot at started
    rw [none'] at started
    cases started
  · exact booted

theorem systemReady_boot {genesisTime now : UInt64} {minerId : Bytes}
    (started : (System.boot genesisTime now minerId).engine.isSome) :
    SystemReady (System.boot genesisTime now minerId) := by
  obtain ⟨proper, eq⟩ := boot_of_started started
  rw [eq]
  refine ⟨bootDisk_trieLog genesisTime now, by rw [bootDisk_getDagTip]; rfl, ?_, ?_, ?_⟩
  · intro j b found
    simp at found
  · intro c engine
    simp only [Option.some.injEq] at engine
    subst engine
    exact ⟨⟨emptyNode_isEmpty, proper⟩, rfl⟩
  · intro h spec found
    rw [bootDisk_getSpec] at found
    split at found
    · cases found
      exact proper
    · cases found

/-! ## Contents -/

section Contents

variable {s s' : System} {a : Action} {o : Option Outcome}

theorem AddResult.whole {c c' : BlockChainConsensus} {d d' : Disk} {child : Block} {outcome : Outcome}
    (result : AddResult c d child c' d' outcome) (log : TrieLog d) (whole : Whole d) : Whole d' := by
  have other : ∀ {P : Key × Option Value → Prop} {d₁ d₂ : Disk}, Whole d₁ → WritesOnly P d₁ d₂ →
      (∀ h v, ¬ P (.state h, v)) → Whole d₂ :=
    fun start writes none' => start.writes writes fun n hit => absurd hit (none' _ _)
  cases result with
  | unhashed hash => exact whole
  | duplicateBlock h hash found => exact whole
  | duplicateTx h hash fresh duplicate => exact whole
  | noParent h hash fresh missing => exact other whole (putBlock_writes d child hash) (by simp)
  | side h pn admitted lighter =>
    refine other (other whole (linkParent_writes d child pn admitted.hash) (by simp))
      (WritesOnly.write (P := fun w => w.1 = .chainNode h) rfl _) (by simp)
  | rebaseFailed h pn msg admitted better missing =>
    exact other whole (moveDagTip_writes d child pn admitted.hash) (by simp)
  | moved h pn d₁ _ state _ admitted better rebased switched =>
    have moved := other whole (moveDagTip_writes d child pn admitted.hash) (by simp)
    have based := (rebased.contents (log.moveDagTip pn admitted.hash) moved).1
    have registered := other based (registerTransactions_writes d₁ h child.txs).2.1 (by simp)
    have last := switchMainList_writes (registerTransactions d₁ h child.txs).1 (newChainNode child.toBlockSpec h)
      (pn.addChild h)
    rw [switched] at last
    refine other registered last ?_
    rintro h v (⟨k, n, eq⟩ | ⟨id, k, eq⟩)
    · cases eq
    · cases eq

/-- **One call** keeps the contents of all world states. -/
theorem StepResult.keepsContents (result : StepResult s a s' o) (ready : SystemReady s)
    (inv : HashSound (Known s.db) → ContentsKept s) (sound : HashSound (Known s'.db)) : ContentsKept s' := by
  cases result with
  | quiet s' o steps engine blocks contents => exact contents sound (inv (sound.of_suffix steps.suffix))
  | added i c c' b child ws₀ ws order parent d₁ d' outcome submits target engine block state cleaned valid hashed root
      result =>
    rw [submitted_db] at sound
    have steps := hashed.persisted.steps
    have sound₁ := sound.of_suffix result.writes.suffix
    have kept := inv (sound₁.of_suffix steps.suffix)
    obtain ⟨ws', state', ok⟩ := ready.blocks i b block
    rw [state, Option.some.injEq] at state'
    subst state'
    obtain ⟨T, holds⟩ := kept.blocks i b ws₀ block state
    obtain ⟨holds', whole⟩ := hashed.contents ready.log ok kept.whole holds sound₁
    constructor
    · rw [submitted_db]
      exact result.whole (ready.log.steps steps) whole
    · intro j b' ws' found has
      rw [submitted_db]
      rcases submitted_block found with ⟨-, old⟩ | ⟨-, rfl, -⟩
      · exact (kept.blocks j b' ws' old has).imp fun _ holds =>
          (holds.of_suffix steps.suffix).of_suffix result.writes.suffix
      · rw [hashed.state, Option.some.injEq] at has
        subst has
        exact ⟨_, holds'.of_suffix result.writes.suffix⟩
  | stopped =>
    have steps : TrieSteps (fun _ => False) s.db (freshDisk s.db) := freshDisk_steps s.db
    exact ⟨(inv (sound.of_suffix steps.suffix)).whole.newMptWorldState, fun j b ws found => by simp [System.dead] at found⟩
  | restarted h spec d' t gn minerId restarts tip found rebased =>
    have steps : TrieSteps (fun _ => False) s.db d' := rebased.fresh_steps
    have kept := inv (sound.of_suffix steps.suffix)
    exact ⟨(rebased.contents ready.log.freshDisk kept.whole.newMptWorldState).1, fun j b ws found => by simp at found⟩

theorem contentsKept_boot {genesisTime now : UInt64} {minerId : Bytes}
    (started : (System.boot genesisTime now minerId).engine.isSome) :
    ContentsKept (System.boot genesisTime now minerId) := by
  rw [(boot_of_started started).2]
  refine ⟨?_, fun j b ws found => by simp at found⟩
  have fresh : Whole (freshDisk WriteLog.empty) := whole_empty.newMptWorldState
  have other : ∀ {d : Disk} {k : Key} (v : Option Value), (∀ h, k ≠ .state h) → Whole d → Whole (d.write k v) :=
    fun v ne start => start.writes (WritesOnly.write (P := fun w => ∀ h, w.1 ≠ .state h) ne _) fun n hit =>
      absurd rfl (hit _)
  exact other _ (by simp) (other _ (by simp) (other _ (by simp) fresh))

end Contents

/-! ## Reachable states -/

/-- The states that a node with genesis `g` reaches from its first start, on an empty database, by calls
that satisfy `P`. -/
def Reached (P : System → Action → Prop) (g : Byte64) (s : System) : Prop :=
  ∃ genesisTime now minerId actions, (System.boot genesisTime now minerId).engine.isSome ∧
    genesisHash genesisTime now = g ∧ System.Along P (System.boot genesisTime now minerId) actions ∧
    (System.boot genesisTime now minerId).run actions = s

/-- **Invariant rule of a node.** -/
theorem Reached.invariant {P : System → Action → Prop} {g : Byte64} {s : System} (Inv : System → Prop)
    (reached : Reached P g s)
    (start : ∀ genesisTime now minerId, (System.boot genesisTime now minerId).engine.isSome →
      genesisHash genesisTime now = g → Inv (System.boot genesisTime now minerId))
    (keeps : ∀ s a, SystemReady s → Inv s → P s a → Inv (s.next a)) : SystemReady s ∧ Inv s := by
  obtain ⟨genesisTime, now, minerId, actions, started, genesis, along, rfl⟩ := reached
  exact Transition.Along.invariant (fun s => SystemReady s ∧ Inv s)
    (fun s a inv step => ⟨systemReady_next inv.1 a, keeps s a inv.1 inv.2 step⟩)
    ⟨systemReady_boot started, start genesisTime now minerId started genesis⟩ along

theorem Reached.ready {P : System → Action → Prop} {g : Byte64} {s : System} (reached : Reached P g s) : SystemReady s :=
  (reached.invariant (fun _ => True) (fun _ _ _ _ _ => trivial) fun _ _ _ _ _ => trivial).1

/-- The contents of the world states in every state of every run. -/
theorem Reached.contents {P : System → Action → Prop} {g : Byte64} {s : System} (reached : Reached P g s) :
    HashSound (Known s.db) → ContentsKept s :=
  (reached.invariant (fun s => HashSound (Known s.db) → ContentsKept s)
    (fun _ _ _ started _ _ => contentsKept_boot started)
    (fun _ a ready inv _ sound => (step_result ready a).keepsContents ready inv sound)).2

/-- A run goes on. -/
theorem Reached.run {P : System → Action → Prop} {g : Byte64} {s : System} {actions : List Action}
    (reached : Reached P g s) (along : System.Along P s actions) : Reached P g (s.run actions) := by
  obtain ⟨genesisTime, now, minerId, before, started, genesis, first, rfl⟩ := reached
  exact ⟨genesisTime, now, minerId, before ++ actions, started, genesis, Transition.along_append.mpr ⟨first, along⟩,
    Transition.run_append _ _ _ _⟩

theorem Reached.mono {P Q : System → Action → Prop} {g : Byte64} {s : System} (imp : ∀ s a, P s a → Q s a)
    (reached : Reached P g s) : Reached Q g s := by
  obtain ⟨genesisTime, now, minerId, actions, started, genesis, along, eq⟩ := reached
  exact ⟨genesisTime, now, minerId, actions, started, genesis, along.mono imp, eq⟩

end TrustNet
