import TrustNet.Network.Ledger

/-!
# The hash that a block is stored under

`computeHash` leaves the hash of a block as it was when it finds none, so a block may have the
hash of fields that it had before. A platform does not come to that: it hashes a candidate
once, and a network block twice with the same overlay, in `CheckNetworkBlockPoW` and in
`AcceptNetworkBlock`. So on every node a block is stored under the hash of its fields, and
nodes that have a block from each other have it under the same hash.

`accept_ends` and `mine_ends` say what the two calls do to the blocks of a node in these terms.
-/

namespace TrustNet
set_option autoImplicit false

/-! ## Submissions -/

section Submissions

variable [Sha512] {s : System} {g : Byte64} {k : Nat} {b : Block} {order : List Entry} {tries : Nat} {o : Outcome}

/-- The block after a call of `AcceptNetworkBlock` that succeeds. -/
def System.accepted (s : System) (i : Nat) (order : List Entry) (tries : Nat) : Option Block :=
  match s.engine, s.blocks i with
  | some c, some b =>
    if b.isNetworkBlock = true ∧ order.Perm b.vars.entries then
      match acceptNetworkBlock c s.db b order tries with
      | (_, _, child, .ok) => some child
      | _ => none
    else none
  | _, _ => none

omit [Sha512] in
/-- What a submission leaves stored: the block under `h`, which is new, or what was there. -/
theorem Addition.specs {c c' : BlockChainConsensus} {d d' : Disk} {m m' : Byte64} {child : Block}
    (addition : Addition c d m child c' d' o m') :
    (o ≠ .ok ∧ ∀ q, getSpec d' q = getSpec d q) ∨ (o = .ok ∧ ∃ h, child.hash = some h ∧ getSpec d h = none ∧
      ∀ q, getSpec d' q = if q = h then some child.toBlockSpec else getSpec d q) := by
  cases addition with
  | refused _ failed => exact Or.inl ⟨failed, fun _ => rfl⟩
  | side h _ hash fresh extended worse => exact Or.inr ⟨rfl, h, hash, fresh, extended.spec⟩
  | moved h _ _ hash fresh extended better => exact Or.inr ⟨rfl, m', hash, fresh, extended.spec⟩

/-- The hash of a block whose overlay was persisted to `ws`. -/
theorem hashInput_digest {ws : MptWorldState} (state : b.worldState = some ws) :
    sum512 b.hashInput = b.hashAt ws.rootHash := by
  rw [Block.hashInput, state]
  rfl

omit [Sha512] in
theorem spec_eq {ws : MptWorldState} (state : b.worldState = some ws) (root : b.state = ws.rootHash) :
    b.spec = b.toBlockSpec := by
  rw [Block.spec, state, Option.map_some, Option.getD_some, ← root]

/-- How the acceptance of the block `b` in hand ends, for what is stored: the block is stored under the hash of its fields,
or nothing is, and a block that is called a duplicate is there already. -/
inductive Accepts (s : System) (k : Nat) (order : List Entry) (tries : Nat) (b : Block) : Option Outcome → Prop where
  | stored (child : Block) (added : s.accepted k order tries = some child) (hash : child.hash = some b.digest)
      (wire : child.spec = b.toBlockSpec) (fresh : getSpec s.db b.digest = none)
      (specs : ∀ q, getSpec (s.next (.accept k order tries)).db q =
        if q = b.digest then some b.toBlockSpec else getSpec s.db q) : Accepts s k order tries b (some .ok)
  | kept (o : Option Outcome) (failed : o ≠ some .ok)
      (specs : ∀ q, getSpec (s.next (.accept k order tries)).db q = getSpec s.db q)
      (duplicate : ∀ msg, o = some (.error (.core .duplicateBlock msg)) → (getSpec s.db b.digest).isSome) :
      Accepts s k order tries b o

/-- **How `AcceptNetworkBlock` ends** for a block that was hashed with the same overlay before. -/
theorem accept_ends {ws₀ : MptWorldState} (reached : Reached RebaseOk g s) (permitted : RebaseOk s (.accept k order tries))
    (block : s.blocks k = some b) (network : b.isNetworkBlock = true) (state : b.worldState = some ws₀)
    (hashed : b.hash = some (b.hashAt ws₀.rootHash))
    (again : ∀ {d₁ ws}, order.Perm b.vars.entries → persistState s.db ws₀ order false = (d₁, ws) →
      d₁.log <:+ (s.next (.accept k order tries)).db.log → ws.rootHash = ws₀.rootHash) :
    Accepts s k order tries b (s.step (.accept k order tries)).2 := by
  obtain ⟨c, engine⟩ := Option.isSome_iff_exists.mp (reached.running block)
  obtain ⟨ws, same, ready⟩ := reached.ready.blocks k b block
  rw [state, Option.some.injEq] at same
  subst same
  obtain ⟨m, canonical, synced⟩ := reached.onTip
  have fine := permitted.outcome rfl
  by_cases guard : b.isNetworkBlock = true ∧ order.Perm b.vars.entries
  · have step : s.step (.accept k order tries) = s.submitted k (acceptNetworkBlock c s.db b order tries).1
        (acceptNetworkBlock c s.db b order tries).2.1 (acceptNetworkBlock c s.db b order tries).2.2.1
        (acceptNetworkBlock c s.db b order tries).2.2.2 := by
      simp only [System.step, System.onBlock, engine, block, if_pos guard]
    have next : (s.next (.accept k order tries)).db = (acceptNetworkBlock c s.db b order tries).2.1 := by
      rw [System.next, step, submitted_db]
    rcases acceptNetworkBlock_network reached.ready.log state ready (reached.ready.engine c engine).1 network order tries with
      ⟨b', e, failed, eq⟩ | ⟨parent, miners, d₁, ws, child, valid, result, persisted, form, rest⟩
    · rw [step, eq]
      refine .kept _ (by simp [System.submitted]) (fun q => by rw [next, eq]) fun msg dup => ?_
      rcases validateBlock_error failed with ⟨msg', rfl⟩ | ⟨msg', rfl⟩
      · simp [System.submitted] at dup
      · simp [System.submitted] at dup
    · have records := SameRecords.of_steps persisted.steps
      rcases rest with ⟨differs, eq⟩ | ⟨root, c', d', o, added, eq⟩
      · rw [step, eq]
        exact .kept _ (by simp [System.submitted]) (fun q => by rw [next, eq]; exact records.spec q)
          fun msg dup => by simp [System.submitted] at dup
      · have outcome : (s.step (.accept k order tries)).2 = some o := by
          rw [step, eq]
          cases o <;> rfl
        rw [eq] at next
        have kept : child.toBlockSpec = b.toBlockSpec := by rw [form]
        have suffix : d₁.log <:+ (s.next (.accept k order tries)).db.log := by
          rw [next]
          exact added.writes.suffix
        have hash : child.hash = some b.digest := by
          rw [form, hashed, ← again guard.2 result suffix]
          simp only [Block.tryHash, root]
          split
          · rfl
          · rfl
        have stateC : child.worldState = some ws := by rw [form]
        have rootC : child.state = ws.rootHash := by rw [form]; exact root.symm
        have canonical₁ := canonical.of_records records persisted.steps.length_le
        have stores : ∀ h, child.hash = some h →
            (putBlock d₁ child).1 = d₁.write (.block h) (some (.block child.toBlockSpec)) := fun h hash' =>
          putBlock_eq (by rw [rootC]; exact persisted.ready.rootHash) stateC rootC.symm hash'
        have there : (getSpec d₁ child.phash).isSome := by
          rw [records.spec, show child.phash = b.phash from congrArg BlockSpec.phash kept, valid.stored]
          rfl
        rw [outcome] at fine ⊢
        obtain ⟨m', addition, -, -⟩ := added.canonical canonical₁ ((synced c engine).of_records records) stores there
          fun msg failed => fine msg (by rw [failed])
        rcases addition.specs with ⟨failed, specs⟩ | ⟨rfl, h, hash', fresh, specs⟩
        · refine .kept _ (by simpa using failed) (fun q => ?_) fun msg dup => ?_
          · rw [next]
            exact (specs q).trans (records.spec q)
          · rw [Option.some.injEq] at dup
            cases added with
            | duplicateBlock h hash' stored =>
              rw [hash, Option.some.injEq] at hash'
              subst hash'
              rw [← records.spec, ← canonical₁.stored_iff]
              exact stored
            | moved h pn d₁ d' state outcome admitted better rebased switched =>
              subst dup
              exact absurd (congrArg Prod.snd switched) (switchMainList_ne_error _ _ _ _)
            | _ => cases dup
        · rw [hash, Option.some.injEq] at hash'
          subst hash'
          refine .stored child ?_ hash ((spec_eq stateC rootC).trans kept) ?_ fun q => ?_
          · simp only [System.accepted, engine, block, if_pos guard, eq]
          · rw [← records.spec]
            exact fresh
          · rw [next]
            exact (specs q).trans (by rw [kept, records.spec])
  · have step : s.step (.accept k order tries) = (s, none) := by
      simp only [System.step, System.onBlock, engine, block, if_neg guard]
    rw [step]
    exact .kept none (by simp) (fun q => by rw [System.next, step]) fun msg dup => by cases dup

/-- How mining the block in hand ends, for what is stored: the block is stored under the hash of its fields, or nothing is. -/
inductive Mines (s : System) (k : Nat) (apprvr : Option PowApprover) (order : List Entry) (tries : Nat) :
    Option Outcome → Prop where
  | stored (child : Block) (mined : s.mined k apprvr order tries = some child) (hash : child.hash = some child.digest)
      (wire : child.spec = child.toBlockSpec) (fresh : getSpec s.db child.digest = none)
      (specs : ∀ q, getSpec (s.next (.mine k apprvr order tries)).db q =
        if q = child.digest then some child.toBlockSpec else getSpec s.db q) : Mines s k apprvr order tries (some .ok)
  | kept (o : Option Outcome) (failed : o ≠ some .ok)
      (specs : ∀ q, getSpec (s.next (.mine k apprvr order tries)).db q = getSpec s.db q) : Mines s k apprvr order tries o

/-- **How mining ends** for a candidate that has no hash. -/
theorem mine_ends {apprvr : Option PowApprover} (reached : Reached RebaseOk g s)
    (permitted : RebaseOk s (.mine k apprvr order tries)) (block : s.blocks k = some b) (unhashed : b.hash = none) :
    Mines s k apprvr order tries (s.step (.mine k apprvr order tries)).2 := by
  obtain ⟨m, canonical, synced⟩ := reached.onTip
  by_cases fine : (s.step (.mine k apprvr order tries)).2 = some .ok
  · obtain ⟨c, engine⟩ := Option.isSome_iff_exists.mp (reached.running block)
    obtain ⟨child, mined⟩ := mined_of_ok fine
    obtain ⟨-, parent, inputs, d₁, ws₀, ws, c', d', valid, state, hashed, root, result, next⟩ :=
      mined_added reached.ready engine block mined
    obtain ⟨m', addition, -, -⟩ := added_canonical canonical (synced c engine) valid hashed root result (by simp)
    obtain ⟨failed, -⟩ | ⟨-, h, hash, fresh, specs⟩ := addition.specs
    · exact absurd rfl failed
    · have digest : h = child.digest := by
        rcases hashed.input with same | ⟨found, -⟩
        · rw [same, unhashed] at hash
          cases hash
        · rw [found, hashInput_digest hashed.state, Option.some.injEq] at hash
          rw [← hash, BlockSpec.digest, root]
      subst digest
      rw [fine]
      refine .stored child mined hash (spec_eq hashed.state root) ?_ fun q => ?_
      · rw [← hashed.records.spec]
        exact fresh
      · rw [next, submitted_db, specs q, hashed.records.spec]
  · refine .kept _ fine fun q => ?_
    have submit : Submit s k order (s.next (.mine k apprvr order tries)) (s.step (.mine k apprvr order tries)).2 :=
      mine_submit reached.ready apprvr
    have found := permitted.outcome rfl
    generalize s.next (.mine k apprvr order tries) = s', (s.step (.mine k apprvr order tries)).2 = o at submit fine found
    cases submit with
    | refused _ _ records => exact records.spec q
    | added c c' b child ws₀ ws parent d₁ d' inputs o' engine block state perm valid hashed root result =>
      obtain ⟨m', addition, -, -⟩ := added_canonical canonical (synced c engine) valid hashed root result
        (fun msg failed => found msg (by rw [failed]))
      rw [submitted_db]
      rcases addition.specs with ⟨-, specs⟩ | ⟨ok, -⟩
      · exact (specs q).trans (hashed.records.spec q)
      · exact absurd (congrArg some ok) fine

end Submissions

/-! ## Nodes -/

section Nodes

variable [Sha512]

/-- What goroutines know of the hashes of their blocks: there is none before the check, and then it is that of the fields
with the state that was computed. -/
def hashes : Knowledge where
  opened _ b := b.hash = none
  filled _ _ b := b.hash = none
  full _ b := b.hash = none
  decoded _ b := b.hash = none ∧ b.isNetworkBlock = true
  verified _ _ b := b.hash = none ∧ b.isNetworkBlock = true
  checked _ b := b.isNetworkBlock = true ∧ ∃ ws, b.worldState = some ws ∧ b.hash = some (b.hashAt ws.rootHash)

theorem hashes_lasts : hashes.Lasts where
  opened _ known := known
  filled _ known := known
  full _ known := known
  decoded _ known := known
  verified _ known := known
  checked _ known := known

theorem addTransaction_hash (b : Block) (d : Disk) (tx : Transaction) : (b.addTransaction d tx).1.hash = b.hash := by
  rcases addTransaction_cases b d tx with same | ⟨-, -, eq⟩
  · rw [same]
  · rw [eq]

omit [Sha512] in
theorem Replayed.hash {d : Disk} {b b' : Block} (replayed : Replayed d b b') :
    b'.hash = b.hash ∧ b'.isNetworkBlock = b.isNetworkBlock ∧ b'.toBlockSpec = b.toBlockSpec := by
  obtain ⟨vars, rfl⟩ := replayed.eq
  exact ⟨rfl, rfl, rfl⟩

variable {g : Byte64} {s : System} {k : Nat} {b : Block}

theorem candidate_hash {P : System → Action → Prop} {now : UInt64} (reached : Reached P g s)
    (made : (s.next (.candidate k now)).blocks k = some b) : b.hash = none := by
  have ready := reached.ready
  rcases Option.eq_none_or_eq_some s.engine with engine | ⟨c, engine⟩
  · simp only [System.next, System.step, engine] at made
    have running := reached.running made
    rw [engine] at running
    cases running
  · obtain ⟨h, tip⟩ := Option.isSome_iff_exists.mp (ready.engine c engine).2
    simp only [System.next, System.step, engine, System.setBlock, Function.update_self] at made
    rcases newCandidateBlock_cases ready.log c now tip with ⟨-, eq⟩ | ⟨d', t, miners, -, eq⟩
    · rw [eq] at made
      cases made
    · rw [eq] at made
      cases made
      rfl

/-- `DecodeNetworkBlockSpec` takes the fields over. -/
theorem decode_wire {P : System → Action → Prop} {spec : BlockSpec} (reached : Reached P g s)
    (outcome : (s.step (.decode k spec)).2 = some .ok) :
    ∃ b, (s.next (.decode k spec)).blocks k = some b ∧ b.hash = none ∧ b.isNetworkBlock = true ∧ b.toBlockSpec = spec := by
  rcases Option.eq_none_or_eq_some s.engine with engine | ⟨c, engine⟩
  · simp [System.step, engine] at outcome
  · rcases decodeNetworkBlockSpec_cases reached.ready.log spec with
      ⟨b', e, -, result⟩ | ⟨parent, result, -, -⟩ | ⟨parent, d, ws, miners, valid, rebased, result⟩
    · simp [System.step, engine, result] at outcome
    · simp [System.step, engine, result] at outcome
    · simp only [System.next, System.step, engine, result, System.setBlock, Function.update_self]
      exact ⟨_, rfl, rfl, rfl, rfl⟩

theorem checkNetworkBlockPoW_network {d d₁ : Disk} {ws₀ ws : MptWorldState} {order : List Entry} (apprvr : PowApprover)
    (tries : Nat) (network : b.isNetworkBlock = true) (state : b.worldState = some ws₀)
    (persisted : persistState d ws₀ order false = (d₁, ws)) :
    checkNetworkBlockPoW d b apprvr order tries =
      match Block.tryHash { b with pow := some apprvr } ws.rootHash tries with
      | none => (d₁, { b with pow := some apprvr, worldState := some ws },
          .error (.core .blockUnhashed "hash computation failed"))
      | some h => (d₁, { b with pow := some apprvr, worldState := some ws, hash := some h }, .ok) := by
  unfold checkNetworkBlockPoW
  rw [if_neg (by simp [network]), computeHash_network (b := { b with pow := some apprvr }) network state persisted tries]
  cases Block.tryHash { b with pow := some apprvr } ws.rootHash tries with
  | none => rfl
  | some h => rfl

/-- `CheckNetworkBlockPoW` of a network block keeps the fields and finds the hash. -/
theorem check_wire {apprvr : PowApprover} {order : List Entry} {tries : Nat} (reached : Reached RebaseOk g s)
    (block : s.blocks k = some b) (network : b.isNetworkBlock = true)
    (outcome : (s.step (.checkPoW k apprvr order tries)).2 = some .ok) :
    ∃ b', (s.next (.checkPoW k apprvr order tries)).blocks k = some b' ∧ b'.isNetworkBlock = true ∧
      b'.toBlockSpec = b.toBlockSpec ∧ ∃ ws, b'.worldState = some ws ∧ b'.hash = some (b'.hashAt ws.rootHash) := by
  obtain ⟨c, engine⟩ := Option.isSome_iff_exists.mp (reached.running block)
  obtain ⟨ws₀, state, ready⟩ := reached.ready.blocks k b block
  by_cases perm : order.Perm b.vars.entries
  · have checks := checkNetworkBlockPoW_network apprvr tries network state
      (Prod.eta (persistState s.db ws₀ order false)).symm
    simp only [System.next, System.step, System.onBlock, engine, block, if_pos perm, checks] at outcome ⊢
    generalize found : Block.tryHash { b with pow := some apprvr } (persistState s.db ws₀ order false).2.rootHash tries =
      hash at outcome ⊢
    cases hash with
    | none => simp [System.finish] at outcome
    | some h =>
      simp only [Block.tryHash, Option.ite_none_right_eq_some, Option.some.injEq] at found
      refine ⟨_, Function.update_self _ _ _, network, rfl, _, rfl, ?_⟩
      rw [← found.2]
  · simp [System.step, System.onBlock, engine, block, perm] at outcome

variable [Outside] {cfg : Config} {p p' : Platform} {e : Event}

/-- The calls of an event keep what goroutines know of the hashes. -/
theorem hashes_kept (reached : Reached RebaseOk g p.sys) : hashes.Kept cfg p e p' := by
  have script : ∀ {tx : Transaction} {b b₁ : Block} {accepted : Bool}, processTx cfg p.sys.db tx b = some (b₁, accepted) →
      b₁.hash = b.hash ∧ b₁.isNetworkBlock = b.isNetworkBlock := fun processed =>
    ⟨(Script.run_replayed processed).hash.1, (Script.run_replayed processed).hash.2.1⟩
  constructor
  case candidate =>
    intro k now b next made
    rw [next] at made
    exact candidate_hash reached made
  case rewarded =>
    intro k order nonce now b b₁ reward _ _ none' built
    have same := (newMiningRewardTx_replayed built).hash.1
    rw [addTransaction_hash] at same
    exact (addTransaction_hash b₁ _ reward).trans (same.trans none')
  case approved => exact fun none' processed => (script processed).1.trans none'
  case rejected => exact fun _ _ _ _ none' processed => (script processed).1.trans none'
  case added =>
    intro k q tx b _ _ _ _ none'
    exact ⟨(addTransaction_hash b _ tx).trans none', (addTransaction_hash b _ tx).trans none'⟩
  case sent => exact fun none' _ => none'
  case received =>
    intro k spec next outcome
    obtain ⟨b, block, none', network, -⟩ := decode_wire reached outcome
    rw [next]
    exact ⟨b, block, none', network⟩
  case verified =>
    rintro b b₁ ⟨none', network⟩ passed
    have same := (verifyMiningRewardTx_replayed passed).hash
    exact ⟨same.1.trans none', same.2.1.trans network⟩
  case replayed =>
    rintro tx rest b b₁ ⟨none', network⟩ processed
    exact ⟨(script processed).1.trans none', (script processed).2.trans network⟩
  case checked =>
    rintro k order tries b next block ⟨-, network⟩ outcome
    obtain ⟨b', block', network', -, found⟩ := check_wire reached block network outcome
    rw [next]
    exact ⟨b', block', network', found⟩

/-- What holds of the hashes on a node. -/
structure Sealing (cfg : Config) (g : Byte64) (p : Platform) : Prop where
  replaying : Replaying cfg g p
  hands : ∀ k t, p.threads k = some t → t.Suits hashes p.sys.db (p.sys.blocks k)
  keyed : ∀ h spec, getSpec p.sys.db h = some spec → h ≠ g → spec.digest = h

/-- How the acceptance of the block of a handler ends. -/
theorem Sealing.accepts {order : List Entry} {tries : Nat} (sealing : Sealing cfg g p)
    (permitted : RebaseOk p.sys (.accept k order tries)) (thread : p.threads k = some (.handler .checked))
    (sound : HashSound (Known (p.sys.next (.accept k order tries)).db)) :
    ∃ b, p.sys.blocks k = some b ∧ Accepts p.sys k order tries b (p.sys.step (.accept k order tries)).2 := by
  obtain ⟨b, block, network, ws, state, hash⟩ := sealing.hands k _ thread
  obtain ⟨b', block', ws', T, order₁, first, txs, -, -, -, -, -, state', perm₁, working⟩ :=
    sealing.replaying.hands k _ thread
  rw [block, Option.some.injEq] at block'
  subst block'
  have same : ws' = ws := Option.some.inj (state'.symm.trans state)
  subst same
  refine ⟨b, block, accept_ends sealing.replaying.reached permitted block network state hash fun perm result suffix => ?_⟩
  have again := working.persistState_again perm₁ perm result (sound.of_suffix suffix)
  exact (working.holds.hash_eq again.holds).symm

/-- How mining the candidate of a producer ends. -/
theorem Sealing.mines {order : List Entry} {tries : Nat} {q : Producer} (sealing : Sealing cfg g p)
    (permitted : RebaseOk p.sys (.mine k (some cfg.powApprover) order tries)) (thread : p.threads k = some (.producer q))
    (phase : q.phase = .mining) :
    Mines p.sys k (some cfg.powApprover) order tries (p.sys.step (.mine k (some cfg.powApprover) order tries)).2 := by
  have known := sealing.hands k _ thread
  simp only [Thread.Suits, phase, Phase.Suits] at known
  obtain ⟨b, block, unhashed⟩ := known
  exact mine_ends sealing.replaying.reached permitted block unhashed

/-- **One event.** -/
theorem Sealing.step (sealing : Sealing cfg g p) (works : Outside.Works) (permitted : cfg.Permits RebaseOk p e)
    (sound : HashSound (Known (Platform.step cfg p e).sys.db)) : Sealing cfg g (Platform.step cfg p e) := by
  have reached := sealing.replaying.reached
  have leads := (step_happens e).leads rebaseOk_fills reached permitted
  have later := leads.later reached sound
  refine ⟨sealing.replaying.step works leads sound, Knowledge.step hashes_lasts (hashes_kept reached) sealing.hands later,
    fun h spec found other => ?_⟩
  have fresh : ∀ {h' : Byte64} {spec' : BlockSpec}, spec'.digest = h' →
      getSpec (Platform.step cfg p e).sys.db h = (if h = h' then some spec' else getSpec p.sys.db h) → spec.digest = h := by
    intro h' spec' digest specs
    rw [specs] at found
    split at found
    · rename_i eq
      rw [eq, ← Option.some.inj found]
      exact digest
    · exact sealing.keyed h spec found other
  rcases step_leads reached e with quiet | ⟨k, order, a, submits, next⟩
  · obtain ⟨-, records, -⟩ := quiet.quiet reached.ready sealing.replaying.miner
    exact sealing.keyed h spec (by rw [← records.spec]; exact found) other
  · rw [next] at sound found fresh
    cases submits with
    | mine _ _ tries q thread phase =>
      have mines := sealing.mines (permitted _ rfl) thread phase
      generalize (p.sys.step (.mine k (some cfg.powApprover) order tries)).2 = o at mines
      cases mines with
      | stored child _ hash _ _ specs => exact fresh rfl (specs h)
      | kept _ _ specs => exact sealing.keyed h spec ((specs h).symm.trans found) other
    | accept _ _ tries thread =>
      obtain ⟨b, -, accepts⟩ := sealing.accepts (permitted _ rfl) thread sound
      generalize (p.sys.step (.accept k order tries)).2 = o at accepts
      cases accepts with
      | stored child _ hash _ _ specs => exact fresh rfl (specs h)
      | kept _ _ specs => exact sealing.keyed h spec ((specs h).symm.trans found) other

theorem sealing_boot {now : UInt64} (started : (Platform.boot cfg now).sys.engine.isSome) :
    Sealing cfg (genesisHash genesisTimeStamp now) (Platform.boot cfg now) := by
  obtain ⟨-, booted⟩ := boot_of_started started
  have sys : (Platform.boot cfg now).sys = _ := booted
  refine ⟨replaying_boot started, fun k t thread => ?_, fun h spec found other => ?_⟩
  · cases thread
  · rw [sys, bootDisk_getSpec, if_neg other] at found
    cases found

/-- **Every run of a node.** -/
theorem Platform.Reached.sealing {Q : Platform → Event → Prop} (works : Outside.Works)
    (reached : Platform.Reached cfg RebaseOk Q g p) (sound : HashSound (Known p.sys.db)) : Sealing cfg g p := by
  refine (reached.invariant (fun p => HashSound (Known p.sys.db) → Sealing cfg g p) rebaseOk_fills
    (fun now started genesis _ => ?_) fun p e below inv permitted _ sound => ?_).2 sound
  · rw [← genesis]
    exact sealing_boot started
  · obtain ⟨actions, -, run⟩ := (step_happens e).leads rebaseOk_fills below permitted
    have grow : p.sys.db.log <:+ (Platform.step cfg p e).sys.db.log := by
      rw [← run]
      exact run_grows below.ready actions
    exact (inv (sound.of_suffix grow)).step works permitted sound

/-- **Blocks are stored under the hash of their fields**, on every node that runs the platform. -/
theorem stored_under_digest (works : Outside.Works) (reached : Platform.Reached cfg RebaseOk (fun _ _ => True) g p)
    (sound : HashSound (Known p.sys.db)) {h : Byte64} {spec : BlockSpec} (found : getSpec p.sys.db h = some spec)
    (other : h ≠ g) : spec.digest = h :=
  (reached.sealing works sound).keyed h spec found other

end Nodes

section Worked

attribute [local instance] Plain.sha512 Plain.outside

theorem stored_under_digest_accepted :
    getSpec Worked.acceptingNode.sys.db (digest Plain.producedDigest) = some Worked.producedSpec ∧
      Worked.producedSpec.digest = digest Plain.producedDigest := by
  have run : Worked.runs 2 (fun _ _ => true) Worked.accepting = true ∧ Plain.Covered Worked.acceptingNode.sys.db ∧
      getSpec Worked.acceptingNode.sys.db (digest Plain.producedDigest) = some Worked.producedSpec ∧
      digest Plain.producedDigest ≠ genesisHash genesisTimeStamp 0 := by decide +kernel
  obtain ⟨ran, covered, found, other⟩ := run
  have reached : Platform.Reached (Plain.config 2) RebaseOk (fun _ _ => True) (genesisHash genesisTimeStamp 0)
      Worked.acceptingNode := Worked.reached (fun _ _ _ => trivial) ran
  generalize Worked.acceptingNode = p at covered found reached ⊢
  have sound : HashSound (Known p.sys.db) := Plain.hashSound_of_covered fun n knows => ⟨_, knows, covered⟩
  exact ⟨found, stored_under_digest Plain.outside_works reached sound found other⟩

end Worked

end TrustNet
