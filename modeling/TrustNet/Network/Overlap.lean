import TrustNet.Network.Ledger

/-!
# Overlapping calls

A run of the platform makes one call of the engine after the other. `AcceptNetworkBlock`
and `mineCandidateBlock` hold the lock of the engine, and the calls that read the chain hold
it for reading, except for `DecodeNetworkBlock`, which writes nothing but the empty world
state. `CheckNetworkBlockPoW` takes no lock either. It persists the state of its block like
a submission does, and so it can remove a state that another goroutine has just persisted,
before `addValidatedBlock` of that goroutine rebases to it.

Here a submission is its two halves, with the checks of other goroutines between them. The
supply is conserved if there are none, since the halves then make up the call. Otherwise
it can fail: the tip moves to a block and the engine stays on an older state, on which the
next block is mined.
-/

namespace TrustNet
set_option autoImplicit false

/-! ## The halves of a submission -/

section Halves

variable [Sha512] {σ : Type} [Database σ]

/-- `AcceptNetworkBlock` up to `addValidatedBlock`, which comes next if there is no outcome yet. -/
def prepareAccept (db : σ) (b : Block) (order : List Entry) (tries : Nat) : σ × Block × Option Outcome :=
  match validateBlock db b with
  | (b, .error e) => (db, b, some (.error e))
  | (b, .ok _) =>
    match b.computeHash db order tries with
    | (db, b, _) =>
      match b.worldState with
      | none => (db, b, some .panic)
      | some ws =>
        if ws.rootHash ≠ b.state then (db, b, some (.error (.core .stateIncorrect "incorrect computed state")))
        else (db, b, none)

/-- `mineCandidateBlock` up to `addValidatedBlock`. -/
def prepareMine (db : σ) (child : Block) (order : List Entry) (tries : Nat) : σ × Block × Option Outcome :=
  match validateBlock db child with
  | (child, .error e) => (db, child, some (.error e))
  | (child, .ok _) =>
    match child.computeHash db order tries with
    | (db, child, none) => (db, child, some (.error (.core .blockUnhashed "hash computation failed")))
    | (db, child, some _) => (db, child, none)

/-- `addValidatedBlock` after the first half. -/
def addPrepared (c : BlockChainConsensus) : σ × Block × Option Outcome → BlockChainConsensus × σ × Block × Outcome
  | (db, b, some outcome) => (c, db, b, outcome)
  | (db, b, none) =>
    match addValidatedBlock c db b b.phash with
    | (c, db, outcome) => (c, db, b, outcome)

theorem acceptNetworkBlock_eq (c : BlockChainConsensus) (db : σ) (b : Block) (order : List Entry) (tries : Nat) :
    acceptNetworkBlock c db b order tries = addPrepared c (prepareAccept db b order tries) := by
  unfold acceptNetworkBlock prepareAccept
  obtain ⟨b₁, _ | parent⟩ := validateBlock db b
  · rfl
  · dsimp only
    generalize b₁.computeHash db order tries = hashed
    obtain ⟨db₁, b₂, hash⟩ := hashed
    dsimp only
    cases b₂.worldState with
    | none => rfl
    | some ws =>
      dsimp only
      split
      · rfl
      · rfl

theorem mineCandidateBlock_eq (c : BlockChainConsensus) (db : σ) (b : Block) (order : List Entry) (tries : Nat) :
    mineCandidateBlock c db b order tries = addPrepared c (prepareMine db b order tries) := by
  unfold mineCandidateBlock prepareMine
  obtain ⟨b₁, _ | parent⟩ := validateBlock db b
  · rfl
  · dsimp only
    generalize b₁.computeHash db order tries = hashed
    obtain ⟨db₁, b₂, _ | hash⟩ := hashed
    · rfl
    · rfl

end Halves

/-! ## Checks in between -/

/-- A call of `CheckNetworkBlockPoW`. -/
structure Check where
  k : Nat
  order : List Entry
  tries : Nat

/-- What happens next: a call by itself, or a submission with the checks that fall between its halves. -/
inductive Overlap where
  | whole (e : Event)
  | mine (k : Nat) (order : List Entry) (tries : Nat) (checks : List Check)
  | accept (k : Nat) (order : List Entry) (tries : Nat) (checks : List Check)

/-- The checks in between. -/
def Overlap.checks : Overlap → List Check
  | .whole _ => []
  | .mine _ _ _ checks | .accept _ _ _ checks => checks

/-- The same without the checks. -/
def Overlap.event : Overlap → Event
  | .whole e => e
  | .mine k order tries _ => .mine k order tries
  | .accept k order tries _ => .accept k order tries

namespace Platform

variable [Sha512] [Outside] (cfg : Config) (p : Platform)

/-- The checks of other goroutines. -/
def runChecks (checks : List Check) : Platform :=
  p.run cfg (checks.map fun call => .check call.k call.order call.tries)

/-- The block of goroutine `k` after the first half of its submission: the checks, and the second half in a process that
still runs. -/
def submitAmid (k : Nat) (c : BlockChainConsensus) (checks : List Check) (ends : Platform → System × Option Outcome → Platform) :
    Disk × Block × Option Outcome → Platform
  | (db, b, some outcome) => runChecks cfg (ends p (p.sys.submitted k c db b outcome)) checks
  | (db, b, none) =>
    let p := runChecks cfg { p with sys := { p.sys with db } } checks
    if p.alive then
      match addValidatedBlock c p.sys.db b b.phash with
      | (c, db, outcome) => ends p (p.sys.submitted k c db b outcome)
    else p

/-- The end of `AcceptNetworkBlock` in goroutine `k`. -/
def accepted (k : Nat) (p : Platform) : System × Option Outcome → Platform
  | (sys, some .panic) => crash sys
  | (sys, some _) => { p with sys }.setThread k none
  | (_, none) => p

/-- The end of `mineCandidateBlock` in producer `k`. -/
def mined (k : Nat) (p : Platform) : System × Option Outcome → Platform
  | (sys, some .ok) => { p with sys }.setThread k (some (.producer Producer.fresh))
  | (sys, some (.error _)) =>
    { p with sys, deadTxs := bury p.deadTxs ((sys.blocks k).elim [] (·.txs)) }.setThread k
      (some (.producer Producer.fresh))
  | (sys, some .panic) => crash sys
  | (_, none) => p

/-- `AcceptNetworkBlock`, amid checks. -/
def acceptAmid (k : Nat) (order : List Entry) (tries : Nat) (checks : List Check) : Platform :=
  p.onHandler k fun stage b =>
    match stage, p.sys.engine with
    | .checked, some c =>
      if b.isNetworkBlock ∧ order.Perm b.vars.entries then
        submitAmid cfg p k c checks (accepted k) (prepareAccept p.sys.db b order tries)
      else p
    | _, _ => p

/-- `mineCandidateBlock`, amid checks. -/
def mineAmid (k : Nat) (order : List Entry) (tries : Nat) (checks : List Check) : Platform :=
  p.onCandidate k fun q b =>
    match q.phase, p.sys.engine with
    | .mining, some c =>
      if b.isNetworkBlock = false ∧ order.Perm b.vars.entries then
        submitAmid cfg p k c checks (mined k)
          (prepareMine p.sys.db (System.withApprover b (some cfg.powApprover)) order tries)
      else p
    | _, _ => p

/-- One step. -/
def amid : Overlap → Platform
  | .whole e => step cfg p e
  | .mine k order tries checks => if p.alive then mineAmid cfg p k order tries checks else p
  | .accept k order tries checks => if p.alive then acceptAmid cfg p k order tries checks else p

/-- The states of a node whose checks overlap with its submissions. -/
abbrev amidRun (steps : List Overlap) : Platform := Transition.run (amid cfg) p steps

end Platform

/-! ## Nothing in between -/

section Apart

variable [Sha512] [Outside] {cfg : Config} {p : Platform}

theorem submitAmid_nil (alive : p.alive = true) (k : Nat) (c : BlockChainConsensus)
    {ends : Platform → System × Option Outcome → Platform}
    (same : ∀ sys sys' outcome, ends { p with sys } (sys', some outcome) = ends p (sys', some outcome))
    (prepared : Disk × Block × Option Outcome) :
    Platform.submitAmid cfg p k c [] ends prepared =
      ends p (p.sys.submitted k (addPrepared c prepared).1 (addPrepared c prepared).2.1 (addPrepared c prepared).2.2.1
        (addPrepared c prepared).2.2.2) := by
  obtain ⟨db, b, _ | outcome⟩ := prepared
  · simp only [Platform.submitAmid, Platform.runChecks, List.map_nil, Transition.run_nil, addPrepared]
    rw [if_pos alive]
    obtain ⟨c', db', outcome⟩ := addValidatedBlock c db b b.phash
    cases outcome with
    | ok => exact same _ _ _
    | error e => exact same _ _ _
    | panic => exact same _ _ _
  · rfl

omit [Sha512] [Outside] in
theorem accepted_sys (k : Nat) (sys sys' : System) (outcome : Outcome) :
    Platform.accepted k { p with sys } (sys', some outcome) = Platform.accepted k p (sys', some outcome) := by
  cases outcome <;> rfl

omit [Outside] in
theorem mined_sys (k : Nat) (sys sys' : System) (outcome : Outcome) :
    Platform.mined k { p with sys } (sys', some outcome) = Platform.mined k p (sys', some outcome) := by
  cases outcome <;> rfl

/-- The halves of `AcceptNetworkBlock` in a row. -/
theorem acceptAmid_nil (alive : p.alive = true) (k : Nat) (order : List Entry) (tries : Nat) :
    Platform.acceptAmid cfg p k order tries [] = p.accept k order tries := by
  unfold Platform.acceptAmid Platform.accept Platform.onHandler
  cases p.threads k with
  | none => rfl
  | some t =>
    cases block : p.sys.blocks k with
    | none => cases t <;> rfl
    | some b =>
      cases t with
      | handler stage =>
        cases stage with
        | checked =>
          dsimp only
          rw [System.step, System.onBlock, block]
          cases p.sys.engine with
          | none => rfl
          | some c =>
            dsimp only
            split
            · rw [submitAmid_nil alive k c (accepted_sys k), acceptNetworkBlock_eq]
              rfl
            · rfl
        | _ => rfl
      | _ => rfl

/-- The halves of `mineCandidateBlock` in a row. -/
theorem mineAmid_nil (alive : p.alive = true) (k : Nat) (order : List Entry) (tries : Nat) :
    Platform.mineAmid cfg p k order tries [] = Platform.mine cfg p k order tries := by
  unfold Platform.mineAmid Platform.mine Platform.onCandidate Platform.onProducer
  cases p.threads k with
  | none => rfl
  | some t =>
    cases t with
    | producer q =>
      dsimp only
      cases block : p.sys.blocks k with
      | none =>
        cases q.phase with
        | mining =>
          dsimp only
          rw [System.step, System.onBlock, block]
          cases p.sys.engine <;> rfl
        | _ => rfl
      | some b =>
        dsimp only
        cases q.phase with
        | mining =>
          dsimp only
          rw [System.step, System.onBlock, block]
          cases p.sys.engine with
          | none => rfl
          | some c =>
            dsimp only
            split
            · rw [submitAmid_nil alive k c (mined_sys k), mineCandidateBlock_eq]
              rfl
            · rfl
        | _ => rfl
    | _ => rfl

/-- Without checks in between, the halves make up the call. -/
theorem amid_apart (p : Platform) (o : Overlap) (apart : o.checks = []) :
    Platform.amid cfg p o = Platform.step cfg p o.event := by
  cases o with
  | whole e => rfl
  | mine k order tries checks =>
    cases apart
    simp only [Platform.amid, Overlap.event, Platform.step]
    by_cases alive : p.alive = true
    · rw [if_pos alive, if_pos alive]
      exact mineAmid_nil alive k order tries
    · rw [if_neg alive, if_neg alive]
  | accept k order tries checks =>
    cases apart
    simp only [Platform.amid, Overlap.event, Platform.step]
    by_cases alive : p.alive = true
    · rw [if_pos alive, if_pos alive]
      exact acceptAmid_nil alive k order tries
    · rw [if_neg alive, if_neg alive]

/-- So does the whole run. -/
theorem amidRun_apart (steps : List Overlap) (apart : ∀ o ∈ steps, o.checks = []) :
    Platform.amidRun cfg p steps = p.run cfg (steps.map Overlap.event) := by
  induction steps generalizing p with
  | nil => rfl
  | cons o steps ih =>
    obtain ⟨first, rest⟩ := List.forall_mem_cons.mp apart
    rw [Platform.amidRun, Transition.run_cons, amid_apart p o first]
    exact ih rest

/-- **The supply is conserved** on a platform whose application leaves the accounts alone, in every run in which no
`CheckNetworkBlockPoW` falls between the halves of a submission. -/
theorem supply_conserved (works : Outside.Works) (spares : ∀ tx, (cfg.txProcessor tx).Spares IsAccount) {now : UInt64}
    (started : (Platform.boot cfg now).sys.engine.isSome) {steps : List Overlap} (apart : ∀ o ∈ steps, o.checks = [])
    (sound : HashSound (Known ((Platform.boot cfg now).amidRun cfg steps).sys.db)) :
    SupplyConserved (genesisHash genesisTimeStamp now) ((Platform.boot cfg now).amidRun cfg steps) := by
  rw [amidRun_apart steps apart] at sound ⊢
  have reached : Platform.Reached cfg (fun _ _ => True) (fun _ _ => True) (genesisHash genesisTimeStamp now)
      ((Platform.boot cfg now).run cfg (steps.map Overlap.event)) :=
    ⟨now, _, started, rfl, Transition.along_of_forall (fun _ _ _ => ⟨fun _ _ => trivial, trivial⟩) _, rfl⟩
  exact reached.supplyConserved works spares sound

end Apart

/-! ## A node by itself and a node with two listeners -/

section Worked

attribute [local instance] Plain.sha512 Plain.outside

namespace Worked

/-- Node 1 mines the block with an uncle. -/
def apartSteps : List Overlap := assembling.map .whole ++ [.mine 1 [richEntry] 1 []]

theorem apartSteps_apart : ∀ o ∈ apartSteps, o.checks = [] := by
  intro o member
  rcases List.mem_append.mp member with member | member
  · obtain ⟨e, -, rfl⟩ := List.mem_map.mp member
    rfl
  · rw [List.mem_singleton.mp member]
    rfl

theorem amidRun_apartSteps : (Platform.boot (Plain.config 1) 0).amidRun (Plain.config 1) apartSteps = minedNode := by
  rw [amidRun_apart apartSteps apartSteps_apart, apartSteps, List.map_append, List.map_map,
    show Overlap.event ∘ Overlap.whole = id from rfl, List.map_id]
  rfl

/-- The block of node 1 with another transaction, which sets k. -/
def keyedSpec : BlockSpec :=
  { producedSpec with
    state := digest Plain.keyedDigest
    txs := ((Plain.config 1).trustee.rewardTx 0 0 0x200001 []).toList ++ [Plain.transfer 2] }

/-- Two listeners have replayed a child of genesis each, and the first has checked its own. -/
def bothReplayed : List Event :=
  [.receive 2 producedSpec, .verify 2, .replay 2, .check 2 [fundedEntry] 1, .receive 3 keyedSpec, .verify 3, .replay 3]

/-- The first block is received again, and a block is mined on it. -/
def minedAgain : List Event :=
  receiving 4 producedSpec ++ Plain.startProducer ++ .submit (Plain.transfer 3) ::
    [.take 1, .candidate 1 0x200002, .reward 1 0 0 0x200002, .process 1, .add 1, .expire 1, .mine 1 [fundedEntry] 1]

/-- The check of the second block passes through the state of the first, and removes it after the first listener has
persisted it and before that listener rebases to it. -/
def overlapSteps : List Overlap :=
  bothReplayed.map .whole ++ .accept 2 [fundedEntry] 1 [⟨3, [fundedEntry, ⟨[107], some [1]⟩], 1⟩] ::
    minedAgain.map .whole

/-- The node of these steps. -/
def overlapNode : Platform := (Platform.boot (Plain.config 1) 0).amidRun (Plain.config 1) overlapSteps

/-- **A check in between.** The tip has the state of its parent: the reward of one of the two blocks is lost. -/
theorem check_loses_reward :
    (∀ tx, ((Plain.config 1).txProcessor tx).Spares IsAccount) ∧ (Platform.boot (Plain.config 1) 0).sys.engine.isSome ∧
      HashSound (Known overlapNode.sys.db) ∧ ¬ SupplyConserved (genesisHash genesisTimeStamp 0) overlapNode := by
  have run : (Platform.boot (Plain.config 1) 0).sys.engine.isSome ∧ Plain.Covered overlapNode.sys.db ∧
      digest Plain.staleDigest ≠ genesisHash genesisTimeStamp 0 ∧
      ((getSpec overlapNode.sys.db (digest Plain.staleDigest)).any fun spec : BlockSpec =>
        (getSpec overlapNode.sys.db spec.phash).any fun parent : BlockSpec =>
          decide (spec.uncles = [] ∧ spec.state = parent.state)) = true := by decide +kernel
  obtain ⟨started, covered, other, found⟩ := run
  generalize overlapNode = p at covered found ⊢
  refine ⟨txProcessor_spares, started, Plain.hashSound_of_covered fun n knows => ⟨_, knows, covered⟩, fun conserved => ?_⟩
  obtain ⟨spec, stored, found⟩ := (Option.any_eq_true _ _).mp found
  obtain ⟨parent, above, found⟩ := (Option.any_eq_true _ _).mp found
  obtain ⟨uncles, same⟩ := of_decide_eq_true found
  obtain ⟨parent', above', sum⟩ := conserved.blocks _ spec stored other
  rw [above, Option.some.injEq] at above'
  rw [← above', same, uncles] at sum
  exact absurd (left_eq_add.mp sum) (by decide)

end Worked

theorem supply_conserved_nephew :
    let p := (Platform.boot (Plain.config 1) 0).amidRun (Plain.config 1) Worked.apartSteps
    ∃ spec parent, getSpec p.sys.db (digest Plain.nephewDigest) = some spec ∧ spec.uncles.length = 1 ∧
      getSpec p.sys.db spec.phash = some parent ∧
      supply p.sys.db spec.state = supply p.sys.db parent.state + 1200000 := by
  obtain ⟨ran, covered, -, other, uncle, -⟩ := Worked.minedNode_run
  obtain ⟨started, -⟩ := of_decide_eq_true ran
  have spares : ∀ tx, ((Plain.config 1).txProcessor tx).Spares IsAccount := Worked.txProcessor_spares
  have conserved := supply_conserved Plain.outside_works spares started Worked.apartSteps_apart
  rw [Worked.amidRun_apartSteps] at conserved ⊢
  generalize Worked.minedNode = p at covered uncle conserved ⊢
  obtain ⟨spec, stored, uncle⟩ := Option.map_eq_some_iff.mp uncle
  have sound : HashSound (Known p.sys.db) := Plain.hashSound_of_covered fun n knows => ⟨_, knows, covered⟩
  obtain ⟨parent, above, sum⟩ := (conserved sound).blocks _ spec stored other
  rw [uncle] at sum
  exact ⟨spec, parent, stored, uncle, above, sum⟩

end Worked

end TrustNet
