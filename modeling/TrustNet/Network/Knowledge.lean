import TrustNet.Network.Hands

/-!
# What goroutines know of their blocks

Between two events a producer and a handler know something of the block in their hands.
`Knowledge` is what they know in each phase, and `Knowledge.Kept` that the calls of an event
keep it. What others do meanwhile adds to the database only. So the goroutines know it after
every event, and a result about a run is an instance of `Knowledge`.

To the engine an event is either a number of quiet calls or one submission.
-/

namespace TrustNet
set_option autoImplicit false

/-! ## Calls of the engine -/

section Calls

/-- `NewBlockChainConsensus` gives the engine the name of the node. -/
theorem restart_minerId [Sha512] {db : Disk} {genesisTime now : UInt64} {minerId : Bytes} {c : BlockChainConsensus}
    (engine : (System.restart db genesisTime now minerId).1.engine = some c) : c.minerId = minerId := by
  have started : (newBlockChainConsensus genesisTime now minerId db).2.2 = some c := engine
  unfold newBlockChainConsensus at started
  simp only at started
  split at started
  · cases started
  · split at started
    · split at started
      · cases started
      · cases started
      · cases started
        rfl
    · split at started
      · cases started
      · cases started
      · split at started
        · cases started
        · cases started
          rfl

variable [Sha512] {g : Byte64} {s : System} {k : Nat} {b : Block} {minerId : Bytes}

/-- `NewCandidateBlock`: the uncles are no genesis blocks, so they have miners. -/
theorem candidate_opened {now : UInt64} (reached : Reached RebaseOk g s)
    (miner : ∀ c, s.engine = some c → c.minerId = minerId)
    (named : ∀ h spec, getSpec s.db h = some spec → h ≠ g → spec.miner ≠ [])
    (made : (s.next (.candidate k now)).blocks k = some b) (sound : HashSound (Known (s.next (.candidate k now)).db)) :
    ∃ ws T, Opened (s.next (.candidate k now)).db b ws T ∧ b.vars = ∅ ∧ b.miner = minerId ∧
      ∀ uncle ∈ b.uncleMiners, uncle ≠ [] := by
  cases engine : s.engine with
  | none =>
    simp only [System.next, System.step, engine] at made
    have running := reached.running made
    rw [engine] at running
    cases running
  | some c =>
    cases result : newCandidateBlock c s.db now with
    | mk d found =>
      simp only [System.next, System.step, engine, result, System.setBlock, Function.update_self] at made sound ⊢
      subst made
      obtain ⟨m, canonical, synced⟩ := reached.onTip
      have candidate := reached.onTip.candidate reached.ready reached.dag engine result
      obtain ⟨ws, rebased, state, vars, -, -, owner⟩ := newCandidateBlock_fresh reached engine result
      have steps : TrieSteps (fun _ => False) s.db d := rebased.fresh_steps
      have records := SameRecords.of_steps steps
      have whole := (reached.contents (sound.of_suffix steps.suffix)).whole
      obtain ⟨T, working⟩ := rebased.working reached.ready.log whole (reached.ready.specs _ _ (synced c engine).spec)
      have miners := newCandidateBlock_miners result
      obtain ⟨level, levels⟩ := reached.dag.levels
      refine ⟨ws, T, ⟨state, working, ⟨ws, c.tip.toBlockSpec, working.holds, ?_, rebased.rootHash.symm⟩,
        miners, fun u listed => ?_⟩, vars, owner.trans (miner c engine), fun uncle member => ?_⟩
      · rw [records.spec]
        exact candidate.stored
      · obtain ⟨q, part, -, stored, -⟩ := candidate.uncles level levels u listed
        rw [records.spec]
        exact stored
      · rw [miners] at member
        obtain ⟨u, listed, rfl⟩ := List.mem_map.mp member
        obtain ⟨q, part, -, stored, -⟩ := candidate.uncles level levels u listed
        obtain ⟨spec, stored⟩ := Option.isSome_iff_exists.mp stored
        have other : u ≠ g := by
          rintro rfl
          refine part.not_anc levels.edge.ranked (canonical.chain.tree.anc_genesis ?_)
          rw [canonical.stored_iff, candidate.stored]
          rfl
        unfold minerAt
        rw [records.spec, stored]
        exact named u spec stored other

/-- `DecodeNetworkBlockSpec`. -/
theorem decode_opened {spec : BlockSpec} (reached : Reached RebaseOk g s) (outcome : (s.step (.decode k spec)).2 = some .ok)
    (sound : HashSound (Known (s.next (.decode k spec)).db)) :
    ∃ b ws T, (s.next (.decode k spec)).blocks k = some b ∧ Opened (s.next (.decode k spec)).db b ws T ∧ b.vars = ∅ := by
  cases engine : s.engine with
  | none => simp [System.step, engine] at outcome
  | some c =>
    rcases decodeNetworkBlockSpec_cases reached.ready.log spec with
      ⟨b', e, -, result⟩ | ⟨parent, result, -, -⟩ | ⟨parent, d, ws, miners, valid, rebased, result⟩
    · simp [System.step, engine, result] at outcome
    · simp [System.step, engine, result] at outcome
    · simp only [System.next, System.step, engine, result, System.setBlock, Function.update_self] at sound ⊢
      have steps : TrieSteps (fun _ => False) s.db d := rebased.fresh_steps
      have records := SameRecords.of_steps steps
      have whole := (reached.contents (sound.of_suffix steps.suffix)).whole
      obtain ⟨T, working⟩ := rebased.working reached.ready.log whole (reached.ready.specs _ _ valid.stored)
      have named := decodeNetworkBlockSpec_miners result
      refine ⟨_, ws, T, rfl, ⟨rfl, working, ⟨ws, parent, working.holds, ?_, rebased.rootHash.symm⟩, ?_, fun u listed => ?_⟩,
        rfl⟩
      · rw [records.spec]
        exact valid.stored
      · rw [named]
        exact (map_minerAt fun u _ => records.spec u).symm
      · rw [records.spec]
        exact (valid.uncles u listed).2

/-- `CheckNetworkBlockPoW` hashes the block. -/
theorem check_hashed {apprvr : PowApprover} {order : List Entry} {tries : Nat} (reached : Reached RebaseOk g s)
    (block : s.blocks k = some b) (outcome : (s.step (.checkPoW k apprvr order tries)).2 = some .ok) :
    ∃ ws₀ inputs d₁ child ws, b.worldState = some ws₀ ∧ order.Perm b.vars.entries ∧
      Hashed s.db b ws₀ order inputs d₁ child ws ∧ s.next (.checkPoW k apprvr order tries) =
        ({ s with db := d₁ } : System).setBlock k (some child) := by
  obtain ⟨c, engine⟩ := Option.isSome_iff_exists.mp (reached.running block)
  obtain ⟨ws₀, state, ready⟩ := reached.ready.blocks k b block
  by_cases perm : order.Perm b.vars.entries
  · rcases checkNetworkBlockPoW_cases reached.ready.log state ready apprvr order tries with
      ⟨e, result⟩ | ⟨d₁, child, ws, o, hashed, fine, result⟩
    · simp [System.step, System.onBlock, engine, block, perm, result, System.finish] at outcome
    · simp only [System.next, System.step, System.onBlock, engine, block, if_pos perm, result] at outcome ⊢
      cases o with
      | ok => exact ⟨ws₀, _, d₁, child, ws, state, perm, hashed, by rw [← engine]; rfl⟩
      | error e => simp [System.finish] at outcome
      | panic => exact absurd rfl fine
  · simp [System.step, System.onBlock, engine, block, perm] at outcome

/-- A call that stores no block, and starts the node under its own name. -/
def Quiet (minerId : Bytes) (a : Action) : Prop :=
  a.submits = false ∧ ∀ genesisTime now other, a = .restart genesisTime now other → other = minerId

theorem Quiet.rebaseOk {a : Action} (quiet : Quiet minerId a) (s : System) : RebaseOk s a := by
  simp [RebaseOk, rebaseFails, quiet.1]

theorem Quiet.records {a : Action} (quiet : Quiet minerId a) (ready : SystemReady s) : SameRecords s.db (s.next a).db := by
  have result := step_result ready a
  unfold System.next
  generalize s.step a = ends at result
  obtain ⟨s', o⟩ := ends
  cases result with
  | quiet _ _ steps => exact SameRecords.of_steps steps
  | added i c c' b child ws₀ ws order parent d₁ d' outcome submits =>
    rw [quiet.1] at submits
    cases submits
  | stopped => exact freshDisk_records s.db
  | restarted h spec d' t gn minerId restarts tip found rebased =>
    have steps : TrieSteps (fun _ => False) s.db d' := rebased.fresh_steps
    exact SameRecords.of_steps steps

omit [Sha512] in
theorem finish_engine (s : System) (i : Nat) (db : Disk) (b : Block) (outcome : Outcome) {c : BlockChainConsensus}
    (engine : (s.finish i db b outcome).1.engine = some c) : s.engine = some c := by
  cases outcome with
  | ok => exact engine
  | error e => exact engine
  | panic => cases engine

/-- The name of the node. -/
theorem Quiet.miner {a : Action} (quiet : Quiet minerId a) (miner : ∀ c, s.engine = some c → c.minerId = minerId)
    (c : BlockChainConsensus) (engine : (s.next a).engine = some c) : c.minerId = minerId := by
  have finished : ∀ i db b o, ((s.finish i db b o).1.engine = some c) → c.minerId = minerId :=
    fun i db b o engine => miner c (finish_engine s i db b o engine)
  have onBlock : ∀ i call, (∀ c' b, ((call c' b).1.engine = some c → c.minerId = minerId)) →
      (s.onBlock i call).1.engine = some c → c.minerId = minerId := by
    intro i call each engine
    unfold System.onBlock at engine
    split at engine
    · exact each _ _ engine
    · exact miner c engine
  unfold System.next at engine
  cases a with
  | decode i spec =>
    simp only [System.step] at engine
    split at engine
    · exact miner c engine
    · split at engine
      · exact miner c engine
      · exact miner c engine
  | candidate i now =>
    simp only [System.step] at engine
    split at engine
    · exact miner c engine
    · exact miner c engine
  | update i key value => exact onBlock i _ (fun _ _ => finished _ _ _ _) engine
  | delete i key => exact onBlock i _ (fun _ _ => finished _ _ _ _) engine
  | lookup i key =>
    refine onBlock i _ (fun _ b engine => ?_) engine
    split at engine
    · exact finished _ _ _ _ engine
    · exact finished _ _ _ _ engine
    · exact finished _ _ _ _ engine
  | addTransaction i tx => exact onBlock i _ (fun _ _ => finished _ _ _ _) engine
  | checkPoW i apprvr order tries =>
    refine onBlock i _ (fun _ b engine => ?_) engine
    split at engine
    · exact finished _ _ _ _ engine
    · exact miner c engine
  | accept i order tries => cases quiet.1
  | mine i apprvr order tries => cases quiet.1
  | block hash =>
    simp only [System.step] at engine
    split at engine
    · exact miner c engine
    · split at engine
      · exact miner c engine
      · exact miner c engine
  | bestBlock =>
    simp only [System.step] at engine
    split at engine
    · exact miner c engine
    · exact miner c engine
  | restart genesisTime now other =>
    rw [← quiet.2 _ _ _ rfl]
    exact restart_minerId engine

end Calls

/-! ## Events and the engine -/

section Events

variable [Sha512] [Outside] {cfg : Config} {g : Byte64} {p p' : Platform} {e : Event}

/-- The event submits block `k`, by the call `a`. -/
inductive Submits (cfg : Config) (p : Platform) : Event → Nat → List Entry → Action → Prop where
  | mine (k : Nat) (order : List Entry) (tries : Nat) (q : Producer) (thread : p.threads k = some (.producer q))
      (phase : q.phase = .mining) :
      Submits cfg p (.mine k order tries) k order (.mine k (some cfg.powApprover) order tries)
  | accept (k : Nat) (order : List Entry) (tries : Nat) (thread : p.threads k = some (.handler .checked)) :
      Submits cfg p (.accept k order tries) k order (.accept k order tries)

theorem Submits.submit {k : Nat} {order : List Entry} {a : Action} (submits : Submits cfg p e k order a)
    (ready : SystemReady p.sys) : Submit p.sys k order (p.sys.next a) (p.sys.step a).2 := by
  cases submits with
  | mine _ _ tries => exact mine_submit ready (some cfg.powApprover)
  | accept _ _ tries => exact accept_submit ready

theorem mine_sys (cfg : Config) (p : Platform) (k : Nat) (order : List Entry) (tries : Nat) :
    (Platform.mine cfg p k order tries).sys = p.sys ∨ ∃ q, p.threads k = some (.producer q) ∧ q.phase = .mining ∧
      (Platform.mine cfg p k order tries).sys = p.sys.next (.mine k (some cfg.powApprover) order tries) := by
  unfold Platform.mine Platform.onProducer
  split
  · rename_i q thread
    beta_reduce
    split
    · rename_i phase
      split
      · rename_i sys result
        exact Or.inr ⟨q, thread, phase, (congrArg Prod.fst result).symm⟩
      · rename_i sys e result
        exact Or.inr ⟨q, thread, phase, (congrArg Prod.fst result).symm⟩
      · rename_i sys result
        exact Or.inr ⟨q, thread, phase, (congrArg Prod.fst result).symm⟩
      · exact Or.inl rfl
    · exact Or.inl rfl
  · exact Or.inl rfl

omit [Outside] in
theorem accept_sys (p : Platform) (k : Nat) (order : List Entry) (tries : Nat) :
    (p.accept k order tries).sys = p.sys ∨ p.threads k = some (.handler .checked) ∧
      (p.accept k order tries).sys = p.sys.next (.accept k order tries) := by
  unfold Platform.accept Platform.onHandler
  split
  · rename_i stage b thread block
    beta_reduce
    split
    · split
      · rename_i sys result
        exact Or.inr ⟨thread, (congrArg Prod.fst result).symm⟩
      · rename_i sys o fine result
        exact Or.inr ⟨thread, (congrArg Prod.fst result).symm⟩
      · exact Or.inl rfl
    · exact Or.inl rfl
  · exact Or.inl rfl

/-- **What an event is to the engine:** quiet calls, or a submission of a block in hand. -/
theorem step_leads {P : System → Action → Prop} (reached : Reached P g p.sys) (e : Event) :
    Leads (fun _ a => Quiet cfg.trustee.myAddress a) p.sys (Platform.step cfg p e).sys ∨
      ∃ k order a, Submits cfg p e k order a ∧ (Platform.step cfg p e).sys = p.sys.next a := by
  have fills : ∀ (s : System) (a : Action), a.fills = true → Quiet cfg.trustee.myAddress a := by
    intro s a fills
    cases a with
    | update | delete | lookup | addTransaction => exact ⟨rfl, by simp⟩
    | _ => cases fills
  have quiet : (∀ a, cfg.call e = some a → Quiet cfg.trustee.myAddress a) →
      Leads (fun _ a => Quiet cfg.trustee.myAddress a) p.sys (Platform.step cfg p e).sys :=
    fun calls => (step_happens e).leads fills reached fun a member => calls a member
  by_cases submission : ∃ k order tries, e = .mine k order tries ∨ e = .accept k order tries
  · obtain ⟨k, order, tries, rfl | rfl⟩ := submission
    · by_cases alive : p.alive = true
      · have same : Platform.step cfg p (.mine k order tries) = Platform.mine cfg p k order tries := by
          simp [Platform.step, alive, Platform.next]
        rw [same]
        rcases mine_sys cfg p k order tries with idle | ⟨q, thread, phase, next⟩
        · rw [idle]
          exact Or.inl (.refl _ _)
        · exact Or.inr ⟨k, order, _, .mine k order tries q thread phase, next⟩
      · have same : Platform.step cfg p (.mine k order tries) = p := by
          simp [Platform.step, alive]
        rw [same]
        exact Or.inl (.refl _ _)
    · by_cases alive : p.alive = true
      · have same : Platform.step cfg p (.accept k order tries) = p.accept k order tries := by
          simp [Platform.step, alive, Platform.next]
        rw [same]
        rcases accept_sys p k order tries with idle | ⟨thread, next⟩
        · rw [idle]
          exact Or.inl (.refl _ _)
        · exact Or.inr ⟨k, order, _, .accept k order tries thread, next⟩
      · have same : Platform.step cfg p (.accept k order tries) = p := by
          simp [Platform.step, alive]
        rw [same]
        exact Or.inl (.refl _ _)
  · refine Or.inl (quiet fun a call => ?_)
    cases e with
    | mine k order tries => exact absurd ⟨k, order, tries, Or.inl rfl⟩ submission
    | accept k order tries => exact absurd ⟨k, order, tries, Or.inr rfl⟩ submission
    | restart now =>
      cases call
      refine ⟨rfl, fun _ _ _ eq => ?_⟩
      cases eq
      rfl
    | candidate | announce | receive | check | block | bestBlock =>
      cases call
      exact ⟨rfl, by simp⟩
    | _ => cases call

omit [Outside] in
theorem Leads.later {s s' : System} (leads : Leads RebaseOk s s') (reached : Reached RebaseOk g s)
    (sound : HashSound (Known s'.db)) : Later s.db s'.db := by
  have reached' := leads.reached reached
  obtain ⟨actions, along, rfl⟩ := leads
  exact ⟨run_grows reached.ready actions, reached.specsKept along, reached'.ready.log, (reached'.contents sound).whole⟩

omit [Outside] in
/-- Quiet calls keep the records and the name of the node. -/
theorem Leads.quiet {s s' : System} {minerId : Bytes} (leads : Leads (fun _ a => Quiet minerId a) s s')
    (ready : SystemReady s) (miner : ∀ c, s.engine = some c → c.minerId = minerId) :
    Leads RebaseOk s s' ∧ SameRecords s.db s'.db ∧ ∀ c, s'.engine = some c → c.minerId = minerId := by
  obtain ⟨actions, along, rfl⟩ := leads
  have inv := along.invariant
    (fun s' => SystemReady s' ∧ SameRecords s.db s'.db ∧ ∀ c, s'.engine = some c → c.minerId = minerId)
    (fun s' a inv quiet => ⟨systemReady_next inv.1 a, inv.2.1.trans (quiet.records inv.1), quiet.miner inv.2.2⟩)
    ⟨ready, SameRecords.refl s.db, miner⟩
  exact ⟨⟨actions, along.mono fun s' a quiet => quiet.rebaseOk s', rfl⟩, inv.2⟩

omit [Outside] in
theorem AddResult.minerId {c c' : BlockChainConsensus} {d d' : Disk} {child : Block} {outcome : Outcome}
    (result : AddResult c d child c' d' outcome) : c'.minerId = c.minerId := by
  cases result <;> rfl

omit [Outside] in
theorem Submit.miner {s s' : System} {i : Nat} {order : List Entry} {o : Option Outcome} {minerId : Bytes}
    (submit : Submit s i order s' o) (miner : ∀ c, s.engine = some c → c.minerId = minerId) (c : BlockChainConsensus)
    (engine : s'.engine = some c) : c.minerId = minerId := by
  cases submit with
  | refused _ _ records same =>
    rw [same] at engine
    exact miner c engine
  | added c₀ c' b child ws₀ ws parent d₁ d' inputs outcome engine₀ block state perm valid hashed root result =>
    have own : c'.minerId = minerId := result.minerId.trans (miner c₀ engine₀)
    cases outcome with
    | ok =>
      cases engine
      exact own
    | error e =>
      cases engine
      exact own
    | panic => cases engine

/-- A process that has ended has no goroutines. -/
theorem step_halted (halted : (Platform.step cfg p e).alive = false) :
    Platform.step cfg p e = p ∨ ∀ k, (Platform.step cfg p e).threads k = none := by
  by_cases alive : p.alive = true
  · right
    have happens : Happens cfg p e (Platform.step cfg p e) := step_happens e
    generalize Platform.step cfg p e = p' at happens halted
    cases happens with
    | panicked => exact fun _ => rfl
    | restarted => exact fun _ => rfl
    | _ => exact absurd alive (by simpa [Platform.setThread, Platform.put] using halted)
  · left
    cases e with
    | restart now => simp [Platform.step, alive, Platform.next, Platform.ofSystem] at halted
    | _ => simp [Platform.step, alive]

/-- Goroutines are those of a process that runs. -/
theorem Platform.Reached.alive {P : System → Action → Prop} {Q : Platform → Event → Prop}
    (fills : ∀ s a, a.fills = true → P s a) (reached : Platform.Reached cfg P Q g p) {k : Nat} {t : Thread}
    (thread : p.threads k = some t) : p.alive = true := by
  refine (reached.invariant (fun p => ∀ k t, p.threads k = some t → p.alive = true) fills (fun _ _ _ _ _ _ => rfl)
    fun p e _ inv _ _ k t thread => ?_).2 k t thread
  cases alive : (Platform.step cfg p e).alive with
  | true => rfl
  | false =>
    rcases step_halted alive with same | none'
    · rw [same] at thread alive
      exact alive.symm.trans (inv k t thread)
    · rw [none' k] at thread
      cases thread

/-- **Invariant rule of a platform without collisions of trie nodes.** -/
theorem Platform.Reached.invariant_sound {P : System → Action → Prop} {Q : Platform → Event → Prop} (Inv : Platform → Prop)
    (fills : ∀ s a, a.fills = true → P s a) (reached : Platform.Reached cfg P Q g p) (sound : HashSound (Known p.sys.db))
    (start : ∀ now, (Platform.boot cfg now).sys.engine.isSome → genesisHash genesisTimeStamp now = g →
      Inv (Platform.boot cfg now))
    (keeps : ∀ p e, Inv p → Q p e → Leads P p.sys (Platform.step cfg p e).sys →
      HashSound (Known (Platform.step cfg p e).sys.db) → Inv (Platform.step cfg p e)) : Inv p := by
  refine (reached.invariant (fun p => HashSound (Known p.sys.db) → Inv p) fills (fun now started genesis _ =>
    start now started genesis) fun p e below inv permitted fine sound => ?_).2 sound
  have leads := (step_happens e).leads fills below permitted
  have grow : p.sys.db.log <:+ (Platform.step cfg p e).sys.db.log := by
    obtain ⟨actions, -, run⟩ := leads
    rw [← run]
    exact run_grows below.ready actions
  exact keeps p e (inv (sound.of_suffix grow)) fine leads sound

end Events

/-! ## Knowledge -/

/-- What goroutines know of the block in their hands. A candidate was opened, is being filled, where the list has the
transaction that the application approved and that is not yet added, or is full. A network block was decoded, was
verified with a rest to replay, or was checked. -/
structure Knowledge where
  opened : Disk → Block → Prop
  filled : Disk → List Transaction → Block → Prop
  full : Disk → Block → Prop
  decoded : Disk → Block → Prop
  verified : Disk → List Transaction → Block → Prop
  checked : Disk → Block → Prop

/-- What a producer knows of its candidate. -/
def Phase.Suits (K : Knowledge) (d : Disk) (newBlock : Bool) (block : Option Block) : Phase → Prop
  | .selecting => newBlock = true → ∃ b, block = some b ∧ K.filled d [] b
  | .opening _ => True
  | .rewarding _ => ∃ b, block = some b ∧ K.opened d b
  | .processing _ => ∃ b, block = some b ∧ K.filled d [] b
  | .adding tx => ∃ b, block = some b ∧ K.filled d [tx] b
  | .mining => ∃ b, block = some b ∧ K.full d b

/-- What a handler knows of its block. -/
def Stage.Suits (K : Knowledge) (d : Disk) (block : Option Block) : Stage → Prop
  | .decoded => ∃ b, block = some b ∧ K.decoded d b
  | .verified rest => ∃ b, block = some b ∧ K.verified d rest b
  | .checked => ∃ b, block = some b ∧ K.checked d b

/-- What a goroutine knows of its block. -/
def Thread.Suits (K : Knowledge) (d : Disk) (block : Option Block) : Thread → Prop
  | .producer q => q.phase.Suits K d q.newBlock block
  | .handler stage => stage.Suits K d block
  | _ => True

/-- Goroutine `k`, if there is one, knows what suits it. -/
def Platform.SuitsAt (p : Platform) (K : Knowledge) (k : Nat) : Prop :=
  ∀ t, p.threads k = some t → t.Suits K p.sys.db (p.sys.blocks k)

section Goroutine

variable {K : Knowledge} {d : Disk} {block : Option Block} {p : Platform} {k : Nat} {t : Thread} {b b' : Block} {q : Producer}
  {tx : Transaction}

theorem suitsAt_free (free : p.threads k = none) : p.SuitsAt K k := by
  intro t thread
  rw [free] at thread
  cases thread

theorem suitsAt_end : (p.setThread k none).SuitsAt K k := suitsAt_free (Platform.setThread_self _ _ _)

theorem suitsAt_setThread (suits : t.Suits K p.sys.db (p.sys.blocks k)) : (p.setThread k (some t)).SuitsAt K k := by
  intro t' thread
  rw [Platform.setThread_self] at thread
  cases thread
  exact suits

theorem suitsAt_setThread_of_ne {i : Nat} {t : Option Thread} (ne : k ≠ i) (suits : p.SuitsAt K k) :
    (p.setThread i t).SuitsAt K k := by
  intro t' thread
  rw [Platform.setThread_of_ne _ _ ne] at thread
  exact suits t' thread

theorem suitsAt_put (suits : t.Suits K p.sys.db (some b)) : (p.put k b t).SuitsAt K k := by
  intro t' thread
  rw [Platform.put_self] at thread
  cases thread
  rw [Platform.put_block]
  exact suits

theorem Thread.suits_fresh : (Thread.producer Producer.fresh).Suits K d block := by
  intro has
  cases has

theorem Thread.Suits.took (suits : (Thread.producer q).Suits K d block) (phase : q.phase = .selecting) :
    (Thread.producer { q with phase := if q.newBlock then .processing tx else .opening tx }).Suits K d block := by
  simp only [Thread.Suits, phase, Phase.Suits] at suits
  cases has : q.newBlock with
  | true => exact suits has
  | false => trivial

theorem Thread.Suits.rewarded (suits : (Thread.producer q).Suits K d (some b)) (phase : q.phase = .rewarding tx)
    (fills : K.opened d b → K.filled d [] b') :
    (Thread.producer { q with phase := .processing tx }).Suits K d (some b') := by
  simp only [Thread.Suits, phase, Phase.Suits, Option.some.injEq] at suits
  obtain ⟨b₀, rfl, opened⟩ := suits
  exact ⟨b', rfl, fills opened⟩

theorem Thread.Suits.approved (suits : (Thread.producer q).Suits K d (some b)) (phase : q.phase = .processing tx)
    (approves : K.filled d [] b → K.filled d [tx] b') :
    (Thread.producer { q with phase := .adding tx }).Suits K d (some b') := by
  simp only [Thread.Suits, phase, Phase.Suits, Option.some.injEq] at suits
  obtain ⟨b₀, rfl, filled⟩ := suits
  exact ⟨b', rfl, approves filled⟩

theorem Thread.Suits.rejected (suits : (Thread.producer q).Suits K d (some b)) (phase : q.phase = .processing tx)
    (rejects : K.filled d [] b → K.filled d [] b') :
    (Thread.producer { q with phase := .selecting }).Suits K d (some b') := by
  simp only [Thread.Suits, phase, Phase.Suits, Option.some.injEq] at suits
  obtain ⟨b₀, rfl, filled⟩ := suits
  exact fun _ => ⟨b', rfl, rejects filled⟩

theorem Thread.Suits.added (suits : (Thread.producer q).Suits K d (some b)) (phase : q.phase = .adding tx)
    (adds : K.filled d [tx] b → K.filled d [] b' ∧ K.full d b') :
    (Thread.producer { q with
      txCount := q.txCount + 1
      phase := if q.txCount + 1 = maxTxCount then .mining else .selecting }).Suits K d (some b') := by
  simp only [Thread.Suits, phase, Phase.Suits, Option.some.injEq] at suits
  obtain ⟨b₀, rfl, filled⟩ := suits
  obtain ⟨after, full⟩ := adds filled
  by_cases last : q.txCount + 1 = maxTxCount
  · simp only [Thread.Suits, if_pos last]
    exact ⟨b', rfl, full⟩
  · simp only [Thread.Suits, if_neg last]
    exact fun _ => ⟨b', rfl, after⟩

theorem Thread.Suits.sent (suits : (Thread.producer q).Suits K d (some b)) (phase : q.phase = .selecting)
    (has : q.newBlock = true) (sends : K.filled d [] b → K.full d b) :
    (Thread.producer { q with phase := .mining }).Suits K d (some b) := by
  simp only [Thread.Suits, phase, Phase.Suits, Option.some.injEq] at suits
  obtain ⟨b₀, rfl, filled⟩ := suits has
  exact ⟨b, rfl, sends filled⟩

theorem Thread.Suits.verified {rest : List Transaction} (suits : (Thread.handler .decoded).Suits K d (some b))
    (passes : K.decoded d b → K.verified d rest b') : (Thread.handler (.verified rest)).Suits K d (some b') := by
  obtain ⟨b₀, same, decoded⟩ := suits
  cases same
  exact ⟨b', rfl, passes decoded⟩

theorem Thread.Suits.replayed {rest rest' : List Transaction} (suits : (Thread.handler (.verified rest)).Suits K d (some b))
    (replays : K.verified d rest b → K.verified d rest' b') : (Thread.handler (.verified rest')).Suits K d (some b') := by
  obtain ⟨b₀, same, verified⟩ := suits
  cases same
  exact ⟨b', rfl, replays verified⟩

end Goroutine

section Knowledge

variable [Sha512] {K : Knowledge} {d d' : Disk} {block : Option Block}

/-- The knowledge stays while others work. -/
structure Knowledge.Lasts (K : Knowledge) : Prop where
  opened : ∀ {d d' b}, Later d d' → K.opened d b → K.opened d' b
  filled : ∀ {d d' pending b}, Later d d' → K.filled d pending b → K.filled d' pending b
  full : ∀ {d d' b}, Later d d' → K.full d b → K.full d' b
  decoded : ∀ {d d' b}, Later d d' → K.decoded d b → K.decoded d' b
  verified : ∀ {d d' rest b}, Later d d' → K.verified d rest b → K.verified d' rest b
  checked : ∀ {d d' b}, Later d d' → K.checked d b → K.checked d' b

theorem Thread.Suits.later {t : Thread} (suits : t.Suits K d block) (lasts : K.Lasts) (later : Later d d') :
    t.Suits K d' block := by
  have keep : ∀ {P P' : Block → Prop}, (∀ {b}, P b → P' b) → (∃ b, block = some b ∧ P b) → ∃ b, block = some b ∧ P' b := by
    rintro P P' keep ⟨b, eq, known⟩
    exact ⟨b, eq, keep known⟩
  cases t with
  | producer q =>
    obtain ⟨newBlock, txCount, phase⟩ := q
    cases phase with
    | selecting => exact fun has => keep (lasts.filled later) (suits has)
    | opening tx => trivial
    | rewarding tx => exact keep (lasts.opened later) suits
    | processing tx => exact keep (lasts.filled later) suits
    | adding tx => exact keep (lasts.filled later) suits
    | mining => exact keep (lasts.full later) suits
  | handler stage =>
    cases stage with
    | decoded => exact keep (lasts.decoded later) suits
    | verified rest => exact keep (lasts.verified later) suits
    | checked => exact keep (lasts.checked later) suits
  | starting => trivial
  | started => trivial
  | suspending => trivial
  | suspended => trivial

variable [Outside] {cfg : Config} {p p' : Platform} {e : Event}

/-- The calls of an event that leads from `p` to `p'` keep the knowledge. -/
structure Knowledge.Kept (K : Knowledge) (cfg : Config) (p : Platform) (e : Event) (p' : Platform) : Prop where
  candidate : ∀ {k now b}, p'.sys = p.sys.next (.candidate k now) → p'.sys.blocks k = some b → K.opened p'.sys.db b
  rewarded : ∀ {k order nonce now b b₁ reward}, e = .reward k order nonce now → p.sys.blocks k = some b →
    K.opened p.sys.db b → cfg.trustee.newMiningRewardTx order nonce now p.sys.db b = some (b₁, some reward) →
    K.filled p.sys.db [] (b₁.addTransaction p.sys.db reward).1
  approved : ∀ {tx b b₁}, K.filled p.sys.db [] b → processTx cfg p.sys.db tx b = some (b₁, true) →
    K.filled p.sys.db [tx] b₁
  rejected : ∀ {k q tx b b₁}, e = .process k → p.threads k = some (.producer q) → q.phase = .processing tx →
    p.sys.blocks k = some b → K.filled p.sys.db [] b → processTx cfg p.sys.db tx b = some (b₁, false) →
    K.filled p.sys.db [] b₁
  added : ∀ {k q tx b}, e = .add k → p.threads k = some (.producer q) → q.phase = .adding tx → p.sys.blocks k = some b →
    K.filled p.sys.db [tx] b →
    K.filled p.sys.db [] (b.addTransaction p.sys.db tx).1 ∧ K.full p.sys.db (b.addTransaction p.sys.db tx).1
  sent : ∀ {b}, K.filled p.sys.db [] b → 1 < b.txs.length → K.full p.sys.db b
  received : ∀ {k spec}, p'.sys = p.sys.next (.decode k spec) → (p.sys.step (.decode k spec)).2 = some .ok →
    ∃ b, p'.sys.blocks k = some b ∧ K.decoded p'.sys.db b
  verified : ∀ {b b₁}, K.decoded p.sys.db b → verifyMiningRewardTx p.sys.db b = some (b₁, true) →
    K.verified p.sys.db b₁.txs.tail b₁
  replayed : ∀ {tx rest b b₁}, K.verified p.sys.db (tx :: rest) b → processTx cfg p.sys.db tx b = some (b₁, true) →
    K.verified p.sys.db rest b₁
  checked : ∀ {k order tries b}, p'.sys = p.sys.next (.checkPoW k cfg.powApprover order tries) →
    p.sys.blocks k = some b → K.verified p.sys.db [] b →
    (p.sys.step (.checkPoW k cfg.powApprover order tries)).2 = some .ok →
    ∃ b', p'.sys.blocks k = some b' ∧ K.checked p'.sys.db b'

/-- What the goroutines know after an event of theirs. -/
theorem Happens.suits (happens : Happens cfg p e p') (kept : K.Kept cfg p e p') (hands : ∀ k, p.SuitsAt K k) {k : Nat}
    (own : k ∈ e.threads) : p'.SuitsAt K k := by
  have one : ∀ {j : Nat}, k ∈ [j] → k = j := List.eq_of_mem_singleton
  have at' : ∀ {t b}, p.threads k = some t → p.sys.blocks k = some b → t.Suits K p.sys.db (some b) :=
    fun thread block => block ▸ hands k _ thread
  cases happens with
  | idle => exact hands k
  | submitted => cases own
  | starting i =>
    obtain rfl := one own
    exact suitsAt_setThread trivial
  | launched i j =>
    by_cases eq : k = i
    · subst eq
      exact suitsAt_setThread trivial
    · obtain rfl : k = j := by simpa [Event.threads, eq] using own
      exact suitsAt_setThread_of_ne eq (suitsAt_setThread Thread.suits_fresh)
  | running i =>
    obtain rfl := one own
    exact suitsAt_end
  | suspending i =>
    obtain rfl := one own
    exact suitsAt_setThread trivial
  | shutdown i j =>
    by_cases eq : k = i
    · subst eq
      exact suitsAt_setThread trivial
    · obtain rfl : k = j := by simpa [Event.threads, eq] using own
      exact suitsAt_setThread_of_ne eq suitsAt_end
  | suspended i =>
    obtain rfl := one own
    exact suitsAt_end
  | took j q tx txQ thread phase =>
    obtain rfl := one own
    exact suitsAt_setThread ((hands k _ thread).took phase)
  | opened j now q tx b thread phase made =>
    obtain rfl := one own
    exact suitsAt_setThread ⟨b, made, kept.candidate rfl made⟩
  | rewarded j order nonce now q tx reward b b₁ thread phase block built fine =>
    obtain rfl := one own
    exact suitsAt_put ((at' thread block).rewarded phase fun opened => kept.rewarded rfl block opened built)
  | approved j q tx b b₁ thread phase block processed =>
    obtain rfl := one own
    exact suitsAt_put ((at' thread block).approved phase fun filled => kept.approved filled processed)
  | rejected j q tx b b₁ thread phase block processed =>
    obtain rfl := one own
    exact suitsAt_put ((at' thread block).rejected phase fun filled =>
      kept.rejected rfl thread phase block filled processed)
  | added j q tx b thread phase block fine =>
    obtain rfl := one own
    exact suitsAt_put ((at' thread block).added phase fun filled => kept.added rfl thread phase block filled)
  | sent j q b thread phase has block several =>
    obtain rfl := one own
    refine suitsAt_setThread ?_
    rw [block]
    exact (at' thread block).sent phase has fun filled => kept.sent filled several
  | dropped | mined | failed =>
    obtain rfl := one own
    exact suitsAt_setThread Thread.suits_fresh
  | received j spec free outcome =>
    obtain rfl := one own
    exact suitsAt_setThread (kept.received rfl outcome)
  | refused j spec free =>
    obtain rfl := one own
    exact suitsAt_free free
  | verified j b b₁ thread block several passed =>
    obtain rfl := one own
    exact suitsAt_put ((at' thread block).verified fun decoded => kept.verified decoded passed)
  | replayed j tx rest b b₁ thread block processed =>
    obtain rfl := one own
    exact suitsAt_put ((at' thread block).replayed fun verified => kept.replayed verified processed)
  | checked j order tries thread outcome =>
    obtain rfl := one own
    obtain ⟨b, block, verified⟩ : ∃ b, p.sys.blocks k = some b ∧ K.verified p.sys.db [] b := hands k _ thread
    exact suitsAt_setThread (kept.checked rfl block verified outcome)
  | ended _ j stage call =>
    obtain rfl : k = j := by
      rcases call with rfl | rfl <;> exact one own
    exact suitsAt_end
  | uncheckable | accepted =>
    obtain rfl := one own
    exact suitsAt_end
  | announced j now b free =>
    obtain rfl := one own
    exact suitsAt_free free
  | read _ a call =>
    rcases call with ⟨rfl, -⟩ | ⟨h, rfl, -⟩ <;> cases own
  | restarted => cases own
  | panicked => exact suitsAt_free rfl

/-- **One event keeps what the goroutines know.** -/
theorem Knowledge.step (lasts : K.Lasts) (kept : K.Kept cfg p e (Platform.step cfg p e))
    (hands : ∀ k t, p.threads k = some t → t.Suits K p.sys.db (p.sys.blocks k))
    (later : Later p.sys.db (Platform.step cfg p e).sys.db) (k : Nat) (t : Thread)
    (thread : (Platform.step cfg p e).threads k = some t) :
    t.Suits K (Platform.step cfg p e).sys.db ((Platform.step cfg p e).sys.blocks k) := by
  have happens : Happens cfg p e (Platform.step cfg p e) := step_happens e
  by_cases own : k ∈ e.threads
  · exact happens.suits kept (fun k => hands k) own t thread
  · cases alive : (Platform.step cfg p e).alive with
    | false =>
      rcases step_halted alive with same | none'
      · rw [same] at thread ⊢
        exact hands k t thread
      · rw [none' k] at thread
        cases thread
    | true =>
      by_cases stays : e.restarts = false
      · obtain ⟨threads, blocks⟩ := happens.frame alive stays own
        rw [threads] at thread
        rw [blocks]
        exact (hands k t thread).later lasts later
      · cases e with
        | restart now =>
          have none' : (Platform.step cfg p (.restart now)).threads k = none := by
            unfold Platform.step
            split
            · rfl
            · rfl
          rw [none'] at thread
          cases thread
        | _ => exact absurd rfl stays

end Knowledge

end TrustNet
