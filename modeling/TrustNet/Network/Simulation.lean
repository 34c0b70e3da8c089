import TrustNet.Consensus.Receive
import TrustNet.Network.Events

/-!
# The platform runs on the engine

To the engine, an event of the platform is a sequence of calls: what the trustee and the
application do to a block are accesses to its state, and the rest are single calls. So
every run of a platform is a run of the engine below it, and what holds in every state of
a node holds below every platform.
-/

namespace TrustNet
set_option autoImplicit false

/-! ## Accesses -/

section Replay

variable {d : Disk} {b b' : Block}

/-- The block was changed by accesses to its state. -/
def Replayed (d : Disk) (b b' : Block) : Prop := ∃ ops, b' = b.replay d ops

theorem Replayed.refl (d : Disk) (b : Block) : Replayed d b b := ⟨[], rfl⟩

theorem Replayed.trans {b'' : Block} (first : Replayed d b b') (second : Replayed d b' b'') : Replayed d b b'' := by
  obtain ⟨ops, rfl⟩ := first
  obtain ⟨ops', rfl⟩ := second
  exact ⟨ops ++ ops', by rw [Block.replay, Block.replay, Block.replay, List.foldl_append]⟩

theorem Replayed.access (d : Disk) (b : Block) (op : BlockOp) : Replayed d b (op.apply d b) := ⟨[op], rfl⟩

/-- Only the overlay is another. -/
theorem Replayed.eq (replayed : Replayed d b b') : ∃ vars, b' = { b with vars } := by
  obtain ⟨ops, rfl⟩ := replayed
  exact replay_eq b d ops

theorem Replayed.isOpen (replayed : Replayed d b b') (isOpen : b.Open) : b'.Open := by
  obtain ⟨vars, rfl⟩ := replayed.eq
  exact isOpen

theorem lookup_replayed (d : Disk) (b : Block) (key : Bytes) : Replayed d b (b.lookup d key).1 :=
  .access d b (.lookup key)

theorem update_replayed (d : Disk) (b : Block) (key value : Bytes) : Replayed d b (b.update key value) :=
  .access d b (.update key value)

/-- What the application does. -/
theorem Script.run_replayed {script : Script} {accepted : Bool} (ran : script.run d b = some (b', accepted)) :
    Replayed d b b' := by
  induction script generalizing b with
  | done verdict =>
    cases ran
    exact .refl d _
  | lookup key next ih =>
    rw [Script.run] at ran
    have first := lookup_replayed d b key
    generalize b.lookup d key = result at first ran
    obtain ⟨b₁, reply⟩ := result
    cases reply with
    | panic => cases ran
    | value v => exact first.trans (ih _ ran)
    | error e => exact first.trans (ih _ ran)
  | update key value next ih => exact (update_replayed d b key value).trans (ih ran)
  | delete key next ih => exact (Replayed.access d b (.delete key)).trans (ih ran)

/-! What the trustee does. -/

theorem credit_replayed {account : Bytes} {delta : UInt64} (credited : credit d b account delta = some b') :
    Replayed d b b' := by
  unfold credit at credited
  have first := lookup_replayed d b account
  generalize b.lookup d account = result at first credited
  obtain ⟨b₁, reply⟩ := result
  cases reply with
  | panic => cases credited
  | value bytes =>
    cases credited
    exact first.trans (update_replayed d b₁ account _)
  | error e =>
    cases credited
    exact first.trans (update_replayed d b₁ account _)

theorem Award.pay_replayed {award : Award} {paid : Bool} (ended : award.pay d b = some (b', paid)) : Replayed d b b' := by
  unfold Award.pay at ended
  split at ended
  · obtain ⟨b₁, credited, eq⟩ := Option.map_eq_some_iff.mp ended
    cases eq
    exact credit_replayed credited
  · cases ended
    exact .refl d b

theorem payUncles_replayed {ops : List Op} {uncles : List Bytes} {paid : Bool}
    (ended : payUncles d ops uncles b = some (b', paid)) : Replayed d b b' := by
  induction uncles generalizing ops b with
  | nil =>
    have eq : b = b' := by
      cases ops <;> cases ended <;> rfl
    rw [eq]
    exact .refl d b'
  | cons uncle uncles ih =>
    cases ops with
    | nil => cases ended
    | cons op ops =>
      rw [payUncles] at ended
      split at ended
      · cases ended
      · rename_i b₁ first
        cases ended
        exact Award.pay_replayed first
      · rename_i b₁ first
        exact (Award.pay_replayed first).trans (ih ended)

variable [Outside]

theorem process_replayed {tx : Transaction} {processed : Bool} (ended : process d b tx = some (b', processed)) :
    Replayed d b b' := by
  unfold process at ended
  split at ended
  · cases ended
    exact .refl d b
  · split at ended
    · cases ended
      exact .refl d b
    · split at ended
      · cases ended
      · split at ended
        · cases ended
        · rename_i b₁ first
          cases ended
          exact Award.pay_replayed first
        · rename_i b₁ first
          exact (Award.pay_replayed first).trans (payUncles_replayed ended)

variable [Sha512]

omit [Outside] in
theorem addTransaction_isOpen (isOpen : b.Open) (d : Disk) (tx : Transaction) : (b.addTransaction d tx).1.Open := by
  obtain ⟨ws, state, ready⟩ := isOpen
  exact ⟨ws, (addTransaction_same b d tx).1.trans state, ready⟩

theorem newMiningRewardTx_tx {t : Trustee} {order nonce : Nat} {now : UInt64} {tx : Transaction}
    (built : t.newMiningRewardTx order nonce now d b = some (b', some tx)) :
    t.rewardTx order nonce now b.uncleMiners = some tx := by
  unfold Trustee.newMiningRewardTx at built
  split at built
  · simp at built
  · rename_i tx' found
    split at built
    · cases built
    · obtain ⟨processed, -, eq⟩ := Option.map_eq_some_iff.mp built
      simp only [Prod.mk.injEq, Option.some.injEq] at eq
      rw [found, eq.2]

/-- The reward is processed on the block that it was added to. -/
theorem newMiningRewardTx_processed {t : Trustee} {order nonce : Nat} {now : UInt64} {tx : Transaction}
    (built : t.newMiningRewardTx order nonce now d b = some (b', some tx)) :
    ∃ credited, TrustNet.process d (b.addTransaction d tx).1 tx = some (b', credited) := by
  unfold Trustee.newMiningRewardTx at built
  split at built
  · simp at built
  · rename_i tx' found
    split at built
    · cases built
    · rename_i b₁ o fine added
      obtain ⟨processed, ended, eq⟩ := Option.map_eq_some_iff.mp built
      simp only [Prod.mk.injEq, Option.some.injEq] at eq
      obtain ⟨rfl, rfl⟩ := eq
      rw [added]
      exact ⟨processed.2, ended⟩

theorem newMiningRewardTx_replayed {t : Trustee} {order nonce : Nat} {now : UInt64} {tx : Transaction}
    (built : t.newMiningRewardTx order nonce now d b = some (b', some tx)) : Replayed d (b.addTransaction d tx).1 b' := by
  obtain ⟨credited, processed⟩ := newMiningRewardTx_processed built
  exact process_replayed processed

theorem verifyMiningRewardTx_replayed {passed : Bool} (ended : verifyMiningRewardTx d b = some (b', passed)) :
    Replayed d b b' := by
  unfold verifyMiningRewardTx at ended
  split at ended
  · cases ended
  · split at ended
    · cases ended
      exact .refl d _
    · split at ended
      · cases ended
        exact .refl d _
      · exact process_replayed ended

end Replay

/-! ## Calls -/

/-- The calls that fill a block. -/
def Action.fills : Action → Bool
  | .update _ _ _ | .delete _ _ | .lookup _ _ | .addTransaction _ _ => true
  | _ => false

section Calls

variable [Sha512] {P : System → Action → Prop} {s s' s'' : System} {i : Nat} {b b' : Block}

/-- Calls that satisfy `P` lead from one state of a node to another. -/
def Leads (P : System → Action → Prop) (s s' : System) : Prop := ∃ actions, System.Along P s actions ∧ s.run actions = s'

theorem Leads.refl (P : System → Action → Prop) (s : System) : Leads P s s := ⟨[], trivial, rfl⟩

theorem Leads.trans (first : Leads P s s') (second : Leads P s' s'') : Leads P s s'' := by
  obtain ⟨actions, along, rfl⟩ := first
  obtain ⟨actions', along', rfl⟩ := second
  exact ⟨actions ++ actions', Transition.along_append.mpr ⟨along, along'⟩, Transition.run_append _ _ _ _⟩

theorem Leads.call {a : Action} (permitted : P s a) : Leads P s (s.next a) := ⟨[a], ⟨permitted, trivial⟩, rfl⟩

theorem Leads.reached {g : Byte64} (leads : Leads P s s') (reached : Reached P g s) : Reached P g s' := by
  obtain ⟨actions, along, rfl⟩ := leads
  exact reached.run along

theorem Leads.replayed (fills : ∀ s a, a.fills = true → P s a) (running : s.engine.isSome) (block : s.blocks i = some b)
    (isOpen : b.Open) (replayed : Replayed s.db b b') : Leads P s (s.setBlock i (some b')) := by
  obtain ⟨c, engine⟩ := Option.isSome_iff_exists.mp running
  obtain ⟨ops, rfl⟩ := replayed
  refine ⟨ops.map (BlockOp.action i), Transition.along_of_forall (fun s a member => ?_) s,
    run_replay engine block isOpen ops⟩
  obtain ⟨op, -, rfl⟩ := List.mem_map.mp member
  cases op <;> exact fills s _ rfl

theorem Leads.addTransaction (fills : ∀ s a, a.fills = true → P s a) (running : s.engine.isSome)
    (block : s.blocks i = some b) (isOpen : b.Open) (tx : Transaction) :
    Leads P s (s.setBlock i (some (b.addTransaction s.db tx).1)) := by
  obtain ⟨c, engine⟩ := Option.isSome_iff_exists.mp running
  have fine := addTransaction_ne_panic isOpen s.db tx
  have next : s.next (.addTransaction i tx) = s.setBlock i (some (b.addTransaction s.db tx).1) := by
    simp only [System.next, System.step, System.onBlock, engine, block]
    generalize b.addTransaction s.db tx = result at fine
    obtain ⟨b₁, outcome⟩ := result
    cases outcome with
    | ok => rfl
    | error e => rfl
    | panic => exact absurd rfl fine
  rw [← next]
  exact .call (fills s _ rfl)

omit [Sha512] in
theorem setBlock_setBlock (s : System) (i : Nat) (b b' : Option Block) : (s.setBlock i b).setBlock i b' = s.setBlock i b' := by
  simp [System.setBlock]

omit [Sha512] in
theorem onBlock_cases (s : System) (j : Nat) (call : BlockChainConsensus → Block → System × Option Outcome) :
    s.onBlock j call = (s, none) ∨ ∃ c b, s.onBlock j call = call c b := by
  unfold System.onBlock
  split
  · exact Or.inr ⟨_, _, rfl⟩
  · exact Or.inl rfl

omit [Sha512] in
theorem setBlock_other {j : Nat} (s : System) (b : Option Block) (other : some j ≠ some i) :
    (s.setBlock j b).blocks i = s.blocks i := by
  have ne : i ≠ j := fun eq => other (by rw [eq])
  exact Function.update_of_ne ne b s.blocks

omit [Sha512] in
theorem finish_other {j : Nat} {d : Disk} {o : Outcome} (other : some j ≠ some i)
    (fine : (s.finish j d b o).2 ≠ some .panic) : (s.finish j d b o).1.blocks i = s.blocks i := by
  cases o with
  | ok => exact setBlock_other _ _ other
  | error e => exact setBlock_other _ _ other
  | panic => exact absurd rfl fine

omit [Sha512] in
theorem submitted_other {j : Nat} {c : BlockChainConsensus} {d : Disk} {o : Outcome} (other : some j ≠ some i)
    (fine : (s.submitted j c d b o).2 ≠ some .panic) : (s.submitted j c d b o).1.blocks i = s.blocks i := by
  cases o with
  | ok => exact setBlock_other _ _ other
  | error e => exact setBlock_other _ _ other
  | panic => exact absurd rfl fine

/-- A call on another block, unless it ends the process. -/
theorem step_blocks_of_ne {a : Action} (other : a.target ≠ some i) (fine : (s.step a).2 ≠ some .panic)
    (stays : ∀ genesisTime now minerId, a ≠ .restart genesisTime now minerId) : (s.next a).blocks i = s.blocks i := by
  have onBlock : ∀ {j call}, (s.onBlock j call).2 ≠ some .panic →
      (∀ c b, (call c b).2 ≠ some .panic → (call c b).1.blocks i = s.blocks i) →
      (s.onBlock j call).1.blocks i = s.blocks i := by
    intro j call fine calls
    rcases onBlock_cases s j call with eq | ⟨c, b, eq⟩
    · rw [eq]
    · rw [eq] at fine ⊢
      exact calls c b fine
  unfold System.next
  cases a with
  | decode j spec =>
    simp only [System.step]
    split
    · rfl
    · split
      · exact setBlock_other _ _ other
      · rfl
  | candidate j now =>
    simp only [System.step]
    split
    · rfl
    · exact setBlock_other _ _ other
  | update j key value => exact onBlock fine fun c b fine => finish_other other fine
  | delete j key => exact onBlock fine fun c b fine => finish_other other fine
  | lookup j key =>
    refine onBlock fine fun c b fine => ?_
    generalize b.lookup s.db key = result at fine ⊢
    obtain ⟨b₁, reply⟩ := result
    cases reply with
    | value v => exact finish_other other fine
    | error e => exact finish_other other fine
    | panic => exact finish_other other fine
  | addTransaction j tx => exact onBlock fine fun c b fine => finish_other other fine
  | checkPoW j apprvr order tries =>
    refine onBlock fine fun c b fine => ?_
    by_cases visits : order.Perm b.vars.entries
    · rw [if_pos visits] at fine ⊢
      exact finish_other other fine
    · rw [if_neg visits]
  | accept j order tries =>
    refine onBlock fine fun c b fine => ?_
    by_cases guard : b.isNetworkBlock ∧ order.Perm b.vars.entries
    · rw [if_pos guard] at fine ⊢
      exact submitted_other other fine
    · rw [if_neg guard]
  | mine j apprvr order tries =>
    refine onBlock fine fun c b fine => ?_
    by_cases guard : b.isNetworkBlock = false ∧ order.Perm b.vars.entries
    · rw [if_pos guard] at fine ⊢
      exact submitted_other other fine
    · rw [if_neg guard]
  | block h =>
    simp only [System.step]
    split
    · rfl
    · split
      · rfl
      · rfl
  | bestBlock =>
    simp only [System.step]
    split
    · rfl
    · rfl
  | restart genesisTime now minerId => exact absurd rfl (stays genesisTime now minerId)

/-- A node with a block in hand has an engine. -/
theorem Reached.running {g : Byte64} (reached : Reached P g s) (block : s.blocks i = some b) : s.engine.isSome := by
  have inv := (reached.invariant (fun s => ∀ i b, s.blocks i = some b → s.engine.isSome)
    (fun genesisTime now minerId started _ i b _ => started) (fun s a ready inv _ i b found => ?_)).2
  · exact inv i b block
  · cases engine : s.engine with
    | none =>
      -- without an engine there is no call but a start
      cases a with
      | restart genesisTime now minerId => simp [System.next, System.step, System.restart] at found
      | _ =>
        simp only [System.next, System.step, System.onBlock, engine] at found
        have running := inv i b found
        rw [engine] at running
        cases running
    | some c =>
      have result := step_result ready a
      unfold System.next at found ⊢
      generalize s.step a = ends at result found
      obtain ⟨s', o⟩ := ends
      cases result with
      | quiet _ _ _ same =>
        rw [same, engine]
        rfl
      | added j c c' b child ws₀ ws order parent d₁ d' outcome =>
        cases outcome with
        | ok => rfl
        | error e => rfl
        | panic => cases found
      | stopped => cases found
      | restarted => rfl

end Calls

/-! ## Runs -/

section Runs

variable [Sha512] [Outside] {cfg : Config} {P : System → Action → Prop} {g : Byte64} {p p' : Platform} {e : Event}

/-- The call of the engine that the event makes satisfies `P`. -/
def Config.Permits (cfg : Config) (P : System → Action → Prop) (p : Platform) (e : Event) : Prop :=
  ∀ a ∈ cfg.call e, P p.sys a

/-- **An event is a sequence of calls.** -/
theorem Happens.leads {R : System → Action → Prop} (fills : ∀ s a, a.fills = true → P s a) (reached : Reached R g p.sys)
    (permitted : cfg.Permits P p e) (happens : Happens cfg p e p') : Leads P p.sys p'.sys := by
  have replays : ∀ {k b b'}, p.sys.blocks k = some b → Replayed p.sys.db b b' →
      Leads P p.sys (p.sys.setBlock k (some b')) := fun block replayed =>
    .replayed fills (reached.running block) block (reached.ready.blocks _ _ block) replayed
  cases happens with
  | opened | mined | failed | received | refused | checked | uncheckable | accepted | announced =>
    exact .call (permitted _ rfl)
  | read _ a call =>
    refine .call (permitted a ?_)
    rcases call with ⟨rfl, rfl⟩ | ⟨h, rfl, rfl⟩
    · rfl
    · rfl
  | restarted => exact .call (permitted _ rfl)
  | panicked _ sys panics =>
    cases panics with
    | candidate e k now call => exact .call (permitted _ call)
    | engine e a call => exact .call (permitted _ call)
    | _ => exact .refl P _
  | rewarded k order nonce now q tx reward b b₁ thread phase block built fine =>
    have isOpen := reached.ready.blocks k b block
    have running := reached.running block
    have replayed := newMiningRewardTx_replayed built
    have isOpen₁ := addTransaction_isOpen isOpen p.sys.db reward
    have first : Leads P p.sys _ := .addTransaction fills running block isOpen reward
    have second := Leads.replayed (i := k) (s := p.sys.setBlock k (some (b.addTransaction p.sys.db reward).1)) fills running
      (by simp [System.setBlock]) isOpen₁ replayed
    have third := Leads.addTransaction (i := k) (s := p.sys.setBlock k (some b₁)) fills running
      (by simp [System.setBlock]) (replayed.isOpen isOpen₁) reward
    rw [setBlock_setBlock] at second third
    exact (first.trans second).trans third
  | approved k q tx b b₁ thread phase block processed => exact replays block (Script.run_replayed processed)
  | rejected k q tx b b₁ thread phase block processed => exact replays block (Script.run_replayed processed)
  | verified k b b₁ thread block several passed => exact replays block (verifyMiningRewardTx_replayed passed)
  | replayed k tx rest b b₁ thread block processed => exact replays block (Script.run_replayed processed)
  | added k q tx b thread phase block fine =>
    exact .addTransaction fills (reached.running block) block (reached.ready.blocks k b block) tx
  | _ => exact .refl P _

/-- The goroutines that an event is about. -/
def Event.threads : Event → List Nat
  | .submit _ | .block _ | .bestBlock | .restart _ => []
  | .start i | .running i | .suspend i | .suspended i => [i]
  | .launch i k | .shutdown i k => [i, k]
  | .take k | .candidate k _ | .reward k _ _ _ | .process k | .add k | .expire k | .mine k _ _ | .receive k _ | .verify k
  | .replay k | .check k _ _ | .accept k _ _ | .announce k _ => [k]

def Event.restarts : Event → Bool
  | .restart _ => true
  | _ => false

/-- The process goes on: it does not panic, and is not started again. -/
def Config.GoesOn (cfg : Config) (p : Platform) (e : Event) : Prop :=
  (Platform.step cfg p e).alive = true ∧ e.restarts = false

instance (cfg : Config) (p : Platform) (e : Event) : Decidable (cfg.GoesOn p e) := inferInstanceAs (Decidable (_ ∧ _))

instance (cfg : Config) (p : Platform) (e : Event) (P : System → Action → Prop) [∀ s a, Decidable (P s a)] :
    Decidable (cfg.Permits P p e) :=
  inferInstanceAs (Decidable (∀ a ∈ cfg.call e, P p.sys a))

/-- An event leaves the other goroutines and their blocks. -/
theorem Happens.frame (happens : Happens cfg p e p') (alive : p'.alive = true) (stays : e.restarts = false) {k : Nat}
    (other : k ∉ e.threads) : p'.threads k = p.threads k ∧ p'.sys.blocks k = p.sys.blocks k := by
  have calls : ∀ {a : Action} {j : Nat}, k ≠ j → a.target = some j → (p.sys.step a).2 ≠ some .panic →
      (p.sys.next a).blocks k = p.sys.blocks k := by
    intro a j ne target fine
    refine step_blocks_of_ne (by rw [target]; exact fun eq => ne (Option.some.inj eq).symm) fine ?_
    rintro _ _ _ rfl
    cases target
  have candidate : ∀ {j : Nat} {now : UInt64}, (p.sys.step (.candidate j now)).2 ≠ some .panic := by
    intro j now
    simp only [System.step]
    split <;> simp
  cases happens with
  | idle => exact ⟨rfl, rfl⟩
  | submitted => exact ⟨rfl, rfl⟩
  | starting i => exact ⟨Platform.setThread_of_ne _ _ (by simpa [Event.threads] using other), rfl⟩
  | launched i j =>
    simp only [Event.threads, List.mem_cons, List.not_mem_nil, or_false, not_or] at other
    exact ⟨(Platform.setThread_of_ne _ _ other.1).trans (Platform.setThread_of_ne _ _ other.2), rfl⟩
  | running i => exact ⟨Platform.setThread_of_ne _ _ (by simpa [Event.threads] using other), rfl⟩
  | suspending i => exact ⟨Platform.setThread_of_ne _ _ (by simpa [Event.threads] using other), rfl⟩
  | shutdown i j =>
    simp only [Event.threads, List.mem_cons, List.not_mem_nil, or_false, not_or] at other
    exact ⟨(Platform.setThread_of_ne _ _ other.1).trans (Platform.setThread_of_ne _ _ other.2), rfl⟩
  | suspended i => exact ⟨Platform.setThread_of_ne _ _ (by simpa [Event.threads] using other), rfl⟩
  | took j => exact ⟨Platform.setThread_of_ne _ _ (by simpa [Event.threads] using other), rfl⟩
  | opened j =>
    have ne : k ≠ j := by simpa [Event.threads] using other
    exact ⟨Platform.setThread_of_ne _ _ ne, calls ne rfl candidate⟩
  | rewarded j => exact Platform.put_of_ne _ _ _ (by simpa [Event.threads] using other)
  | approved j => exact Platform.put_of_ne _ _ _ (by simpa [Event.threads] using other)
  | rejected j => exact Platform.put_of_ne _ _ _ (by simpa [Event.threads] using other)
  | added j => exact Platform.put_of_ne _ _ _ (by simpa [Event.threads] using other)
  | sent j => exact ⟨Platform.setThread_of_ne _ _ (by simpa [Event.threads] using other), rfl⟩
  | dropped j => exact ⟨Platform.setThread_of_ne _ _ (by simpa [Event.threads] using other), rfl⟩
  | mined j order tries q thread phase outcome =>
    have ne : k ≠ j := by simpa [Event.threads] using other
    exact ⟨Platform.setThread_of_ne _ _ ne, calls ne rfl (by simp [outcome])⟩
  | failed j order tries q e thread phase outcome =>
    have ne : k ≠ j := by simpa [Event.threads] using other
    exact ⟨Platform.setThread_of_ne _ _ ne, calls ne rfl (by simp [outcome])⟩
  | received j spec free outcome =>
    have ne : k ≠ j := by simpa [Event.threads] using other
    exact ⟨Platform.setThread_of_ne _ _ ne, calls ne rfl (by simp [outcome])⟩
  | refused j spec free outcome =>
    have ne : k ≠ j := by simpa [Event.threads] using other
    refine ⟨rfl, calls ne rfl ?_⟩
    simp only [System.step]
    split
    · simp
    · split <;> simp
  | verified j => exact Platform.put_of_ne _ _ _ (by simpa [Event.threads] using other)
  | replayed j => exact Platform.put_of_ne _ _ _ (by simpa [Event.threads] using other)
  | checked j order tries thread outcome =>
    have ne : k ≠ j := by simpa [Event.threads] using other
    exact ⟨Platform.setThread_of_ne _ _ ne, calls ne rfl (by simp [outcome])⟩
  | ended _ j stage call =>
    have ne : k ≠ j := by
      rcases call with rfl | rfl <;> simpa [Event.threads] using other
    exact ⟨Platform.setThread_of_ne _ _ ne, rfl⟩
  | uncheckable j order tries e thread outcome =>
    have ne : k ≠ j := by simpa [Event.threads] using other
    exact ⟨Platform.setThread_of_ne _ _ ne, calls ne rfl (by simp [outcome])⟩
  | accepted j order tries o thread outcome fine =>
    have ne : k ≠ j := by simpa [Event.threads] using other
    exact ⟨Platform.setThread_of_ne _ _ ne, calls ne rfl (by simpa [outcome] using fine)⟩
  | announced j now b free made =>
    have ne : k ≠ j := by simpa [Event.threads] using other
    exact ⟨rfl, calls ne rfl candidate⟩
  | read _ a call =>
    refine ⟨rfl, ?_⟩
    rcases call with ⟨rfl, rfl⟩ | ⟨h, rfl, rfl⟩
    · refine step_blocks_of_ne (by simp [Action.target]) ?_ (by simp)
      simp only [System.step]
      split <;> simp
    · refine step_blocks_of_ne (by simp [Action.target]) ?_ (by simp)
      simp only [System.step]
      split
      · simp
      · split <;> simp
  | restarted now => cases stays
  | panicked => cases alive

theorem Platform.run_threads {k : Nat} {events : List Event} (along : Platform.Along cfg p cfg.GoesOn events)
    (other : ∀ e ∈ events, k ∉ e.threads) : (Platform.run cfg p events).threads k = p.threads k := by
  induction events generalizing p with
  | nil => rfl
  | cons e events ih =>
    obtain ⟨⟨alive, stays⟩, along⟩ := along
    have first := (step_happens e).frame alive stays (other e List.mem_cons_self)
    exact (ih along fun e member => other e (List.mem_cons_of_mem _ member)).trans first.1

/-- The producer whose call an event is. -/
def Event.producer : Event → Option Nat
  | .shutdown _ k | .take k | .candidate k _ | .reward k _ _ _ | .process k | .add k | .expire k | .mine k _ _ => some k
  | _ => none

/-- A goroutine that is a producer was one before, or is begun by `Start`; a producer goes on by its own calls. -/
theorem Happens.producer (happens : Happens cfg p e p') (alive : p'.alive = true) (stays : e.restarts = false) {k : Nat}
    {q : Producer} (own : k ∈ e.threads)
    (thread : p.threads k = some (.producer q) ∨ p'.threads k = some (.producer q)) :
    p' = p ∨ p.threads k = none ∧ p'.threads k = some (.producer .fresh) ∧ q = .fresh ∨ e.producer = some k := by
  have one : ∀ {j : Nat}, k ∈ [j] → k = j := List.eq_of_mem_singleton
  cases happens with
  | idle => exact Or.inl rfl
  | submitted => cases own
  | starting i free =>
    obtain rfl := one own
    simp [free] at thread
  | launched i j sender free =>
    by_cases eq : k = i
    · subst eq
      simp [sender] at thread
    · obtain rfl : k = j := by simpa [Event.threads, eq] using own
      simp only [Platform.setThread_of_ne _ _ eq, Platform.setThread_self, free] at thread ⊢
      exact Or.inr (Or.inl ⟨trivial, trivial, by simpa [eq_comm] using thread⟩)
  | running i sender =>
    obtain rfl := one own
    simp [sender] at thread
  | suspending i free =>
    obtain rfl := one own
    simp [free] at thread
  | shutdown i j q' sender =>
    by_cases eq : k = i
    · subst eq
      simp [sender] at thread
    · obtain rfl : k = j := by simpa [Event.threads, eq] using own
      exact Or.inr (Or.inr rfl)
  | suspended i sender =>
    obtain rfl := one own
    simp [sender] at thread
  | took | opened | rewarded | approved | rejected | added | sent | dropped | mined | failed =>
    obtain rfl := one own
    exact Or.inr (Or.inr rfl)
  | received j spec free =>
    obtain rfl := one own
    simp [free] at thread
  | refused j spec free =>
    obtain rfl := one own
    simp [free] at thread
  | verified j b b₁ handler =>
    obtain rfl := one own
    simp [handler] at thread
  | replayed j tx rest b b₁ handler =>
    obtain rfl := one own
    simp [handler] at thread
  | checked j order tries handler =>
    obtain rfl := one own
    simp [handler] at thread
  | ended _ j stage call handler =>
    obtain rfl : k = j := by
      rcases call with rfl | rfl <;> exact one own
    simp [handler] at thread
  | uncheckable j order tries err handler =>
    obtain rfl := one own
    simp [handler] at thread
  | accepted j order tries o handler =>
    obtain rfl := one own
    simp [handler] at thread
  | announced j now b free =>
    obtain rfl := one own
    simp [free] at thread
  | read _ a call =>
    rcases call with ⟨rfl, -⟩ | ⟨h, rfl, -⟩ <;> cases own
  | restarted => cases stays
  | panicked => cases alive

/-- The states that a platform with genesis `g` reaches from its first start by events whose calls satisfy `P`. -/
def Platform.Reached (cfg : Config) (P : System → Action → Prop) (Q : Platform → Event → Prop) (g : Byte64)
    (p : Platform) : Prop :=
  ∃ now events, (Platform.boot cfg now).sys.engine.isSome ∧ genesisHash genesisTimeStamp now = g ∧
    Platform.Along cfg (Platform.boot cfg now) (fun p e => cfg.Permits P p e ∧ Q p e) events ∧
    Platform.run cfg (Platform.boot cfg now) events = p

variable {Q : Platform → Event → Prop}

/-- **Invariant rule of a platform.** -/
theorem Platform.Reached.invariant (Inv : Platform → Prop) (fills : ∀ s a, a.fills = true → P s a)
    (reached : Platform.Reached cfg P Q g p)
    (start : ∀ now, (Platform.boot cfg now).sys.engine.isSome → genesisHash genesisTimeStamp now = g →
      Inv (Platform.boot cfg now))
    (keeps : ∀ p e, TrustNet.Reached P g p.sys → Inv p → cfg.Permits P p e → Q p e → Inv (Platform.step cfg p e)) :
    TrustNet.Reached P g p.sys ∧ Inv p := by
  obtain ⟨now, events, started, genesis, along, rfl⟩ := reached
  refine Transition.Along.invariant (fun p => TrustNet.Reached P g p.sys ∧ Inv p) (fun p e inv step => ?_)
    ⟨⟨_, _, _, [], started, genesis, trivial, rfl⟩, start now started genesis⟩ along
  exact ⟨((step_happens e).leads fills inv.1 step.1).reached inv.1, keeps p e inv.1 inv.2 step.1 step.2⟩

/-- **A run of a platform is a run of its engine.** -/
theorem Platform.Reached.sys (fills : ∀ s a, a.fills = true → P s a) (reached : Platform.Reached cfg P Q g p) :
    TrustNet.Reached P g p.sys :=
  (reached.invariant (fun _ => True) fills (fun _ _ _ => trivial) fun _ _ _ _ _ _ => trivial).1

theorem Platform.Reached.step (reached : Platform.Reached cfg P Q g p) (permitted : cfg.Permits P p e) (fine : Q p e) :
    Platform.Reached cfg P Q g (Platform.step cfg p e) := by
  obtain ⟨now, events, started, genesis, along, rfl⟩ := reached
  exact ⟨now, events ++ [e], started, genesis, Transition.along_append.mpr ⟨along, ⟨permitted, fine⟩, trivial⟩,
    Transition.run_append _ _ _ _⟩

end Runs

end TrustNet
