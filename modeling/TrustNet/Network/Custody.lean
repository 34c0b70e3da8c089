import TrustNet.Consensus.Dag
import TrustNet.Consensus.Mining
import TrustNet.Network.Plain
import TrustNet.Network.Simulation

/-!
# Where a submitted transaction is

A transaction that `Submit` accepted is in the queue until a producer receives it. The
producer has the application process it: it is then in the candidate, or rejected and
recorded as dead. A candidate that is mined is stored, and the transactions of one that
fails are dead.

The candidate is a local variable of the producer. A producer that receives the shutdown
returns, and with it go the transactions of its candidate. The run at the end loses one.
-/

namespace TrustNet
set_option autoImplicit false

/-- The transaction that the `select` received, until it was decided on. -/
def Phase.tx : Phase → Option Transaction
  | .opening tx | .rewarding tx | .processing tx | .adding tx => some tx
  | .selecting | .mining => none

section Custody

variable [Sha512] [Outside]

/-- Producer `k` fills its candidate with the transaction: it has received it and works on it, or has it in the candidate,
behind the reward. -/
def Filling (p : Platform) (k : Nat) (tx : Transaction) : Prop :=
  ∃ q, p.threads k = some (.producer q) ∧ (q.phase.tx = some tx ∨
    q.newBlock = true ∧ ∃ b, p.sys.blocks k = some b ∧ ∃ tx' ∈ b.txs.tail, tx'.id = tx.id)

/-- The transaction is in the queue, in the candidate that a producer fills, in a stored block or recorded as dead. -/
def Kept (p : Platform) (tx : Transaction) : Prop :=
  tx ∈ p.txQ ∨ (∃ k, Filling p k tx) ∨ (∃ h, tx.id ∈ txIds p.sys.db h) ∨ tx.id ∈ p.deadTxs

/-- The transactions that a producer takes with it when it is shut down. -/
def droppedBy (p : Platform) : Event → List Transaction
  | .shutdown _ k =>
    match p.threads k, p.sys.blocks k with
    | some (.producer q), some b => if q.newBlock then b.txs.tail else []
    | _, _ => []
  | _ => []

/-- No other transaction has the identifier of a reward that the node signs. -/
def rewardIsNew (cfg : Config) (p : Platform) : Event → Bool
  | .reward k order nonce now =>
    match p.sys.blocks k with
    | some b => (cfg.trustee.rewardTx order nonce now b.uncleMiners).all fun tx => (hasTransaction p.sys.db tx.id).isNone
    | none => true
  | .add k =>
    match p.threads k, p.sys.blocks k with
    | some (.producer ⟨_, _, .adding tx⟩), some b => b.txs.head?.all fun reward => decide (reward.id ≠ tx.id)
    | _, _ => true
  | _ => true

/-! ## Candidates -/

/-- A candidate has its reward, and lists the transactions that it knows. -/
structure Listed (b : Block) : Prop where
  rewarded : b.txs ≠ []
  ids : ∀ id ∈ b.transactions, ∃ tx ∈ b.txs, tx.id = id

/-- The candidate is as the producer expects it. -/
def Phase.Fits (newBlock : Bool) (block : Option Block) : Phase → Prop
  | .selecting => newBlock = true → ∃ b, block = some b ∧ Listed b
  | .opening _ => newBlock = false
  | .rewarding _ => newBlock = true ∧ ∃ b, block = some b ∧ b.txs = [] ∧ b.transactions = ∅
  | .processing _ | .adding _ | .mining => newBlock = true ∧ ∃ b, block = some b ∧ Listed b

def ProducersFit (p : Platform) : Prop :=
  ∀ k q, p.threads k = some (.producer q) → q.phase.Fits q.newBlock (p.sys.blocks k)

variable {cfg : Config} {p p' : Platform} {e : Event} {d : Disk} {b b' : Block} {tx : Transaction} {k : Nat}

omit [Outside] in
theorem Listed.replayed (listed : Listed b) (replayed : Replayed d b b') : Listed b' := by
  obtain ⟨vars, rfl⟩ := replayed.eq
  exact ⟨listed.rewarded, listed.ids⟩

omit [Outside] in
theorem Listed.addTransaction (listed : Listed b) (d : Disk) (tx : Transaction) : Listed (b.addTransaction d tx).1 := by
  rcases addTransaction_cases b d tx with same | ⟨-, -, eq⟩
  · rw [same]
    exact listed
  · rw [eq]
    refine ⟨by simp, fun id member => ?_⟩
    rcases Finset.mem_insert.mp member with rfl | member
    · exact ⟨tx, by simp, rfl⟩
    · obtain ⟨tx', listed', eq'⟩ := listed.ids id member
      exact ⟨tx', List.mem_append_left _ listed', eq'⟩

omit [Outside] in
/-- The first transaction of a candidate. -/
theorem listed_first (isOpen : b.Open) (unknown : b.transactions = ∅)
    (new : hasTransaction d tx.id = none) : Listed (b.addTransaction d tx).1 := by
  obtain ⟨ws, state, -⟩ := isOpen
  unfold Block.addTransaction
  rw [if_neg (by simp [state]), if_neg (by simp [new]), if_neg (by simp [unknown])]
  refine ⟨by simp, fun id member => ⟨tx, by simp, ?_⟩⟩
  rw [unknown] at member
  exact (Finset.mem_singleton.mp member).symm

omit [Outside] in
theorem candidate_empty {P : System → Action → Prop} {g : Byte64} {s : System} {now : UInt64} (reached : Reached P g s)
    (made : (s.next (.candidate k now)).blocks k = some b) : b.txs = [] ∧ b.transactions = ∅ := by
  have ready := reached.ready
  cases engine : s.engine with
  | none =>
    simp only [System.next, System.step, engine] at made
    have running := reached.running made
    rw [engine] at running
    cases running
  | some c =>
    obtain ⟨h, tip⟩ := Option.isSome_iff_exists.mp (ready.engine c engine).2
    simp only [System.next, System.step, engine, System.setBlock, Function.update_self] at made
    rcases newCandidateBlock_cases ready.log c now tip with ⟨-, eq⟩ | ⟨d', t, miners, -, eq⟩
    · rw [eq] at made
      cases made
    · rw [eq] at made
      cases made
      exact ⟨rfl, rfl⟩

/-- One event. -/
theorem Happens.producersFit {P : System → Action → Prop} {g : Byte64} (happens : Happens cfg p e p')
    (reached : Reached P g p.sys) (alive : p'.alive = true) (stays : e.restarts = false)
    (new : rewardIsNew cfg p e = true) (fits : ProducersFit p) : ProducersFit p' := by
  intro k q thread
  by_cases own : k ∈ e.threads
  swap
  · obtain ⟨threads, block⟩ := happens.frame alive stays own
    rw [threads] at thread
    rw [block]
    exact fits k q thread
  rcases happens.producer alive stays own (Or.inr thread) with rfl | ⟨-, -, rfl⟩ | call
  · exact fits k q thread
  · exact fun has => by cases has
  cases happens with
  | idle => exact fits k q thread
  | shutdown i j =>
    cases call
    by_cases eq : k = i
    · subst eq
      simp at thread
    · rw [Platform.setThread_of_ne _ _ eq, Platform.setThread_self] at thread
      cases thread
  | took j q₀ tx txQ thread₀ phase queue =>
    cases call
    have before := fits k q₀ thread₀
    rw [Platform.setThread_self] at thread
    cases thread
    rw [phase] at before
    cases has : q₀.newBlock with
    | true => exact ⟨rfl, before has⟩
    | false => rfl
  | opened j now q₀ tx b thread₀ phase made =>
    cases call
    rw [Platform.setThread_self] at thread
    cases thread
    exact ⟨rfl, b, made, candidate_empty reached made⟩
  | rewarded j order nonce now q₀ tx reward b b₁ thread₀ phase block built fine =>
    cases call
    have before := fits k q₀ thread₀
    rw [Platform.put_self] at thread
    cases thread
    rw [phase, block] at before
    obtain ⟨has, b', eq, -, unknown⟩ := before
    cases eq
    have unseen : hasTransaction p.sys.db reward.id = none := by
      simpa [rewardIsNew, block, newMiningRewardTx_tx built] using new
    have first := listed_first (reached.ready.blocks k b block) unknown unseen
    exact ⟨has, _, Platform.put_block _ _ _ _,
      (first.replayed (newMiningRewardTx_replayed built)).addTransaction p.sys.db reward⟩
  | approved j q₀ tx b b₁ thread₀ phase block processed =>
    cases call
    have before := fits k q₀ thread₀
    rw [Platform.put_self] at thread
    cases thread
    rw [phase, block] at before
    obtain ⟨has, b', eq, listed⟩ := before
    cases eq
    exact ⟨has, b₁, Platform.put_block _ _ _ _, listed.replayed (Script.run_replayed processed)⟩
  | rejected j q₀ tx b b₁ thread₀ phase block processed =>
    cases call
    have before := fits k q₀ thread₀
    rw [Platform.put_self] at thread
    cases thread
    rw [phase, block] at before
    obtain ⟨has, b', eq, listed⟩ := before
    cases eq
    exact fun _ => ⟨b₁, Platform.put_block _ _ _ _, listed.replayed (Script.run_replayed processed)⟩
  | added j q₀ tx b thread₀ phase block fine =>
    cases call
    have before := fits k q₀ thread₀
    rw [Platform.put_self] at thread
    cases thread
    rw [phase, block] at before
    obtain ⟨has, b', eq, listed⟩ := before
    cases eq
    have after := listed.addTransaction p.sys.db tx
    simp only [Platform.put_block]
    split
    · exact ⟨has, _, rfl, after⟩
    · exact fun _ => ⟨_, rfl, after⟩
  | sent j q₀ b thread₀ phase has block several =>
    cases call
    have before := fits k q₀ thread₀
    rw [Platform.setThread_self] at thread
    cases thread
    rw [phase] at before
    exact ⟨has, before has⟩
  | dropped j | mined j | failed j =>
    cases call
    rw [Platform.setThread_self] at thread
    cases thread
    intro none'
    cases none'
  | ended _ j stage call' =>
    rcases call' with rfl | rfl <;> cases call
  | read _ a call' =>
    rcases call' with ⟨rfl, -⟩ | ⟨h, rfl, -⟩ <;> cases call
  | panicked => cases alive
  | _ => cases call

end Custody

/-! ## The end of mining -/

section Mined

variable [Sha512] {g : Byte64} {s : System} {k : Nat} {apprvr : Option PowApprover} {order : List Entry} {tries : Nat}
  {b : Block}

/-- Mining was possible, and ended in `submitted`. -/
theorem mine_step {o : Outcome} (outcome : (s.step (.mine k apprvr order tries)).2 = some o) :
    ∃ c b c' d' child o', s.engine = some c ∧ s.blocks k = some b ∧ (b.isNetworkBlock = false ∧ order.Perm b.vars.entries) ∧
      mineCandidateBlock c s.db (System.withApprover b apprvr) order tries = (c', d', child, o') ∧
      s.step (.mine k apprvr order tries) = s.submitted k c' d' child o' := by
  cases engine : s.engine with
  | none => simp [System.step, System.onBlock, engine] at outcome
  | some c =>
    cases block : s.blocks k with
    | none => simp [System.step, System.onBlock, engine, block] at outcome
    | some b =>
      simp only [System.step, System.onBlock, engine, block] at outcome ⊢
      by_cases guard : b.isNetworkBlock = false ∧ order.Perm b.vars.entries
      · rw [if_pos guard]
        exact ⟨c, b, _, _, _, _, rfl, rfl, guard, rfl, rfl⟩
      · rw [if_neg guard] at outcome
        cases outcome

theorem mined_of_ok (outcome : (s.step (.mine k apprvr order tries)).2 = some .ok) :
    ∃ child, s.mined k apprvr order tries = some child := by
  obtain ⟨c, b, c', d', child, o, engine, block, guard, result, step⟩ := mine_step outcome
  rw [step] at outcome
  simp only [System.mined, engine, block]
  rw [if_pos guard, result]
  cases o with
  | ok => exact ⟨child, rfl⟩
  | error e => cases outcome
  | panic => cases outcome

/-- A block that was mined is stored. -/
theorem mined_stored {child : Block} (reached : Reached RebaseOk g s) (block : s.blocks k = some b)
    (mined : s.mined k apprvr order tries = some child) :
    ∃ h, child.hash = some h ∧ getSpec (s.next (.mine k apprvr order tries)).db h = some child.toBlockSpec := by
  obtain ⟨c, engine⟩ := Option.isSome_iff_exists.mp (reached.running block)
  obtain ⟨m, canonical, synced⟩ := reached.onTip
  obtain ⟨-, parent, inputs, d₁, ws₀, ws, c', d', valid, state, hashed, root, result, next⟩ :=
    mined_added reached.ready engine block mined
  obtain ⟨m', addition, -, -⟩ := added_canonical canonical (synced c engine) valid hashed root result (by simp)
  rw [next, submitted_db]
  cases addition with
  | refused _ failed => exact absurd rfl failed
  | side h _ hash fresh extended worse => exact ⟨h, hash, by rw [extended.spec, if_pos rfl]⟩
  | moved _ _ _ hash fresh extended better => exact ⟨m', hash, by rw [extended.spec, if_pos rfl]⟩

theorem mined_txs {child : Block} (ready : SystemReady s) (block : s.blocks k = some b)
    (mined : s.mined k apprvr order tries = some child) : child.txs = b.txs := by
  obtain ⟨c, engine⟩ : ∃ c, s.engine = some c := by
    cases engine : s.engine with
    | none => simp [System.mined, engine] at mined
    | some c => exact ⟨c, rfl⟩
  obtain ⟨-, parent, inputs, d₁, ws₀, ws, c', d', valid, state, hashed, -⟩ := mined_added ready engine block mined
  obtain ⟨state', nonce, wire⟩ := hashed.workedOn.wire
  rw [wire]

/-- A block that failed to mine keeps its transactions. -/
theorem mine_failed {e : Err} (ready : SystemReady s) (block : s.blocks k = some b)
    (outcome : (s.step (.mine k apprvr order tries)).2 = some (.error e)) :
    ∃ b', (s.next (.mine k apprvr order tries)).blocks k = some b' ∧ b'.txs = b.txs := by
  have present : ∃ b', (s.next (.mine k apprvr order tries)).blocks k = some b' := by
    obtain ⟨c, b, c', d', child, o, -, -, -, -, step⟩ := mine_step outcome
    rw [step] at outcome
    unfold System.next
    rw [step]
    cases o with
    | ok => cases outcome
    | error e => exact ⟨child, by simp [System.submitted, System.setBlock]⟩
    | panic => cases outcome
  obtain ⟨b', found⟩ := present
  refine ⟨b', found, ?_⟩
  cases hand_after ready found with
  | decoded spec call => cases call
  | candidate now c d' call => cases call
  | filled b₀ tx block₀ call => cases call
  | worked b₀ block₀ same =>
    rw [block, Option.some.injEq] at block₀
    subst block₀
    obtain ⟨state, nonce, wire⟩ := same.wire
    rw [wire]

end Mined

/-! ## One event -/

section Step

variable [Sha512] [Outside] {cfg : Config} {g : Byte64} {p p' : Platform} {e : Event} {b : Block} {tx : Transaction} {k : Nat}

omit [Outside] in
theorem txIds_kept {d d' : Disk} {id h : Byte64} (kept : SpecsKept d d') (member : id ∈ txIds d h) : id ∈ txIds d' h := by
  obtain ⟨spec, found⟩ := Option.isSome_iff_exists.mp (txIds_stored member)
  simp only [txIds, found] at member
  simp only [txIds, kept h spec found]
  exact member

omit [Outside] in
theorem mem_bury (deadTxs : Finset Byte64) (txs : List Transaction) (id : Byte64) :
    id ∈ Platform.bury deadTxs txs ↔ id ∈ deadTxs ∨ ∃ tx ∈ txs, tx.id = id := by
  induction txs generalizing deadTxs with
  | nil => simp [Platform.bury]
  | cons tx txs ih =>
    rw [Platform.bury, List.foldl_cons]
    refine (ih (insert tx.id deadTxs)).trans ?_
    rw [Finset.mem_insert, List.exists_mem_cons_iff, or_assoc, or_left_comm, eq_comm]

/-- The dead stay recorded. -/
theorem Happens.deadTxs (happens : Happens cfg p e p') (alive : p'.alive = true) (stays : e.restarts = false)
    {id : Byte64} (dead : id ∈ p.deadTxs) : id ∈ p'.deadTxs := by
  cases happens with
  | rejected => exact Finset.mem_insert_of_mem dead
  | failed => exact (mem_bury _ _ _).mpr (Or.inl dead)
  | restarted => cases stays
  | panicked => cases alive
  | _ => exact dead

/-- A queued transaction stays in the queue until a producer receives it. -/
theorem Happens.queued (happens : Happens cfg p e p') (alive : p'.alive = true) (stays : e.restarts = false)
    (queued : tx ∈ p.txQ) : tx ∈ p'.txQ ∨ ∃ k, Filling p' k tx := by
  cases happens with
  | submitted => exact Or.inl (List.mem_append_left _ queued)
  | took k q tx' txQ thread phase queue =>
    rw [queue] at queued
    rcases List.mem_cons.mp queued with rfl | later
    · refine Or.inr ⟨k, _, Platform.setThread_self _ _ _, Or.inl ?_⟩
      cases q.newBlock <;> rfl
    · exact Or.inl later
  | restarted => cases stays
  | panicked => cases alive
  | _ => exact Or.inl queued

omit [Outside] in
/-- What is added to a candidate stays in it. -/
theorem mem_addTransaction_tail {d : Disk} {id : Byte64} (rewarded : b.txs ≠ []) (member : ∃ tx' ∈ b.txs.tail, tx'.id = id)
    (tx : Transaction) : ∃ tx' ∈ (b.addTransaction d tx).1.txs.tail, tx'.id = id := by
  rcases addTransaction_cases b d tx with same | ⟨-, -, eq⟩
  · rw [same]
    exact member
  · obtain ⟨tx', listed, eq'⟩ := member
    rw [eq]
    refine ⟨tx', ?_, eq'⟩
    rw [List.tail_append_of_ne_nil rewarded]
    exact List.mem_append_left _ listed

omit [Outside] in
/-- `AddTransaction` puts the transaction into the candidate, unless it is there or in a stored block. -/
theorem addTransaction_kept {d : Disk} (listed : Listed b) (isOpen : b.Open)
    (index : ∀ {id h}, hasTransaction d id = some h → id ∈ txIds d h) (new : ∀ reward, b.txs.head? = some reward → reward.id ≠ tx.id) :
    (∃ tx' ∈ (b.addTransaction d tx).1.txs.tail, tx'.id = tx.id) ∨ ∃ h, tx.id ∈ txIds d h := by
  obtain ⟨ws, state, -⟩ := isOpen
  unfold Block.addTransaction
  rw [if_neg (by simp [state])]
  split
  · rename_i known
    obtain ⟨h, found⟩ := Option.isSome_iff_exists.mp known
    exact Or.inr ⟨h, index found⟩
  · split
    · rename_i known
      obtain ⟨tx', member, eq⟩ := listed.ids _ known
      cases txs : b.txs with
      | nil => exact absurd txs listed.rewarded
      | cons reward rest =>
        rw [txs] at member
        rcases List.mem_cons.mp member with rfl | member
        · exact absurd eq (new tx' (by rw [txs]; rfl))
        · exact Or.inl ⟨tx', member, eq⟩
    · refine Or.inl ⟨tx, ?_, rfl⟩
      simp only [List.tail_append_of_ne_nil listed.rewarded]
      exact List.mem_append_right _ (List.mem_singleton_self tx)

omit [Sha512] [Outside] in
theorem Replayed.txs {d : Disk} {b' : Block} (replayed : Replayed d b b') : b'.txs = b.txs := by
  obtain ⟨vars, rfl⟩ := replayed.eq
  rfl

/-- A producer with this candidate has the transaction. -/
def Producer.Has (q : Producer) (block : Option Block) (tx : Transaction) : Prop :=
  q.phase.tx = some tx ∨ q.newBlock = true ∧ ∃ b, block = some b ∧ ∃ tx' ∈ b.txs.tail, tx'.id = tx.id

section Calls

variable {q : Producer} {tx' : Transaction} {b₁ : Block} {order : List Entry} {tries : Nat}

omit [Outside] in
theorem kept_of_setThread (has : q.Has (p.sys.blocks k) tx) : Kept (p.setThread k (some (.producer q))) tx :=
  Or.inr (Or.inl ⟨k, q, Platform.setThread_self _ _ _, has⟩)

omit [Outside] in
theorem kept_of_put (has : q.Has (some b) tx) : Kept (p.put k b (.producer q)) tx := by
  refine Or.inr (Or.inl ⟨k, q, Platform.put_self _ _ _ _, ?_⟩)
  rw [Platform.put_block]
  exact has

omit [Outside] in
/-- A producer that is at the `select` has received nothing. -/
theorem Producer.Has.held {block : Option Block} (has : q.Has block tx) (idle : q.phase.tx = none) :
    q.newBlock = true ∧ ∃ b, block = some b ∧ ∃ tx' ∈ b.txs.tail, tx'.id = tx.id := by
  rcases has with received | held
  · rw [idle] at received
    cases received
  · exact held

omit [Outside] in
theorem Producer.Has.not_shutdown {i : Nat} (has : q.Has (p.sys.blocks k) tx) (thread : p.threads k = some (.producer q))
    (phase : q.phase = .selecting) (spares : droppedBy p (.shutdown i k) = []) : False := by
  obtain ⟨own, b, block, tx', member, -⟩ := has.held (by rw [phase]; rfl)
  simp only [droppedBy, thread, block, own, if_true] at spares
  rw [spares] at member
  cases member

omit [Outside] in
theorem Producer.Has.took {block : Option Block} (has : q.Has block tx) (phase : q.phase = .selecting) :
    Producer.Has { q with phase := if q.newBlock then .processing tx' else .opening tx' } block tx :=
  Or.inr (has.held (by rw [phase]; rfl))

omit [Outside] in
theorem Producer.Has.opened {block block' : Option Block} (has : q.Has block tx) (phase : q.phase = .opening tx')
    (fit : q.phase.Fits q.newBlock block) : Producer.Has { q with newBlock := true, phase := .rewarding tx' } block' tx := by
  rw [phase] at fit
  rcases has with received | ⟨own, -⟩
  · rw [phase] at received
    exact Or.inl received
  · rw [show q.newBlock = false from fit] at own
    cases own

omit [Outside] in
theorem Producer.Has.rewarded {block : Option Block} (has : q.Has block tx) (phase : q.phase = .rewarding tx')
    (fit : q.phase.Fits q.newBlock block) : Producer.Has { q with phase := .processing tx' } (some b₁) tx := by
  rw [phase] at fit
  obtain ⟨-, b', block', empty, -⟩ := fit
  rcases has with received | ⟨-, b, block, tx', member, -⟩
  · rw [phase] at received
    exact Or.inl received
  · rw [block', Option.some.injEq] at block
    rw [← block, empty] at member
    cases member

omit [Outside] in
/-- The callback leaves the transactions of the candidate. -/
theorem Producer.Has.replayed {d : Disk} {phase : Phase} (has : q.Has (some b) tx)
    (held : phase.tx = some tx ∨ q.phase.tx ≠ some tx) (replayed : Replayed d b b₁) :
    Producer.Has { q with phase } (some b₁) tx := by
  rcases held with received | other
  · exact Or.inl received
  · obtain ⟨own, b', same, member⟩ := has.resolve_left other
    cases same
    refine Or.inr ⟨own, b₁, rfl, ?_⟩
    rw [replayed.txs]
    exact member

/-- A transaction that is rejected is dead. -/
theorem Producer.Has.rejected (has : q.Has (some b) tx) (phase : q.phase = .processing tx')
    (processed : processTx cfg p.sys.db tx' b = some (b₁, false)) :
    Kept ({ p with deadTxs := insert tx'.id p.deadTxs }.put k b₁ (.producer { q with phase := .selecting })) tx := by
  by_cases own : tx' = tx
  · subst own
    exact Or.inr (Or.inr (Or.inr (Finset.mem_insert_self _ _)))
  · refine kept_of_put (has.replayed (Or.inr ?_) (Script.run_replayed processed))
    rw [phase]
    simpa [Phase.tx] using own

/-- A transaction that is added is in the candidate, or in a stored block. -/
theorem Producer.Has.added (has : q.Has (some b) tx) (reached : Reached RebaseOk g p.sys)
    (thread : p.threads k = some (.producer q)) (phase : q.phase = .adding tx') (block : p.sys.blocks k = some b)
    (fit : q.phase.Fits q.newBlock (some b)) (new : rewardIsNew cfg p (.add k) = true) {q' : Producer}
    (same : q'.newBlock = q.newBlock) : Kept (p.put k (b.addTransaction p.sys.db tx').1 (.producer q')) tx := by
  rw [phase] at fit
  obtain ⟨own, b', eq, listed⟩ := fit
  cases eq
  rcases has with received | ⟨-, b', eq, member⟩
  · rw [phase] at received
    cases received
    obtain ⟨m, canonical, -⟩ := reached.onTip
    have other : ∀ reward, b.txs.head? = some reward → reward.id ≠ tx.id := by
      intro reward first
      obtain ⟨newBlock, txCount, phase'⟩ := q
      simp only at phase
      subst phase
      simpa [rewardIsNew, thread, block, first] using new
    rcases addTransaction_kept listed (reached.ready.blocks k b block) (reached.indexOf canonical).sound other with
      listed' | stored
    · exact kept_of_put (Or.inr ⟨same.trans own, _, rfl, listed'⟩)
    · exact Or.inr (Or.inr (Or.inl stored))
  · cases eq
    exact kept_of_put (Or.inr ⟨same.trans own, _, rfl, mem_addTransaction_tail listed.rewarded member tx'⟩)

omit [Outside] in
theorem Producer.Has.not_dropped {block : Option Block} (has : q.Has block tx) (phase : q.phase = .selecting)
    (few : q.newBlock = true → ∀ b, block = some b → b.txs.length ≤ 1) : False := by
  obtain ⟨own, b, block, tx', member, -⟩ := has.held (by rw [phase]; rfl)
  have short := few own b block
  have some_left := List.length_pos_of_mem member
  rw [List.length_tail] at some_left
  omega

/-- The transactions of a candidate that is mined are stored. -/
theorem Producer.Has.mined (has : q.Has (p.sys.blocks k) tx) (reached : Reached RebaseOk g p.sys)
    (phase : q.phase = .mining) (outcome : (p.sys.step (.mine k (some cfg.powApprover) order tries)).2 = some .ok)
    (t : Option Thread) :
    Kept ({ p with sys := p.sys.next (.mine k (some cfg.powApprover) order tries) }.setThread k t) tx := by
  obtain ⟨-, b, block, tx', member, eq⟩ := has.held (by rw [phase]; rfl)
  obtain ⟨child, mined⟩ := mined_of_ok outcome
  obtain ⟨h, -, stored⟩ := mined_stored reached block mined
  refine Or.inr (Or.inr (Or.inl ⟨h, ?_⟩))
  rw [Platform.setThread_sys, txIds_of_spec stored, ← eq, BlockSpec.txIds, mined_txs reached.ready block mined]
  exact List.mem_map_of_mem (List.mem_of_mem_tail member)

/-- Those of one that fails are dead. -/
theorem Producer.Has.failed {err : Err} (has : q.Has (p.sys.blocks k) tx) (reached : Reached RebaseOk g p.sys)
    (phase : q.phase = .mining)
    (outcome : (p.sys.step (.mine k (some cfg.powApprover) order tries)).2 = some (.error err)) :
    tx.id ∈ Platform.bury p.deadTxs
      (((p.sys.next (.mine k (some cfg.powApprover) order tries)).blocks k).elim [] (·.txs)) := by
  obtain ⟨-, b, block, tx', member, eq⟩ := has.held (by rw [phase]; rfl)
  obtain ⟨b', block', txs⟩ := mine_failed reached.ready block outcome
  refine (mem_bury _ _ _).mpr (Or.inr ⟨tx', ?_, eq⟩)
  rw [block']
  simp only [Option.elim, txs]
  exact List.mem_of_mem_tail member

end Calls

/-- A transaction that a producer fills its candidate with is decided on, or the candidate is. -/
theorem Happens.filling (happens : Happens cfg p e p') (reached : Reached RebaseOk g p.sys) (alive : p'.alive = true)
    (stays : e.restarts = false) (new : rewardIsNew cfg p e = true)
    (spares : droppedBy p e = []) (fits : ProducersFit p) (filling : Filling p k tx) : Kept p' tx := by
  obtain ⟨q, thread, has⟩ := filling
  have fit := fits k q thread
  change q.Has (p.sys.blocks k) tx at has
  by_cases own : k ∈ e.threads
  swap
  · obtain ⟨threads, block⟩ := happens.frame alive stays own
    refine Or.inr (Or.inl ⟨k, q, threads.trans thread, ?_⟩)
    rw [block]
    exact has
  rcases happens.producer alive stays own (Or.inl thread) with rfl | ⟨free, -⟩ | call
  · exact Or.inr (Or.inl ⟨k, q, thread, has⟩)
  · rw [thread] at free
    cases free
  -- the event is a call of the producer itself
  have same : ∀ {q'}, p.threads k = some (.producer q') → q' = q := by
    intro q' thread'
    rw [thread] at thread'
    cases thread'
    rfl
  cases happens with
  | idle => exact Or.inr (Or.inl ⟨k, q, thread, has⟩)
  | shutdown i j q' sender thread' phase =>
    cases call
    obtain rfl := same thread'
    exact (has.not_shutdown thread phase spares).elim
  | took j q' tx' txQ thread' phase queue =>
    cases call
    obtain rfl := same thread'
    exact kept_of_setThread (has.took phase)
  | opened j now q' tx' b thread' phase made =>
    cases call
    obtain rfl := same thread'
    exact kept_of_setThread (has.opened phase fit)
  | rewarded j order nonce now q' tx' reward b b₁ thread' phase block built fine =>
    cases call
    obtain rfl := same thread'
    exact kept_of_put (has.rewarded phase fit)
  | approved j q' tx' b b₁ thread' phase block processed =>
    cases call
    obtain rfl := same thread'
    rw [block] at has
    refine kept_of_put (has.replayed ?_ (Script.run_replayed processed))
    rw [phase]
    exact em _
  | rejected j q' tx' b b₁ thread' phase block processed =>
    cases call
    obtain rfl := same thread'
    rw [block] at has
    exact has.rejected phase processed
  | added j q' tx' b thread' phase block fine =>
    cases call
    obtain rfl := same thread'
    rw [block] at has fit
    exact has.added reached thread phase block fit new rfl
  | sent j q' b thread' phase own' block several =>
    cases call
    obtain rfl := same thread'
    exact kept_of_setThread (Or.inr (has.held (by rw [phase]; rfl)))
  | dropped j q' thread' phase few =>
    cases call
    obtain rfl := same thread'
    exact (has.not_dropped phase few).elim
  | mined j order tries q' thread' phase outcome =>
    cases call
    obtain rfl := same thread'
    exact has.mined reached phase outcome _
  | failed j order tries q' err thread' phase outcome =>
    cases call
    obtain rfl := same thread'
    exact Or.inr (Or.inr (Or.inr (has.failed reached phase outcome)))
  | ended _ j stage call' =>
    rcases call' with rfl | rfl <;> cases call
  | read _ a call' =>
    rcases call' with ⟨rfl, -⟩ | ⟨h, rfl, -⟩ <;> cases call
  | panicked => cases alive
  | _ => cases call

/-- One event keeps a transaction. -/
theorem Happens.kept (happens : Happens cfg p e p') (reached : Reached RebaseOk g p.sys) (alive : p'.alive = true)
    (stays : e.restarts = false) (stored : SpecsKept p.sys.db p'.sys.db) (new : rewardIsNew cfg p e = true)
    (spares : droppedBy p e = []) (fits : ProducersFit p) (kept : Kept p tx) : Kept p' tx := by
  rcases kept with queued | ⟨k, filling⟩ | ⟨h, member⟩ | dead
  · rcases happens.queued alive stays queued with queued | filling
    · exact Or.inl queued
    · exact Or.inr (Or.inl filling)
  · exact happens.filling reached alive stays new spares fits filling
  · exact Or.inr (Or.inr (Or.inl ⟨h, txIds_kept stored member⟩))
  · exact Or.inr (Or.inr (Or.inr (happens.deadTxs alive stays dead)))

end Step

/-! ## Runs -/

section Runs

variable [Sha512] [Outside] {cfg : Config} {g : Byte64} {p : Platform} {tx : Transaction}

/-- The process goes on, a producer that is shut down has no transaction in its candidate, and the rewards are new. -/
def Orderly (cfg : Config) (p : Platform) (e : Event) : Prop :=
  cfg.GoesOn p e ∧ droppedBy p e = [] ∧ rewardIsNew cfg p e = true

instance (cfg : Config) (p : Platform) (e : Event) : Decidable (Orderly cfg p e) := inferInstanceAs (Decidable (_ ∧ _ ∧ _))

omit [Outside] in
theorem rebaseOk_fills (s : System) (a : Action) (fills : a.fills = true) : RebaseOk s a := by
  refine rebaseOk_of_quiet ?_ s
  cases a <;> first | rfl | cases fills

theorem producersFit_reached (reached : Platform.Reached cfg RebaseOk (Orderly cfg) g p) :
    Reached RebaseOk g p.sys ∧ ProducersFit p := by
  refine reached.invariant ProducersFit rebaseOk_fills ?_ ?_
  · intro now _ _ k q thread
    cases thread
  · rintro p e reached fits - ⟨⟨alive, stays⟩, -, new⟩
    exact (step_happens e).producersFit reached alive stays new fits

theorem kept_step {e : Event} (reached : Platform.Reached cfg RebaseOk (Orderly cfg) g p) (permitted : cfg.Permits RebaseOk p e)
    (orderly : Orderly cfg p e) (kept : Kept p tx) : Kept (Platform.step cfg p e) tx := by
  obtain ⟨sys, fits⟩ := producersFit_reached reached
  obtain ⟨⟨alive, stays⟩, spares, new⟩ := orderly
  have happens : Happens cfg p e (Platform.step cfg p e) := step_happens e
  obtain ⟨actions, along, run⟩ := happens.leads rebaseOk_fills sys permitted
  have stored := sys.specsKept along
  rw [run] at stored
  exact happens.kept sys alive stays stored new spares fits kept

/-- **No submitted transaction is lost.** From the time `Submit` queues it, a transaction is in the queue, in a
candidate that a producer fills, in a stored block or recorded as dead. -/
theorem submitted_kept {events : List Event} (reached : Platform.Reached cfg RebaseOk (Orderly cfg) g p)
    (alive : p.alive = true) (room : p.txQ.length < txQueueSize)
    (along : Platform.Along cfg (Platform.step cfg p (.submit tx))
      (fun p e => cfg.Permits RebaseOk p e ∧ Orderly cfg p e) events) :
    Kept (Platform.run cfg (Platform.step cfg p (.submit tx)) events) tx := by
  have queued : Platform.step cfg p (.submit tx) = { p with txQ := p.txQ ++ [tx] } := by
    simp [Platform.step, Platform.next, Platform.submit, alive, room]
  have permitted : cfg.Permits RebaseOk p (.submit tx) := by
    intro a call
    cases call
  have orderly : Orderly cfg p (.submit tx) := by
    refine ⟨⟨?_, rfl⟩, rfl, rfl⟩
    rw [queued]
    exact alive
  have start : Kept (Platform.step cfg p (.submit tx)) tx := by
    rw [queued]
    exact Or.inl (List.mem_append_right _ (List.mem_singleton_self tx))
  refine (Transition.Along.invariant
    (fun p => Platform.Reached cfg RebaseOk (Orderly cfg) g p ∧ Kept p tx) (fun p e inv step => ?_)
    ⟨reached.step permitted orderly, start⟩ along).2
  exact ⟨inv.1.step step.1 step.2, kept_step inv.1 step.1 step.2 inv.2⟩

omit [Outside] in
/-- A node without anything to do, or a block with transactions, has no transaction. -/
theorem not_kept (queue : p.txQ = []) (ended : ∀ k q, p.threads k ≠ some (.producer q))
    (blocks : ∀ b ∈ acceptedBlocks p.sys.db, b.2.txs = []) (dead : p.deadTxs = ∅) : ¬ Kept p tx := by
  rintro (queued | ⟨k, q, thread, -⟩ | ⟨h, stored⟩ | buried)
  · rw [queue] at queued
    cases queued
  · exact ended k q thread
  · obtain ⟨spec, found⟩ := Option.isSome_iff_exists.mp (txIds_stored stored)
    rw [txIds_of_spec found, BlockSpec.txIds, blocks _ (mem_acceptedBlocks found)] at stored
    cases stored
  · rw [dead] at buried
    cases buried

end Runs

section Worked

attribute [local instance] Plain.sha512 Plain.outside

/-- The node with a producer. -/
abbrev Worked.producing : Platform := Platform.run (Plain.config 1) (Platform.boot (Plain.config 1) 0) Plain.startProducer

/-- The producer mines the block with the transaction. -/
def Worked.produce : List Event := Plain.fillBlock ++ [.expire 1, .mine 1 [⟨[48, 49], some (uint64Bytes 1000000)⟩] 1]

theorem submitted_kept_produced :
    (∃ h, (Plain.transfer 1).id ∈ txIds (Platform.run (Plain.config 1)
      (Platform.step (Plain.config 1) Worked.producing (.submit (Plain.transfer 1))) Worked.produce).sys.db h) ∧
    Kept (Platform.run (Plain.config 1) (Platform.step (Plain.config 1) Worked.producing (.submit (Plain.transfer 1)))
      Worked.produce) (Plain.transfer 1) := by
  have run : (Platform.boot (Plain.config 1) 0).sys.engine.isSome ∧
      Platform.Along (Plain.config 1) (Platform.boot (Plain.config 1) 0)
        (fun p e => (Plain.config 1).Permits RebaseOk p e ∧ Orderly (Plain.config 1) p e) Plain.startProducer ∧
      Worked.producing.alive = true ∧ Worked.producing.txQ.length < txQueueSize ∧
      Platform.Along (Plain.config 1) (Platform.step (Plain.config 1) Worked.producing (.submit (Plain.transfer 1)))
        (fun p e => (Plain.config 1).Permits RebaseOk p e ∧ Orderly (Plain.config 1) p e) Worked.produce ∧
      (Plain.transfer 1).id ∈ txIds (Platform.run (Plain.config 1)
        (Platform.step (Plain.config 1) Worked.producing (.submit (Plain.transfer 1))) Worked.produce).sys.db
        (digest Plain.producedDigest) := by decide +kernel
  obtain ⟨started, before, alive, room, along, stored⟩ := run
  have reached : Platform.Reached (Plain.config 1) RebaseOk (Orderly (Plain.config 1)) (genesisHash genesisTimeStamp 0)
      Worked.producing := ⟨0, Plain.startProducer, started, rfl, before, rfl⟩
  exact ⟨⟨_, stored⟩, submitted_kept reached alive room along⟩

/-- A goroutine that is a producer. -/
def Worked.isProducer : Thread → Bool
  | .producer _ => true
  | _ => false

/-- The producer takes the transaction into its candidate, and is shut down. -/
def Worked.interrupt : List Event := Plain.fillBlock ++ [.suspend 0, .shutdown 0 1]

/-- The transaction of the candidate is lost. -/
theorem Worked.shutdown_loses_transaction :
    let cfg := Plain.config 1
    let start := Platform.step cfg Worked.producing (.submit (Plain.transfer 1))
    Platform.Reached cfg RebaseOk (Orderly cfg) (genesisHash genesisTimeStamp 0) Worked.producing ∧
      Worked.producing.alive = true ∧ Worked.producing.txQ.length < txQueueSize ∧
      Platform.Along cfg start (fun p e => cfg.Permits RebaseOk p e ∧ cfg.GoesOn p e ∧ rewardIsNew cfg p e = true)
        Worked.interrupt ∧
      ¬ Kept (Platform.run cfg start Worked.interrupt) (Plain.transfer 1) := by
  intro cfg start
  have run : (Platform.boot cfg 0).sys.engine.isSome ∧
      Platform.Along cfg (Platform.boot cfg 0) (fun p e => cfg.Permits RebaseOk p e ∧ Orderly cfg p e) Plain.startProducer ∧
      Worked.producing.alive = true ∧ Worked.producing.txQ.length < txQueueSize ∧
      Platform.Along cfg start (fun p e => cfg.Permits RebaseOk p e ∧ cfg.GoesOn p e ∧ rewardIsNew cfg p e = true)
        Worked.interrupt ∧
      (∀ e ∈ Plain.startProducer ++ Worked.interrupt, ∀ k ∈ e.threads, k ∈ [0, 1]) := by decide +kernel
  obtain ⟨started, before, alive, room, along, named⟩ := run
  refine ⟨⟨0, Plain.startProducer, started, rfl, before, rfl⟩, alive, room, along, ?_⟩
  have lost : (Platform.run cfg start Worked.interrupt).txQ = [] ∧
      (∀ k ∈ [0, 1], ((Platform.run cfg start Worked.interrupt).threads k).any Worked.isProducer = false) ∧
      (∀ b ∈ acceptedBlocks (Platform.run cfg start Worked.interrupt).sys.db, b.2.txs = []) ∧
      (Platform.run cfg start Worked.interrupt).deadTxs = ∅ := by decide +kernel
  obtain ⟨queue, ended, blocks, dead⟩ := lost
  refine not_kept queue (fun k q thread => ?_) blocks dead
  by_cases own : k ∈ [0, 1]
  · have ended := ended k own
    rw [thread] at ended
    cases ended
  · have untouched := Platform.run_threads (along.mono fun _ _ step => step.2.1) (k := k)
      fun e member hit => own (named e (List.mem_append_right _ member) k hit)
    have free := Platform.run_threads (before.mono fun _ _ step => step.2.1) (k := k)
      fun e member hit => own (named e (List.mem_append_left _ member) k hit)
    rw [untouched] at thread
    exact absurd (free.symm.trans thread) (by simp [Platform.boot, Platform.ofSystem])

end Worked

end TrustNet
