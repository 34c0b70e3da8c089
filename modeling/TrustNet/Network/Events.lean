import TrustNet.Consensus.Transactions
import TrustNet.Network.Platform

/-!
# What an event does

`Happens` lists the ways in which an event can change a node, with what was the case
before it. The results about runs of the platform are derived from this list.
-/

namespace TrustNet
set_option autoImplicit false

@[simp] theorem Platform.setThread_self (p : Platform) (k : Nat) (t : Option Thread) : (p.setThread k t).threads k = t := by
  simp [Platform.setThread]

theorem Platform.setThread_of_ne {k j : Nat} (p : Platform) (t : Option Thread) (ne : k ≠ j) :
    (p.setThread j t).threads k = p.threads k := by
  simp [Platform.setThread, Function.update_of_ne ne]

@[simp] theorem Platform.setThread_sys (p : Platform) (k : Nat) (t : Option Thread) : (p.setThread k t).sys = p.sys := rfl

@[simp] theorem Platform.put_self (p : Platform) (k : Nat) (b : Block) (t : Thread) : (p.put k b t).threads k = some t := by
  simp [Platform.put]

@[simp] theorem Platform.put_block (p : Platform) (k : Nat) (b : Block) (t : Thread) :
    (p.put k b t).sys.blocks k = some b := by
  simp [Platform.put, System.setBlock]

theorem Platform.put_of_ne {k j : Nat} (p : Platform) (b : Block) (t : Thread) (ne : k ≠ j) :
    (p.put j b t).threads k = p.threads k ∧ (p.put j b t).sys.blocks k = p.sys.blocks k := by
  simp [Platform.put, System.setBlock, Function.update_of_ne ne]

section Happens

variable [Sha512] [Outside] (cfg : Config) (p : Platform)

/-- The call of the engine that an event makes, apart from calls that fill a block. -/
def Config.call : Event → Option Action
  | .candidate k now => some (.candidate k now)
  | .announce k now => some (.candidate k now)
  | .mine k order tries => some (.mine k (some cfg.powApprover) order tries)
  | .receive k spec => some (.decode k spec)
  | .check k order tries => some (.checkPoW k cfg.powApprover order tries)
  | .accept k order tries => some (.accept k order tries)
  | .block h => some (.block h)
  | .bestBlock => some .bestBlock
  | .restart now => some (.restart genesisTimeStamp now cfg.trustee.myAddress)
  | _ => none

/-- The ways in which an event can panic, and the engine that is left. -/
inductive Panics : Event → System → Prop where
  | candidate (e : Event) (k : Nat) (now : UInt64) (call : cfg.call e = some (.candidate k now))
      (missing : (p.sys.next (.candidate k now)).blocks k = none) : Panics e (p.sys.next (.candidate k now))
  | reward (k order nonce : Nat) (now : UInt64) (b : Block) (block : p.sys.blocks k = some b)
      (panics : ∀ b₁ reward, cfg.trustee.newMiningRewardTx order nonce now p.sys.db b = some (b₁, some reward) →
        (b₁.addTransaction p.sys.db reward).2 = .panic) : Panics (.reward k order nonce now) p.sys
  | callback (e : Event) (k : Nat) (tx : Transaction) (b : Block) (block : p.sys.blocks k = some b)
      (panics : processTx cfg p.sys.db tx b = none) : Panics e p.sys
  | add (k : Nat) (tx : Transaction) (b : Block) (block : p.sys.blocks k = some b)
      (panics : (b.addTransaction p.sys.db tx).2 = .panic) : Panics (.add k) p.sys
  | verify (k : Nat) (b : Block) (block : p.sys.blocks k = some b) (several : 2 ≤ b.txs.length)
      (panics : verifyMiningRewardTx p.sys.db b = none) : Panics (.verify k) p.sys
  | engine (e : Event) (a : Action) (call : cfg.call e = some a) (panics : (p.sys.step a).2 = some .panic) :
      Panics e (p.sys.next a)

/-- The ways in which an event can change a node. -/
inductive Happens : Event → Platform → Prop where
  | idle (e : Event) : Happens e p
  | submitted (tx : Transaction) (room : p.txQ.length < txQueueSize) :
      Happens (.submit tx) { p with txQ := p.txQ ++ [tx] }
  | starting (i : Nat) (free : p.threads i = none) (still : p.isRunning = false) :
      Happens (.start i) (p.setThread i (some .starting))
  | launched (i k : Nat) (thread : p.threads i = some .starting) (free : p.threads k = none) :
      Happens (.launch i k) ((p.setThread k (some (.producer Producer.fresh))).setThread i (some .started))
  | running (i : Nat) (thread : p.threads i = some .started) :
      Happens (.running i) ({ p with isRunning := true }.setThread i none)
  | suspending (i : Nat) (free : p.threads i = none) (runs : p.isRunning = true) :
      Happens (.suspend i) (p.setThread i (some .suspending))
  | shutdown (i k : Nat) (q : Producer) (sender : p.threads i = some .suspending)
      (thread : p.threads k = some (.producer q)) (phase : q.phase = .selecting) :
      Happens (.shutdown i k) ((p.setThread k none).setThread i (some .suspended))
  | suspended (i : Nat) (thread : p.threads i = some .suspended) :
      Happens (.suspended i) ({ p with isRunning := false }.setThread i none)
  | took (k : Nat) (q : Producer) (tx : Transaction) (txQ : List Transaction) (thread : p.threads k = some (.producer q))
      (phase : q.phase = .selecting) (queue : p.txQ = tx :: txQ) :
      Happens (.take k) ({ p with txQ }.setThread k (some (.producer
        { q with phase := if q.newBlock then .processing tx else .opening tx })))
  | opened (k : Nat) (now : UInt64) (q : Producer) (tx : Transaction) (b : Block)
      (thread : p.threads k = some (.producer q)) (phase : q.phase = .opening tx)
      (made : (p.sys.next (.candidate k now)).blocks k = some b) :
      Happens (.candidate k now) ({ p with sys := p.sys.next (.candidate k now) }.setThread k (some (.producer
        { q with newBlock := true, phase := .rewarding tx })))
  | rewarded (k order nonce : Nat) (now : UInt64) (q : Producer) (tx reward : Transaction) (b b₁ : Block)
      (thread : p.threads k = some (.producer q)) (phase : q.phase = .rewarding tx) (block : p.sys.blocks k = some b)
      (built : cfg.trustee.newMiningRewardTx order nonce now p.sys.db b = some (b₁, some reward))
      (fine : (b₁.addTransaction p.sys.db reward).2 ≠ .panic) :
      Happens (.reward k order nonce now) (p.put k (b₁.addTransaction p.sys.db reward).1
        (.producer { q with phase := .processing tx }))
  | approved (k : Nat) (q : Producer) (tx : Transaction) (b b₁ : Block) (thread : p.threads k = some (.producer q))
      (phase : q.phase = .processing tx) (block : p.sys.blocks k = some b)
      (processed : processTx cfg p.sys.db tx b = some (b₁, true)) :
      Happens (.process k) (p.put k b₁ (.producer { q with phase := .adding tx }))
  | rejected (k : Nat) (q : Producer) (tx : Transaction) (b b₁ : Block) (thread : p.threads k = some (.producer q))
      (phase : q.phase = .processing tx) (block : p.sys.blocks k = some b)
      (processed : processTx cfg p.sys.db tx b = some (b₁, false)) :
      Happens (.process k) ({ p with deadTxs := insert tx.id p.deadTxs }.put k b₁
        (.producer { q with phase := .selecting }))
  | added (k : Nat) (q : Producer) (tx : Transaction) (b : Block) (thread : p.threads k = some (.producer q))
      (phase : q.phase = .adding tx) (block : p.sys.blocks k = some b)
      (fine : (b.addTransaction p.sys.db tx).2 ≠ .panic) :
      Happens (.add k) (p.put k (b.addTransaction p.sys.db tx).1 (.producer
        { q with txCount := q.txCount + 1, phase := if q.txCount + 1 = maxTxCount then .mining else .selecting }))
  | sent (k : Nat) (q : Producer) (b : Block) (thread : p.threads k = some (.producer q)) (phase : q.phase = .selecting)
      (has : q.newBlock = true) (block : p.sys.blocks k = some b) (several : 1 < b.txs.length) :
      Happens (.expire k) (p.setThread k (some (.producer { q with phase := .mining })))
  | dropped (k : Nat) (q : Producer) (thread : p.threads k = some (.producer q)) (phase : q.phase = .selecting)
      (few : q.newBlock = true → ∀ b, p.sys.blocks k = some b → b.txs.length ≤ 1) :
      Happens (.expire k) (p.setThread k (some (.producer Producer.fresh)))
  | mined (k : Nat) (order : List Entry) (tries : Nat) (q : Producer) (thread : p.threads k = some (.producer q))
      (phase : q.phase = .mining)
      (outcome : (p.sys.step (.mine k (some cfg.powApprover) order tries)).2 = some .ok) :
      Happens (.mine k order tries)
        ({ p with sys := p.sys.next (.mine k (some cfg.powApprover) order tries) }.setThread k
          (some (.producer Producer.fresh)))
  | failed (k : Nat) (order : List Entry) (tries : Nat) (q : Producer) (e : Err) (thread : p.threads k = some (.producer q))
      (phase : q.phase = .mining)
      (outcome : (p.sys.step (.mine k (some cfg.powApprover) order tries)).2 = some (.error e)) :
      Happens (.mine k order tries)
        ({ p with
            sys := p.sys.next (.mine k (some cfg.powApprover) order tries)
            deadTxs := Platform.bury p.deadTxs
              (((p.sys.next (.mine k (some cfg.powApprover) order tries)).blocks k).elim [] (·.txs)) }.setThread k
          (some (.producer Producer.fresh)))
  | received (k : Nat) (spec : BlockSpec) (free : p.threads k = none)
      (outcome : (p.sys.step (.decode k spec)).2 = some .ok) :
      Happens (.receive k spec) ({ p with sys := p.sys.next (.decode k spec) }.setThread k (some (.handler .decoded)))
  | refused (k : Nat) (spec : BlockSpec) (free : p.threads k = none)
      (outcome : (p.sys.step (.decode k spec)).2 ≠ some .ok) :
      Happens (.receive k spec) { p with sys := p.sys.next (.decode k spec) }
  | verified (k : Nat) (b b₁ : Block) (thread : p.threads k = some (.handler .decoded)) (block : p.sys.blocks k = some b)
      (several : 2 ≤ b.txs.length) (passed : verifyMiningRewardTx p.sys.db b = some (b₁, true)) :
      Happens (.verify k) (p.put k b₁ (.handler (.verified b₁.txs.tail)))
  | replayed (k : Nat) (tx : Transaction) (rest : List Transaction) (b b₁ : Block)
      (thread : p.threads k = some (.handler (.verified (tx :: rest)))) (block : p.sys.blocks k = some b)
      (processed : processTx cfg p.sys.db tx b = some (b₁, true)) :
      Happens (.replay k) (p.put k b₁ (.handler (.verified rest)))
  | checked (k : Nat) (order : List Entry) (tries : Nat) (thread : p.threads k = some (.handler (.verified [])))
      (outcome : (p.sys.step (.checkPoW k cfg.powApprover order tries)).2 = some .ok) :
      Happens (.check k order tries)
        ({ p with sys := p.sys.next (.checkPoW k cfg.powApprover order tries) }.setThread k (some (.handler .checked)))
  | ended (e : Event) (k : Nat) (stage : Stage) (call : e = .verify k ∨ e = .replay k)
      (thread : p.threads k = some (.handler stage)) : Happens e (p.setThread k none)
  | uncheckable (k : Nat) (order : List Entry) (tries : Nat) (e : Err)
      (thread : p.threads k = some (.handler (.verified [])))
      (outcome : (p.sys.step (.checkPoW k cfg.powApprover order tries)).2 = some (.error e)) :
      Happens (.check k order tries)
        ({ p with sys := p.sys.next (.checkPoW k cfg.powApprover order tries) }.setThread k none)
  | accepted (k : Nat) (order : List Entry) (tries : Nat) (o : Outcome) (thread : p.threads k = some (.handler .checked))
      (outcome : (p.sys.step (.accept k order tries)).2 = some o) (fine : o ≠ .panic) :
      Happens (.accept k order tries) ({ p with sys := p.sys.next (.accept k order tries) }.setThread k none)
  | announced (k : Nat) (now : UInt64) (b : Block) (free : p.threads k = none)
      (made : (p.sys.next (.candidate k now)).blocks k = some b) :
      Happens (.announce k now) { p with sys := p.sys.next (.candidate k now) }
  | read (e : Event) (a : Action) (call : e = .bestBlock ∧ a = .bestBlock ∨ ∃ h, e = .block h ∧ a = .block h) :
      Happens e { p with sys := p.sys.next a }
  | restarted (now : UInt64) :
      Happens (.restart now) (Platform.ofSystem (p.sys.next (.restart genesisTimeStamp now cfg.trustee.myAddress)))
  | panicked (e : Event) (sys : System) (panics : Panics cfg p e sys) : Happens e (Platform.crash sys)

variable {cfg p}

open Platform

theorem happens_onProducer {e : Event} {k : Nat} {call : Producer → Platform}
    (calls : ∀ q, p.threads k = some (.producer q) → Happens cfg p e (call q)) : Happens cfg p e (p.onProducer k call) := by
  unfold onProducer
  split
  · rename_i q thread
    exact calls q thread
  · exact .idle e

theorem happens_onCandidate {e : Event} {k : Nat} {call : Producer → Block → Platform}
    (calls : ∀ q b, p.threads k = some (.producer q) → p.sys.blocks k = some b → Happens cfg p e (call q b)) :
    Happens cfg p e (p.onCandidate k call) := by
  unfold onCandidate
  split
  · rename_i q b thread block
    exact calls q b thread block
  · exact .idle e

theorem happens_onHandler {e : Event} {k : Nat} {call : Stage → Block → Platform}
    (calls : ∀ stage b, p.threads k = some (.handler stage) → p.sys.blocks k = some b → Happens cfg p e (call stage b)) :
    Happens cfg p e (p.onHandler k call) := by
  unfold onHandler
  split
  · rename_i stage b thread block
    exact calls stage b thread block
  · exact .idle e

theorem happens_mine (k : Nat) (order : List Entry) (tries : Nat) :
    Happens cfg p (.mine k order tries) (mine cfg p k order tries) := by
  refine happens_onProducer fun q thread => ?_
  split
  · rename_i phase
    split
    · rename_i sys result
      have eq : p.sys.next (.mine k (some cfg.powApprover) order tries) = sys := congrArg Prod.fst result
      rw [← eq]
      exact .mined k order tries q thread phase (congrArg Prod.snd result)
    · rename_i sys e result
      have eq : p.sys.next (.mine k (some cfg.powApprover) order tries) = sys := congrArg Prod.fst result
      rw [← eq]
      exact .failed k order tries q e thread phase (congrArg Prod.snd result)
    · rename_i sys result
      have eq : p.sys.next (.mine k (some cfg.powApprover) order tries) = sys := congrArg Prod.fst result
      rw [← eq]
      exact .panicked _ _ (.engine _ _ rfl (congrArg Prod.snd result))
    · exact .idle _
  · exact .idle _

theorem happens_receive (k : Nat) (spec : BlockSpec) : Happens cfg p (.receive k spec) (p.receive k spec) := by
  unfold receive
  split
  · exact .idle _
  · rename_i free
    split
    · rename_i sys result
      have eq : p.sys.next (.decode k spec) = sys := congrArg Prod.fst result
      rw [← eq]
      exact .received k spec free (congrArg Prod.snd result)
    · rename_i sys o result other
      have eq : p.sys.next (.decode k spec) = sys := congrArg Prod.fst other
      rw [← eq]
      refine .refused k spec free fun ok => ?_
      rw [other] at ok
      exact result ok

theorem happens_check (k : Nat) (order : List Entry) (tries : Nat) :
    Happens cfg p (.check k order tries) (check cfg p k order tries) := by
  refine happens_onHandler fun stage b thread block => ?_
  split
  · split
    · rename_i sys result
      have eq : p.sys.next (.checkPoW k cfg.powApprover order tries) = sys := congrArg Prod.fst result
      rw [← eq]
      exact .checked k order tries thread (congrArg Prod.snd result)
    · rename_i sys e result
      have eq : p.sys.next (.checkPoW k cfg.powApprover order tries) = sys := congrArg Prod.fst result
      rw [← eq]
      exact .uncheckable k order tries e thread (congrArg Prod.snd result)
    · rename_i sys result
      have eq : p.sys.next (.checkPoW k cfg.powApprover order tries) = sys := congrArg Prod.fst result
      rw [← eq]
      exact .panicked _ _ (.engine _ _ rfl (congrArg Prod.snd result))
    · exact .idle _
  · exact .idle _

theorem happens_accept (k : Nat) (order : List Entry) (tries : Nat) :
    Happens cfg p (.accept k order tries) (p.accept k order tries) := by
  refine happens_onHandler fun stage b thread block => ?_
  split
  · split
    · rename_i sys result
      have eq : p.sys.next (.accept k order tries) = sys := congrArg Prod.fst result
      rw [← eq]
      exact .panicked _ _ (.engine _ _ rfl (congrArg Prod.snd result))
    · rename_i sys o fine result
      have eq : p.sys.next (.accept k order tries) = sys := congrArg Prod.fst result
      rw [← eq]
      exact .accepted k order tries o thread (congrArg Prod.snd result) fine
    · exact .idle _
  · exact .idle _

theorem happens_submit (tx : Transaction) : Happens cfg p (.submit tx) (p.submit tx) := by
  unfold submit
  split
  · rename_i room
    exact .submitted tx room
  · exact .idle _

theorem happens_start (i : Nat) : Happens cfg p (.start i) (p.start i) := by
  unfold start
  split
  · rename_i free
    split
    · exact .idle _
    · rename_i still
      exact .starting i free (by simpa using still)
  · exact .idle _

theorem happens_launch (i k : Nat) : Happens cfg p (.launch i k) (p.launch i k) := by
  unfold launch
  split
  · rename_i thread free
    exact .launched i k thread free
  · exact .idle _

theorem happens_running (i : Nat) : Happens cfg p (.running i) (p.running i) := by
  unfold running
  split
  · rename_i thread
    exact .running i thread
  · exact .idle _

theorem happens_suspend (i : Nat) : Happens cfg p (.suspend i) (p.suspend i) := by
  unfold suspend
  split
  · rename_i free
    split
    · rename_i runs
      exact .suspending i free runs
    · exact .idle _
  · exact .idle _

theorem happens_shutdown (i k : Nat) : Happens cfg p (.shutdown i k) (p.shutdown i k) := by
  unfold shutdown
  split
  · rename_i sender thread
    exact .shutdown i k _ sender thread rfl
  · exact .idle _

theorem happens_suspended (i : Nat) : Happens cfg p (.suspended i) (p.suspended i) := by
  unfold Platform.suspended
  split
  · rename_i thread
    exact .suspended i thread
  · exact .idle _

theorem happens_take (k : Nat) : Happens cfg p (.take k) (next cfg p (.take k)) := by
  refine happens_onProducer fun q thread => ?_
  split
  · rename_i tx txQ phase queue
    exact .took k q tx txQ thread phase queue
  · exact .idle _

theorem happens_candidate (k : Nat) (now : UInt64) :
    Happens cfg p (.candidate k now) (next cfg p (.candidate k now)) := by
  refine happens_onProducer fun q thread => ?_
  split
  · rename_i tx phase
    simp only
    split
    · rename_i missing
      exact .panicked _ _ (.candidate _ k now rfl missing)
    · rename_i b made
      exact .opened k now q tx b thread phase made
  · exact .idle _

theorem happens_reward (k order nonce : Nat) (now : UInt64) :
    Happens cfg p (.reward k order nonce now) (next cfg p (.reward k order nonce now)) := by
  refine happens_onCandidate fun q b thread block => ?_
  split
  · rename_i tx phase
    split
    · rename_i b₁ reward built
      split
      · rename_i b₂ panics
        refine .panicked _ _ (.reward k order nonce now b block fun b' reward' built' => ?_)
        rw [built] at built'
        cases built'
        rw [panics]
      · rename_i b₂ o fine result
        have eq : (b₁.addTransaction p.sys.db reward).1 = b₂ := congrArg Prod.fst result
        rw [← eq]
        refine .rewarded k order nonce now q tx reward b b₁ thread phase block built fun panics => ?_
        rw [result] at panics
        exact fine panics
    · rename_i none'
      exact .panicked _ _ (.reward k order nonce now b block fun b' reward' built => absurd built (none' b' reward'))
  · exact .idle _

theorem happens_process (k : Nat) : Happens cfg p (.process k) (next cfg p (.process k)) := by
  refine happens_onCandidate fun q b thread block => ?_
  split
  · rename_i tx phase
    split
    · rename_i panics
      exact .panicked _ _ (.callback _ k tx b block panics)
    · rename_i b₁ processed
      exact .approved k q tx b b₁ thread phase block processed
    · rename_i b₁ processed
      exact .rejected k q tx b b₁ thread phase block processed
  · exact .idle _

theorem happens_add (k : Nat) : Happens cfg p (.add k) (next cfg p (.add k)) := by
  refine happens_onCandidate fun q b thread block => ?_
  split
  · rename_i tx phase
    split
    · rename_i b₁ panics
      exact .panicked _ _ (.add k tx b block (by rw [panics]))
    · rename_i b₁ o fine result
      have eq : (b.addTransaction p.sys.db tx).1 = b₁ := congrArg Prod.fst result
      rw [← eq]
      refine .added k q tx b thread phase block fun panics => ?_
      rw [result] at panics
      exact fine panics
  · exact .idle _

theorem happens_expire (k : Nat) : Happens cfg p (.expire k) (next cfg p (.expire k)) := by
  refine happens_onProducer fun q thread => ?_
  split
  · rename_i phase
    split
    · rename_i full
      obtain ⟨b, block, several⟩ := (Option.any_eq_true _ _).mp full.2
      exact .sent k q b thread phase full.1 block (by simpa using several)
    · rename_i few
      refine .dropped k q thread phase fun has b block => ?_
      simpa [has, block] using few
  · exact .idle _

theorem happens_verify (k : Nat) : Happens cfg p (.verify k) (next cfg p (.verify k)) := by
  refine happens_onHandler fun stage b thread block => ?_
  split
  · split
    · exact .ended _ k .decoded (Or.inl rfl) thread
    · rename_i several
      split
      · rename_i panics
        exact .panicked _ _ (.verify k b block (by omega) panics)
      · exact .ended _ k .decoded (Or.inl rfl) thread
      · rename_i b₁ passed
        exact .verified k b b₁ thread block (by omega) passed
  · exact .idle _

theorem happens_replay (k : Nat) : Happens cfg p (.replay k) (next cfg p (.replay k)) := by
  refine happens_onHandler fun stage b thread block => ?_
  split
  · rename_i tx rest
    split
    · rename_i panics
      exact .panicked _ _ (.callback _ k tx b block panics)
    · exact .ended _ k _ (Or.inr rfl) thread
    · rename_i b₁ processed
      exact .replayed k tx rest b b₁ thread block processed
  · exact .idle _

theorem happens_announce (k : Nat) (now : UInt64) : Happens cfg p (.announce k now) (p.announce k now) := by
  unfold announce
  split
  · exact .idle _
  · rename_i free
    simp only
    split
    · rename_i missing
      exact .panicked _ _ (.candidate _ k now rfl missing)
    · rename_i b made
      exact .announced k now b free made

/-- **Every event happens in one of the ways listed.** -/
theorem happens (e : Event) : Happens cfg p e (next cfg p e) := by
  cases e with
  | submit tx => exact happens_submit tx
  | start i => exact happens_start i
  | launch i k => exact happens_launch i k
  | running i => exact happens_running i
  | suspend i => exact happens_suspend i
  | shutdown i k => exact happens_shutdown i k
  | suspended i => exact happens_suspended i
  | take k => exact happens_take k
  | candidate k now => exact happens_candidate k now
  | reward k order nonce now => exact happens_reward k order nonce now
  | process k => exact happens_process k
  | add k => exact happens_add k
  | expire k => exact happens_expire k
  | mine k order tries => exact happens_mine k order tries
  | receive k spec => exact happens_receive k spec
  | verify k => exact happens_verify k
  | replay k => exact happens_replay k
  | check k order tries => exact happens_check k order tries
  | accept k order tries => exact happens_accept k order tries
  | announce k now => exact happens_announce k now
  | block h => exact .read _ (.block h) (Or.inr ⟨h, rfl, rfl⟩)
  | bestBlock => exact .read _ .bestBlock (Or.inl ⟨rfl, rfl⟩)
  | restart now => exact .restarted now

theorem step_happens (e : Event) : Happens cfg p e (step cfg p e) := by
  unfold step
  split
  · exact happens e
  · split
    · exact happens _
    · exact .idle _

end Happens

end TrustNet
