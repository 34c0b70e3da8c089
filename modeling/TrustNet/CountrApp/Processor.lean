import TrustNet.Network.Ledger
import TrustNet.Network.Transfer
import TrustNet.Network.Verdict

/-!
# The counter application

A transaction of `countrApp` adds to a counter, subtracts from it, or transfers from one to
another. The processor writes a key only if it accepts the transaction, so a rejected one leaves
nothing in a candidate. The value of a key at a block is then the sum, modulo 2^64, of what the
blocks on its branch add to it, rewards included: counters and accounts are the same keys.
-/

namespace TrustNet.CountrApp
set_option autoImplicit false
open ParentTree (PathTo)

/-! ## The processor -/

/-- `testTx`. -/
structure TestTx where
  op : Bytes
  source : Bytes
  target : Bytes
  delta : Int64

/-- `lookup`: the value of the key, or 0 with an error. -/
def lookup (key : Bytes) (next : Int64 → Script) : Script :=
  .lookup key fun
    | .value val => next (bytesToUint64 val).toInt64
    | _ => next 0

/-- `Update`, whose result is the verdict. -/
def store (key : Bytes) (currVal : Int64) : Script := .update key (uint64Bytes currVal.toUInt64) (.done true)

/-- `Debit`; a low balance rejects the transaction. -/
def debitThen (account : Bytes) (delta : UInt64) (next : Script) : Script :=
  .lookup account fun reply =>
    let currVal := bytesToUint64 (reply.found.getD [])
    if currVal < delta then .done false else .update account (uint64Bytes (currVal - delta)) next

/-- `Credit`. -/
def creditThen (account : Bytes) (delta : UInt64) (next : Script) : Script :=
  .lookup account fun reply => .update account (uint64Bytes (bytesToUint64 (reply.found.getD []) + delta)) next

/-- The case `xfer`. -/
def transfer (source target : Bytes) (amount : UInt64) : Script :=
  debitThen source amount (creditThen target amount (.done true))

/-- The `switch` of `txProcessor`. -/
def TestTx.script (opCode : TestTx) : Script :=
  if opCode.op = ascii "incr" then lookup opCode.target fun val => store opCode.target (val + opCode.delta)
  else if opCode.op = ascii "decr" then lookup opCode.target fun val => store opCode.target (val - opCode.delta)
  else if opCode.op = ascii "xfer" then transfer opCode.source opCode.target opCode.delta.toUInt64
  else .done false

section Payloads

variable (deserialize : Bytes → Option TestTx)

/-- `txProcessor`, where `deserialize` decodes the payload. -/
def txProcessor (tx : Transaction) : Script :=
  match deserialize tx.payload with
  | none => .done false
  | some opCode => opCode.script

/-! ## What it adds -/

/-- What the operation adds to keys, if it is accepted. -/
def TestTx.credits (opCode : TestTx) : List (Bytes × UInt64) :=
  if opCode.op = ascii "incr" then [(opCode.target, opCode.delta.toUInt64)]
  else if opCode.op = ascii "decr" then [(opCode.target, -opCode.delta.toUInt64)]
  else [(opCode.source, -opCode.delta.toUInt64), (opCode.target, opCode.delta.toUInt64)]

def txCredits (tx : Transaction) : List (Bytes × UInt64) :=
  ((deserialize tx.payload).map TestTx.credits).getD []

/-- What a block adds to keys: the rewards, and what its transactions add after that of the rewards. -/
def blockCredits (minerOf : Byte64 → Bytes) (spec : BlockSpec) : List (Bytes × UInt64) :=
  rewardCredits spec.miner (spec.uncles.map minerOf) ++ spec.txs.tail.flatMap (txCredits deserialize)

/-- What a stored block adds. -/
def creditsAt (d : Disk) (h : Byte64) : List (Bytes × UInt64) :=
  ((getSpec d h).map (blockCredits deserialize (minerAt d))).getD []

end Payloads

/-! ## Scripts -/

section Play

variable {deserialize : Bytes → Option TestTx} {version : Version} {vars : Variables}

theorem payVars_append (version : Version) (vars : Variables) (first rest : List (Bytes × UInt64)) :
    payVars version vars (first ++ rest) = payVars version (payVars version vars first) rest :=
  List.foldl_append

theorem creditTotal_append (first rest : List (Bytes × UInt64)) (key : Bytes) :
    creditTotal (first ++ rest) key = creditTotal first key + creditTotal rest key := by
  unfold creditTotal
  rw [List.filter_append, List.map_append, List.sum_append]

theorem balance_payVars (version : Version) (vars : Variables) (credits : List (Bytes × UInt64)) (key : Bytes) :
    balance (effective version (payVars version vars credits)) key =
      balance (effective version vars) key + creditTotal credits key := by
  induction credits generalizing vars with
  | nil => exact (UInt64.add_zero _).symm
  | cons credit credits ih =>
    have first : payVars version vars (credit :: credits) =
        payVars version (creditVars version vars credit.1 credit.2) credits := rfl
    rw [first, ih, balance_creditVars, creditTotal_cons, UInt64.add_assoc]

/-- What an answer holds is the balance of the key. -/
theorem balance_reply (version : Version) (vars : Variables) (key : Bytes) :
    bytesToUint64 ((reply version vars key).found.getD []) = balance (effective version vars) key := by
  rw [found_reply, balance]

theorem play_lookup (key : Bytes) (next : Int64 → Script) :
    (lookup key next).play version vars =
      (next (balance (effective version vars) key).toInt64).play version (BlockOp.record version vars (.lookup key)) := by
  rw [← balance_reply]
  unfold lookup
  rw [Script.play]
  cases reply version vars key with
  | value val => rfl
  | error e => rfl
  | panic => rfl

theorem play_creditThen (account : Bytes) (delta : UInt64) (next : Script) :
    (creditThen account delta next).play version vars = next.play version (creditVars version vars account delta) := by
  unfold creditThen creditVars
  rw [Script.play, Script.play, balance_reply]

/-- A debit that is covered is a credit of the negative amount. -/
theorem play_debitThen (account : Bytes) (delta : UInt64) (next : Script) :
    (debitThen account delta next).play version vars =
      if balance (effective version vars) account < delta then (BlockOp.record version vars (.lookup account), false)
      else next.play version (creditVars version vars account (-delta)) := by
  unfold debitThen creditVars
  rw [Script.play]
  dsimp only
  rw [balance_reply]
  split
  · rfl
  · rw [Script.play, UInt64.sub_eq_add_neg]

/-- **An operation that is accepted adds its credits.** -/
theorem TestTx.play_accepted (opCode : TestTx) (accepted : (opCode.script.play version vars).2 = true) :
    (opCode.script.play version vars).1 = payVars version vars opCode.credits := by
  unfold TestTx.script at accepted ⊢
  unfold TestTx.credits
  by_cases incr : opCode.op = ascii "incr"
  · rw [if_pos incr, if_pos incr, play_lookup, store, Script.play, Script.play, Int64.toUInt64_add, UInt64.toUInt64_toInt64]
    rfl
  rw [if_neg incr] at accepted ⊢
  rw [if_neg incr]
  by_cases decr : opCode.op = ascii "decr"
  · rw [if_pos decr, if_pos decr, play_lookup, store, Script.play, Script.play, Int64.toUInt64_sub, UInt64.toUInt64_toInt64,
      UInt64.sub_eq_add_neg]
    rfl
  rw [if_neg decr] at accepted ⊢
  rw [if_neg decr]
  by_cases xfer : opCode.op = ascii "xfer"
  · rw [if_pos xfer, transfer, play_debitThen] at accepted ⊢
    by_cases low : balance (effective version vars) opCode.source < opCode.delta.toUInt64
    · rw [if_pos low] at accepted
      cases accepted
    · rw [if_neg low, play_creditThen]
      rfl
  · rw [if_neg xfer] at accepted
    cases accepted

variable (deserialize version vars)

theorem play_accepted (tx : Transaction) (accepted : ((txProcessor deserialize tx).play version vars).2 = true) :
    ((txProcessor deserialize tx).play version vars).1 = payVars version vars (txCredits deserialize tx) := by
  unfold txProcessor at accepted ⊢
  unfold txCredits
  generalize deserialize tx.payload = decoded at accepted ⊢
  cases decoded with
  | none => cases accepted
  | some opCode => exact opCode.play_accepted accepted

theorem plays_accepted (txs : List Transaction)
    (accepted : (plays (txProcessor deserialize) version txs vars).2 = true) :
    (plays (txProcessor deserialize) version txs vars).1 = payVars version vars (txs.flatMap (txCredits deserialize)) := by
  induction txs generalizing vars with
  | nil => rfl
  | cons tx txs ih =>
    have added := play_accepted deserialize version vars tx
    unfold plays at accepted ⊢
    generalize (txProcessor deserialize tx).play version vars = played at accepted added ⊢
    obtain ⟨vars', verdict⟩ := played
    cases verdict with
    | false => cases accepted
    | true =>
      have same : vars' = _ := added rfl
      subst same
      rw [List.flatMap_cons, payVars_append]
      exact ih _ accepted

variable {deserialize version vars}

/-- The step of the machine adds what the block adds. -/
theorem balance_applyBlock {minerOf : Byte64 → Bytes} {spec : BlockSpec} {version' : Version}
    (step : applyBlock (txProcessor deserialize) minerOf version spec = some version') (key : Bytes) :
    balance version' key = balance version key + creditTotal (blockCredits deserialize minerOf spec) key := by
  unfold applyBlock at step
  have added := plays_accepted deserialize version (rewardVars version ∅ spec.miner (spec.uncles.map minerOf))
    spec.txs.tail
  generalize plays (txProcessor deserialize) version spec.txs.tail
    (rewardVars version ∅ spec.miner (spec.uncles.map minerOf)) = played at step added
  obtain ⟨vars', verdict⟩ := played
  cases verdict with
  | false => cases step
  | true =>
    cases step
    have same : vars' = _ := added rfl
    have shown : balance (fun key => (effective version vars' key).bind nonEmpty) key = balance (effective version vars') key :=
      balance_nonEmpty (effective version vars' key)
    rw [shown, same, rewardVars_eq, ← payVars_append, balance_payVars, effective_empty]
    rfl

theorem balance_stepAt {d : Disk} {h : Byte64} {version' : Version}
    (step : stepAt (txProcessor deserialize) d version h = some version') (key : Bytes) :
    balance version' key = balance version key + creditTotal (creditsAt deserialize d h) key := by
  obtain ⟨spec, found, step⟩ := Option.bind_eq_some_iff.mp step
  unfold creditsAt
  rw [balance_applyBlock step key, found, Option.map_some, Option.getD_some]

/-- **A branch adds what its blocks add.** -/
theorem balance_foldlM {d : Disk} {path : List Byte64} {version' : Version}
    (fold : path.foldlM (stepAt (txProcessor deserialize) d) version = some version') (key : Bytes) :
    balance version' key = balance version key + creditTotal (path.flatMap (creditsAt deserialize d)) key := by
  induction path generalizing version with
  | nil =>
    cases fold
    exact (UInt64.add_zero _).symm
  | cons h path ih =>
    rw [List.foldlM_cons] at fold
    obtain ⟨next, step, fold⟩ := Option.bind_eq_some_iff.mp fold
    rw [ih fold, balance_stepAt step, List.flatMap_cons, creditTotal_append, UInt64.add_assoc]

end Play

/-! ## Rejected transactions -/

section Rejected

variable {σ : Type} [Database σ] {db : σ} {b b₁ : Block}

/-- The answer of a `Lookup` depends on the entry of its key alone. -/
theorem lookup_withVars (b : Block) (db : σ) {vars : Variables} {key : Bytes} (same : vars.lookup key = b.vars.lookup key) :
    (({ b with vars } : Block).lookup db key).2 = (b.lookup db key).2 := by
  unfold Block.lookup
  dsimp only
  rw [same]
  cases b.vars.lookup key with
  | some entry => cases entry <;> rfl
  | none =>
    cases b.worldState with
    | none => rfl
    | some ws =>
      dsimp only
      cases ws.lookup db key with
      | ok value => rfl
      | error e => rfl

/-- A `Lookup` leaves the answers of all others. -/
theorem lookup_after_lookup (b : Block) (db : σ) (key other : Bytes) :
    ((b.lookup db key).1.lookup db other).2 = (b.lookup db other).2 := by
  have kept : (b.lookup db key).1 = b ∨ ∃ ws value, b.vars.lookup key = none ∧ b.worldState = some ws ∧
      ws.lookup db key = .ok value ∧ (b.lookup db key).1 = { b with vars := b.vars.insert key (some value) } := by
    unfold Block.lookup
    cases overlay : b.vars.lookup key with
    | some entry => cases entry <;> exact Or.inl rfl
    | none =>
      cases state : b.worldState with
      | none => exact Or.inl rfl
      | some ws =>
        cases read : ws.lookup db key with
        | error e =>
          left
          simp only [read]
        | ok value =>
          right
          exact ⟨ws, value, rfl, rfl, read, by simp only [read]⟩
  rcases kept with same | ⟨ws, value, overlay, state, read, cached⟩
  · rw [same]
  · rw [cached]
    by_cases here : other = key
    · subst here
      simp [Block.lookup, overlay, state, read]
    · exact lookup_withVars b db (AList.lookup_insert_ne here)

/-- The calls of the case `xfer` are `Debit` and `Credit`. -/
theorem transfer_run (db : σ) (b : Block) (source target : Bytes) (delta : Int64) :
    (transfer source target delta.toUInt64).run db b = xfer db b source target delta := by
  have credited : ∀ b : Block, (creditThen target delta.toUInt64 (.done true)).run db b =
      (credit db b target delta.toUInt64).map fun b => (b, true) := by
    intro b
    unfold creditThen credit
    rw [Script.run]
    generalize b.lookup db target = found
    obtain ⟨b', answer⟩ := found
    cases answer <;> rfl
  unfold transfer debitThen xfer debit
  rw [Script.run]
  generalize b.lookup db source = found
  obtain ⟨b', answer⟩ := found
  cases answer with
  | panic => rfl
  | value bytes =>
    by_cases low : bytesToUint64 bytes < delta.toUInt64
    · simp [debitFrom, low, Script.run, Reply.found]
    · simp [debitFrom, low, Script.run, Reply.found, credited]
  | error e =>
    by_cases low : bytesToUint64 [] < delta.toUInt64
    · simp [debitFrom, low, Script.run, Reply.found]
    · simp [debitFrom, low, Script.run, Reply.found, credited]

theorem lookup_store_run {key target : Bytes} {change : Int64 → Int64}
    (rejected : (lookup key fun val => store target (change val)).run db b = some (b₁, false)) : False := by
  unfold lookup at rejected
  rw [Script.run] at rejected
  generalize b.lookup db key = found at rejected
  obtain ⟨b', answer⟩ := found
  cases answer <;> cases rejected

/-- A transfer that is rejected made one `Lookup`. -/
theorem xfer_rejected {source target : Bytes} {delta : Int64}
    (rejected : xfer db b source target delta = some (b₁, false)) : b₁ = (b.lookup db source).1 := by
  unfold xfer debit at rejected
  generalize b.lookup db source = found at rejected ⊢
  obtain ⟨b', answer⟩ := found
  cases answer with
  | panic => cases rejected
  | value | error =>
    dsimp only [debitFrom] at rejected
    split_ifs at rejected
    · cases rejected
      rfl
    · simp at rejected

/-- **A transaction that is rejected leaves every answer.** -/
theorem rejected_answers (deserialize : Bytes → Option TestTx) (tx : Transaction)
    (rejected : (txProcessor deserialize tx).run db b = some (b₁, false)) (key : Bytes) :
    (b₁.lookup db key).2 = (b.lookup db key).2 := by
  unfold txProcessor at rejected
  split at rejected
  · cases rejected
    rfl
  · unfold TestTx.script at rejected
    split at rejected
    · exact (lookup_store_run rejected).elim
    split at rejected
    · exact (lookup_store_run rejected).elim
    split at rejected
    · rw [transfer_run] at rejected
      rw [xfer_rejected rejected, lookup_after_lookup]
    · cases rejected
      rfl

end Rejected

/-! ## Runs -/

section Runs

variable [Sha512] [Outside] {cfg : Config} {g : Byte64} {p : Platform} {deserialize : Bytes → Option TestTx}

/-- The chain does not know the reward of a candidate, and neither the chain nor the block knows a transaction that the
application accepts. -/
def Unseen (cfg : Config) (p : Platform) : Event → Prop
  | .reward k order nonce now => ∀ b tx, p.sys.blocks k = some b →
      cfg.trustee.rewardTx order nonce now b.uncleMiners = some tx → hasTransaction p.sys.db tx.id = none
  | .add k => ∀ q tx b, p.threads k = some (.producer q) → q.phase = .adding tx → p.sys.blocks k = some b →
      hasTransaction p.sys.db tx.id = none ∧ tx.id ∉ b.transactions
  | _ => True

/-- The application leaves nothing of a rejected transaction in a candidate. -/
theorem Unseen.faithful (runs : cfg.txProcessor = txProcessor deserialize) {e : Event} (unseen : Unseen cfg p e) :
    Faithful cfg p e := by
  cases e with
  | reward k order nonce now => exact unseen
  | add k => exact unseen
  | process k =>
    intro q tx b b₁ _ _ _ rejected
    unfold processTx at rejected
    rw [runs] at rejected
    exact rejected_answers deserialize tx rejected
  | _ => trivial

theorem balance_keysAt (works : Outside.Works) (runs : cfg.txProcessor = txProcessor deserialize)
    (reached : Platform.Reached cfg RebaseOk (Unseen cfg) g p) (sound : HashSound (Known p.sys.db)) {h : Byte64}
    {path : List Byte64} (down : PathTo (parentOf p.sys.db g) g h path) (key : Bytes) :
    balance (keysAt p.sys.db h) key = creditTotal (path.flatMap (creditsAt deserialize p.sys.db)) key := by
  have faithful : Platform.Reached cfg RebaseOk (Faithful cfg) g p := by
    obtain ⟨now, events, started, genesis, along, last⟩ := reached
    exact ⟨now, events, started, genesis, along.mono fun p e step => ⟨step.1, step.2.faithful runs⟩, last⟩
  have fold := (faithful.ledgered_faithful works sound).fold (faithful.sys rebaseOk_fills) sound down
  rw [runs] at fold
  rw [balance_foldlM fold key]
  exact UInt64.zero_add _

/-- **The chain of the counter application is an account book.** On every run of a node that adds no transaction twice to
its own blocks, whatever its peers send, the value of every key at every stored block is the sum of what the blocks on its
branch add to it, modulo 2^64: rewards, increments and decrements, and both sides of the transfers. At the tip the blocks
are those of the main list. -/
theorem counters_add_up (works : Outside.Works) (runs : cfg.txProcessor = txProcessor deserialize)
    (reached : Platform.Reached cfg RebaseOk (Unseen cfg) g p) (sound : HashSound (Known p.sys.db)) :
    (∀ h, (getSpec p.sys.db h).isSome → ∃ path, PathTo (parentOf p.sys.db g) g h path ∧
      ∀ key, balance (keysAt p.sys.db h) key = creditTotal (path.flatMap (creditsAt deserialize p.sys.db)) key) ∧
    ∃ tip path, getDagTip p.sys.db = some tip ∧ PathTo (parentOf p.sys.db g) g tip path ∧
      (∀ h, h ∈ path ↔ Flagged p.sys.db h ∧ h ≠ g) ∧
      ∀ key, balance (keysAt p.sys.db tip) key = creditTotal (path.flatMap (creditsAt deserialize p.sys.db)) key := by
  obtain ⟨m, canonical, -⟩ := (reached.sys rebaseOk_fills).onTip
  refine ⟨fun h stored => ?_, ?_⟩
  · obtain ⟨path, down⟩ := branch_of_stored canonical stored
    exact ⟨path, down, balance_keysAt works runs reached sound down⟩
  · obtain ⟨path, down, members⟩ := branch_of_tip canonical
    exact ⟨m, path, canonical.tip, down, members, balance_keysAt works runs reached sound down⟩

end Runs

section Worked

attribute [local instance] Plain.sha512 Plain.outside

namespace Worked

/-- A payload of one byte transfers so much from account 1 to itself. -/
def deserialize : Bytes → Option TestTx
  | [amount] => some ⟨ascii "xfer", ascii "01", ascii "01", Int64.ofNat amount.toNat⟩
  | _ => none

/-- Node 1, with the counter application. -/
def config : Config := { Plain.config 1 with txProcessor := txProcessor deserialize }

/-- The node, after it accepted two blocks and mined a third, with a transfer each. -/
def node : Platform := Platform.run config (Platform.boot config 0) TrustNet.Worked.mining

theorem node_facts : (Platform.boot config 0).sys.engine.isSome ∧
    Platform.Along config (Platform.boot config 0)
      (fun p e => config.Permits RebaseOk p e ∧ TrustNet.Worked.listing config p e = true) TrustNet.Worked.mining ∧
    Plain.Covered node.sys.db ∧
    ((getDagTip node.sys.db).any fun tip => decide (balance (keysAt node.sys.db tip) (ascii "01") = 2200000)) = true := by
  decide +kernel

end Worked

theorem counters_add_up_mined :
    ∃ (tip : Byte64) (path : List Byte64), getDagTip Worked.node.sys.db = some tip ∧
      balance (keysAt Worked.node.sys.db tip) (ascii "01") = 2200000 ∧
      creditTotal (path.flatMap (creditsAt Worked.deserialize Worked.node.sys.db)) (ascii "01") = 2200000 := by
  obtain ⟨started, along, covered, funded⟩ := Worked.node_facts
  have reached : Platform.Reached Worked.config RebaseOk (Unseen Worked.config) (genesisHash genesisTimeStamp 0) Worked.node := by
    refine ⟨0, _, started, rfl, along.mono fun p e step => ⟨step.1, ?_⟩, rfl⟩
    have faithful := TrustNet.Worked.faithful_of_listing Worked.config p e step.2
    cases e with
    | reward k order nonce now => exact faithful
    | add k => exact faithful
    | _ => trivial
  generalize Worked.node = p at funded covered reached ⊢
  have sound : HashSound (Known p.sys.db) := Plain.hashSound_of_covered fun n knows => ⟨_, knows, covered⟩
  obtain ⟨-, tip, path, isTip, -, -, adds⟩ := counters_add_up Plain.outside_works rfl reached sound
  rw [isTip, Option.any_some] at funded
  have value := of_decide_eq_true funded
  exact ⟨tip, path, isTip, value, (adds _).symm.trans value⟩

end Worked

end TrustNet.CountrApp
