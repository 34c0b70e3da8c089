import TrustNet.Consensus.System
import TrustNet.Network.Trustee

/-!
# The platform (`network/platform.go`)

`Submit` queues transactions. A block producer takes them from the queue, has the
application process them on a candidate, and sends the candidate for mining when it is
full or a timer expires. `Start` and `Suspend` begin and end a producer, and the handlers of
the peers process the blocks that come from the network.

All of these are goroutines on one engine. `Platform` is a node with its goroutines, and an
event is the next call of one of them, so a run is any interleaving. Nothing orders the
checks of `isRunning`: two calls of `Start` can begin two producers. A goroutine has the
block that it works on as the block of its own number. A panic ends the process; what is
left is the database, on which it can be started again. In `TrustNet.Network.Overlap` the
checks of network blocks, which take no lock, also overlap with submissions.
-/

namespace TrustNet
set_option autoImplicit false

/-! ## The application -/

/-- What the application does with a transaction: calls on the view of the block, each of which may depend on the
replies before it, and the verdict. -/
inductive Script where
  | done (accepted : Bool)
  | lookup (key : Bytes) (next : Reply → Script)
  | update (key value : Bytes) (next : Script)
  | delete (key : Bytes) (next : Script)

/-- The callback at work on a block; `none` is a panic. -/
def Script.run {σ : Type} [Database σ] (db : σ) : Script → Block → Option (Block × Bool)
  | .done accepted, block => some (block, accepted)
  | .lookup key next, block =>
    match block.lookup db key with
    | (_, .panic) => none
    | (block, reply) => (next reply).run db block
  | .update key value next, block => next.run db (block.update key value)
  | .delete key next, block => next.run db (block.delete key)

/-- What a node is configured with. -/
structure Config [Outside] where
  trustee : Trustee
  txProcessor : Transaction → Script
  powApprover : PowApprover

/-- `processTx`. -/
def processTx [Outside] {σ : Type} [Database σ] (cfg : Config) (db : σ) (tx : Transaction) (block : Block) :
    Option (Block × Bool) :=
  (cfg.txProcessor tx).run db block

/-! ## Goroutines -/

def txQueueSize : Nat := 10

def maxTxCount : Nat := 10

def genesisTimeStamp : UInt64 := 0x200000

/-- Where `blockProducer` is: in the `select`, at a call for the transaction that it received, or waiting for a block
to be mined. -/
inductive Phase where
  | selecting
  | opening (tx : Transaction)
  | rewarding (tx : Transaction)
  | processing (tx : Transaction)
  | adding (tx : Transaction)
  | mining

/-- The local variables of `blockProducer`; `newBlock` says whether there is one. -/
structure Producer where
  newBlock : Bool
  txCount : Nat
  phase : Phase

/-- A producer without a candidate, in the `select`. -/
def Producer.fresh : Producer := ⟨false, 0, .selecting⟩

/-- Where `processBlock` is. -/
inductive Stage where
  | decoded
  | verified (rest : List Transaction)
  | checked

/-- `Start` and `Suspend` between two of their statements, a block producer, or the handler of a peer. -/
inductive Thread where
  | starting
  | started
  | suspending
  | suspended
  | producer (p : Producer)
  | handler (stage : Stage)

/-- `platformManager`, with its goroutines. -/
structure Platform where
  sys : System
  txQ : List Transaction
  deadTxs : Finset Byte64
  isRunning : Bool
  threads : Nat → Option Thread
  alive : Bool

/-- The next call of a goroutine. -/
inductive Event where
  | submit (tx : Transaction)
  | start (i : Nat)
  | launch (i k : Nat)
  | running (i : Nat)
  | suspend (i : Nat)
  | shutdown (i k : Nat)
  | suspended (i : Nat)
  | take (k : Nat)
  | candidate (k : Nat) (now : UInt64)
  | reward (k order nonce : Nat) (now : UInt64)
  | process (k : Nat)
  | add (k : Nat)
  | expire (k : Nat)
  | mine (k : Nat) (order : List Entry) (tries : Nat)
  | receive (k : Nat) (spec : BlockSpec)
  | verify (k : Nat)
  | replay (k : Nat)
  | check (k : Nat) (order : List Entry) (tries : Nat)
  | accept (k : Nat) (order : List Entry) (tries : Nat)
  | announce (k : Nat) (now : UInt64)
  | block (hash : Byte64)
  | bestBlock
  | restart (now : UInt64)

namespace Platform

/-- Goroutine `k` goes on as `t`, or ends. -/
def setThread (p : Platform) (k : Nat) (t : Option Thread) : Platform := { p with threads := Function.update p.threads k t }

/-- Goroutine `k` worked on its block and goes on as `t`. -/
def put (p : Platform) (k : Nat) (b : Block) (t : Thread) : Platform :=
  { p with sys := p.sys.setBlock k (some b), threads := Function.update p.threads k (some t) }

/-- The process ends in a panic. -/
def crash (sys : System) : Platform := ⟨sys, [], ∅, false, fun _ => none, false⟩

/-- A call of producer `k`. -/
def onProducer (p : Platform) (k : Nat) (call : Producer → Platform) : Platform :=
  match p.threads k with
  | some (.producer q) => call q
  | _ => p

/-- A call of producer `k` on its candidate. -/
def onCandidate (p : Platform) (k : Nat) (call : Producer → Block → Platform) : Platform :=
  match p.threads k, p.sys.blocks k with
  | some (.producer q), some b => call q b
  | _, _ => p

/-- A call of handler `k` on its block. -/
def onHandler (p : Platform) (k : Nat) (call : Stage → Block → Platform) : Platform :=
  match p.threads k, p.sys.blocks k with
  | some (.handler stage), some b => call stage b
  | _, _ => p

/-- `Submit`: it blocks while the queue is full. -/
def submit (p : Platform) (tx : Transaction) : Platform :=
  if p.txQ.length < txQueueSize then { p with txQ := p.txQ ++ [tx] } else p

/-- `Start` looks at `isRunning`. -/
def start (p : Platform) (i : Nat) : Platform :=
  match p.threads i with
  | none => if p.isRunning then p else p.setThread i (some .starting)
  | some _ => p

/-- `go mgr.blockProducer()`, as goroutine `k`. -/
def launch (p : Platform) (i k : Nat) : Platform :=
  match p.threads i, p.threads k with
  | some .starting, none => (p.setThread k (some (.producer Producer.fresh))).setThread i (some .started)
  | _, _ => p

/-- `Start` sets `isRunning`. -/
def running (p : Platform) (i : Nat) : Platform :=
  match p.threads i with
  | some .started => { p with isRunning := true }.setThread i none
  | _ => p

/-- `Suspend` looks at `isRunning`; `syncNode` does the same before it calls it. -/
def suspend (p : Platform) (i : Nat) : Platform :=
  match p.threads i with
  | none => if p.isRunning then p.setThread i (some .suspending) else p
  | some _ => p

/-- The `select` of producer `k` receives from `shutdownBlockProducer`, and the producer returns. -/
def shutdown (p : Platform) (i k : Nat) : Platform :=
  match p.threads i, p.threads k with
  | some .suspending, some (.producer ⟨_, _, .selecting⟩) => (p.setThread k none).setThread i (some .suspended)
  | _, _ => p

/-- `Suspend` resets `isRunning`. -/
def suspended (p : Platform) (i : Nat) : Platform :=
  match p.threads i with
  | some .suspended => { p with isRunning := false }.setThread i none
  | _ => p

/-! ## `blockProducer` -/

section Calls

variable [Sha512] [Outside] (cfg : Config) (p : Platform)

/-- The `select` receives a transaction. -/
def take (p : Platform) (k : Nat) : Platform :=
  p.onProducer k fun q =>
    match q.phase, p.txQ with
    | .selecting, tx :: txQ =>
      { p with txQ }.setThread k (some (.producer { q with phase := if q.newBlock then .processing tx else .opening tx }))
    | _, _ => p

/-- `NewCandidateBlock`; without a candidate the next statement panics. -/
def candidate (p : Platform) (k : Nat) (now : UInt64) : Platform :=
  p.onProducer k fun q =>
    match q.phase with
    | .opening tx =>
      let sys := p.sys.next (.candidate k now)
      match sys.blocks k with
      | none => crash sys
      | some _ => { p with sys }.setThread k (some (.producer { q with newBlock := true, phase := .rewarding tx }))
    | _ => p

/-- `AddTransaction` of the transaction that `NewMiningRewardTx` returns, and has added before. -/
def reward (k order nonce : Nat) (now : UInt64) : Platform :=
  p.onCandidate k fun q b =>
    match q.phase with
    | .rewarding tx =>
      match cfg.trustee.newMiningRewardTx order nonce now p.sys.db b with
      | some (b, some reward) =>
        match b.addTransaction p.sys.db reward with
        | (_, .panic) => crash p.sys
        | (b, _) => p.put k b (.producer { q with phase := .processing tx })
      | _ => crash p.sys
    | _ => p

/-- The application processes the transaction; one that it rejects is dead. -/
def process (k : Nat) : Platform :=
  p.onCandidate k fun q b =>
    match q.phase with
    | .processing tx =>
      match processTx cfg p.sys.db tx b with
      | none => crash p.sys
      | some (b, true) => p.put k b (.producer { q with phase := .adding tx })
      | some (b, false) =>
        { p with deadTxs := insert tx.id p.deadTxs }.put k b (.producer { q with phase := .selecting })
    | _ => p

/-- `AddTransaction`, whose error is ignored; a full candidate is sent for mining. -/
def add (k : Nat) : Platform :=
  p.onCandidate k fun q b =>
    match q.phase with
    | .adding tx =>
      match b.addTransaction p.sys.db tx with
      | (_, .panic) => crash p.sys
      | (b, _) =>
        let txCount := q.txCount + 1
        p.put k b (.producer { q with txCount, phase := if txCount = maxTxCount then .mining else .selecting })
    | _ => p

/-- The timer expires: the candidate is sent for mining if it has more than the reward, and else dropped. -/
def expire (p : Platform) (k : Nat) : Platform :=
  p.onProducer k fun q =>
    match q.phase with
    | .selecting =>
      if q.newBlock ∧ (p.sys.blocks k).any (1 < ·.txs.length) then
        p.setThread k (some (.producer { q with phase := .mining }))
      else p.setThread k (some (.producer Producer.fresh))
    | _ => p

/-- All transactions of a block that failed to mine are dead. -/
def bury (deadTxs : Finset Byte64) (txs : List Transaction) : Finset Byte64 :=
  txs.foldl (fun deadTxs tx => insert tx.id deadTxs) deadTxs

/-- `mineCandidateBlock` comes to its end. -/
def mine (k : Nat) (order : List Entry) (tries : Nat) : Platform :=
  p.onProducer k fun q =>
    match q.phase with
    | .mining =>
      match p.sys.step (.mine k (some cfg.powApprover) order tries) with
      | (sys, some .ok) => { p with sys }.setThread k (some (.producer Producer.fresh))
      | (sys, some (.error _)) =>
        { p with sys, deadTxs := bury p.deadTxs ((sys.blocks k).elim [] (·.txs)) }.setThread k
          (some (.producer Producer.fresh))
      | (sys, some .panic) => crash sys
      | (_, none) => p
    | _ => p

/-! ## `processBlock` -/

/-- `DecodeNetworkBlockSpec`, after which the handler calls `processBlock`. -/
def receive (p : Platform) (k : Nat) (spec : BlockSpec) : Platform :=
  match p.threads k with
  | some _ => p
  | none =>
    match p.sys.step (.decode k spec) with
    | (sys, some .ok) => { p with sys }.setThread k (some (.handler .decoded))
    | (sys, _) => { p with sys }

/-- The checks for a greedy block and of the mining reward. -/
def verify (p : Platform) (k : Nat) : Platform :=
  p.onHandler k fun stage b =>
    match stage with
    | .decoded =>
      if b.txs.length < 2 then p.setThread k none
      else
        match verifyMiningRewardTx p.sys.db b with
        | none => crash p.sys
        | some (_, false) => p.setThread k none
        | some (b, true) => p.put k b (.handler (.verified b.txs.tail))
    | _ => p

/-- The application processes the next transaction of the block. -/
def replay (k : Nat) : Platform :=
  p.onHandler k fun stage b =>
    match stage with
    | .verified (tx :: rest) =>
      match processTx cfg p.sys.db tx b with
      | none => crash p.sys
      | some (_, false) => p.setThread k none
      | some (b, true) => p.put k b (.handler (.verified rest))
    | _ => p

/-- `CheckNetworkBlockPoW`. -/
def check (k : Nat) (order : List Entry) (tries : Nat) : Platform :=
  p.onHandler k fun stage _ =>
    match stage with
    | .verified [] =>
      match p.sys.step (.checkPoW k cfg.powApprover order tries) with
      | (sys, some .ok) => { p with sys }.setThread k (some (.handler .checked))
      | (sys, some (.error _)) => { p with sys }.setThread k none
      | (sys, some .panic) => crash sys
      | (_, none) => p
    | _ => p

/-- `AcceptNetworkBlock`. -/
def accept (p : Platform) (k : Nat) (order : List Entry) (tries : Nat) : Platform :=
  p.onHandler k fun stage _ =>
    match stage with
    | .checked =>
      match p.sys.step (.accept k order tries) with
      | (sys, some .panic) => crash sys
      | (sys, some _) => { p with sys }.setThread k none
      | (_, none) => p
    | _ => p

/-- After a sync, `syncNode` takes the uncles to announce from a candidate of its own. -/
def announce (p : Platform) (k : Nat) (now : UInt64) : Platform :=
  match p.threads k with
  | some _ => p
  | none =>
    let sys := p.sys.next (.candidate k now)
    match sys.blocks k with
    | none => crash sys
    | some _ => { p with sys }

/-! ## Runs -/

/-- `NewPlatformManager` on the database of the node. -/
def ofSystem (sys : System) : Platform := ⟨sys, [], ∅, false, fun _ => none, true⟩

/-- One event in a process that runs. -/
def next : Event → Platform
  | .submit tx => p.submit tx
  | .start i => p.start i
  | .launch i k => p.launch i k
  | .running i => p.running i
  | .suspend i => p.suspend i
  | .shutdown i k => p.shutdown i k
  | .suspended i => p.suspended i
  | .take k => p.take k
  | .candidate k now => p.candidate k now
  | .reward k order nonce now => reward cfg p k order nonce now
  | .process k => process cfg p k
  | .add k => p.add k
  | .expire k => p.expire k
  | .mine k order tries => mine cfg p k order tries
  | .receive k spec => p.receive k spec
  | .verify k => p.verify k
  | .replay k => replay cfg p k
  | .check k order tries => check cfg p k order tries
  | .accept k order tries => p.accept k order tries
  | .announce k now => p.announce k now
  | .block hash => { p with sys := p.sys.next (.block hash) }
  | .bestBlock => { p with sys := p.sys.next .bestBlock }
  | .restart now => ofSystem (p.sys.next (.restart genesisTimeStamp now cfg.trustee.myAddress))

/-- One event; a process that has ended can only be started again. -/
def step (e : Event) : Platform :=
  if p.alive then next cfg p e
  else
    match e with
    | .restart now => next cfg p (.restart now)
    | _ => p

/-- The first start of a node. -/
def boot (now : UInt64) : Platform := ofSystem (System.boot genesisTimeStamp now cfg.trustee.myAddress)

/-- The states of a node. -/
abbrev run (events : List Event) : Platform := Transition.run (step cfg) p events

/-- Every event of the run satisfies `P` in the state it comes in. -/
abbrev Along (P : Platform → Event → Prop) (events : List Event) : Prop := Transition.Along (step cfg) P p events

end Calls

end Platform

end TrustNet
