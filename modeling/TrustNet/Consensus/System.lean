import TrustNet.Consensus.Engine
import TrustNet.Lib.Transition

/-!
# The engine at work

A node holds a database, the engine that runs on it, and the blocks that the
application has in hand: candidates it fills, and network blocks it decoded and
replays. `Action` is one call of the engine or of a block; `step` is what the
call does, and a run is any interleaving of calls. Candidates are mined and
network blocks are checked and accepted, as the protocol managers do. A block
that was added belongs to the engine from then on, so it leaves the hands of
the application. A panic ends the process.

A call is one step. Those that submit a block hold the lock of the engine;
`CheckNetworkBlockPoW` takes none, and can also come between the halves of a
submission of another goroutine, which `TrustNet.Network.Overlap` models.
-/

namespace TrustNet
set_option autoImplicit false

/-- A node. -/
structure System where
  db : Disk
  engine : Option BlockChainConsensus
  blocks : Nat → Option Block

/-- One call. `order` is the order in which the overlay map is visited, `tries` the number of hashes
before the timeout. -/
inductive Action where
  | decode (i : Nat) (spec : BlockSpec)
  | candidate (i : Nat) (now : UInt64)
  | update (i : Nat) (key value : Bytes)
  | delete (i : Nat) (key : Bytes)
  | lookup (i : Nat) (key : Bytes)
  | addTransaction (i : Nat) (tx : Transaction)
  | checkPoW (i : Nat) (apprvr : PowApprover) (order : List Entry) (tries : Nat)
  | accept (i : Nat) (order : List Entry) (tries : Nat)
  | mine (i : Nat) (apprvr : Option PowApprover) (order : List Entry) (tries : Nat)
  | block (hash : Byte64)
  | bestBlock
  | restart (genesisTime now : UInt64) (minerId : Bytes)

namespace System

variable [Sha512]

/-- The state a panic leaves: the database. -/
def dead (db : Disk) : System := ⟨db, none, fun _ => none⟩

/-- Put block `i` into the application's hands, or take it out of them. -/
def setBlock (s : System) (i : Nat) (b : Option Block) : System := { s with blocks := Function.update s.blocks i b }

/-- The end of a call that changed block `i` and the database only. -/
def finish (s : System) (i : Nat) (db : Disk) (b : Block) (outcome : Outcome) : System × Option Outcome :=
  match outcome with
  | .panic => (dead db, some .panic)
  | outcome => (({ s with db } : System).setBlock i (some b), some outcome)

/-- The end of a call that submitted block `i`. -/
def submitted (s : System) (i : Nat) (c : BlockChainConsensus) (db : Disk) (b : Block) (outcome : Outcome) :
    System × Option Outcome :=
  match outcome with
  | .ok => (({ s with db, engine := some c } : System).setBlock i none, some .ok)
  | .error e => (({ s with db, engine := some c } : System).setBlock i (some b), some (.error e))
  | .panic => (dead db, some .panic)

/-- `MineCandidateBlock` and `MineCandidateBlockPoW`: the latter sets the approver first. -/
def withApprover (b : Block) : Option PowApprover → Block
  | none => b
  | some apprvr => { b with pow := some apprvr }

/-- `NewBlockChainConsensus` on the node's database. -/
def restart (db : Disk) (genesisTime now : UInt64) (minerId : Bytes) : System × Option Outcome :=
  match newBlockChainConsensus genesisTime now minerId db with
  | (db, outcome, engine) => (⟨db, engine, fun _ => none⟩, some outcome)

/-- A call on the engine and on block `i`; without one of them there is no call. -/
def onBlock (s : System) (i : Nat) (call : BlockChainConsensus → Block → System × Option Outcome) :
    System × Option Outcome :=
  match s.engine, s.blocks i with
  | some c, some b => call c b
  | _, _ => (s, none)

/-- One call, and how it ended (`none`: the call was not possible). -/
def step (s : System) : Action → System × Option Outcome
  | .decode i spec =>
    match s.engine with
    | none => (s, none)
    | some _ =>
      match decodeNetworkBlockSpec s.db spec with
      | (db, .ok b) => (({ s with db } : System).setBlock i (some b), some .ok)
      | (db, .error e) => ({ s with db }, some (.error e))
  | .candidate i now =>
    match s.engine with
    | none => (s, none)
    | some c =>
      match newCandidateBlock c s.db now with
      | (db, b) => (({ s with db } : System).setBlock i b, some .ok)
  | .update i key value => s.onBlock i fun _ b => s.finish i s.db (b.update key value) .ok
  | .delete i key => s.onBlock i fun _ b => s.finish i s.db (b.delete key) .ok
  | .lookup i key => s.onBlock i fun _ b =>
    match b.lookup s.db key with
    | (b, .value _) => s.finish i s.db b .ok
    | (b, .error e) => s.finish i s.db b (.error e)
    | (b, .panic) => s.finish i s.db b .panic
  | .addTransaction i tx => s.onBlock i fun _ b =>
    match b.addTransaction s.db tx with
    | (b, outcome) => s.finish i s.db b outcome
  | .checkPoW i apprvr order tries => s.onBlock i fun _ b =>
    if order.Perm b.vars.entries then
      match checkNetworkBlockPoW s.db b apprvr order tries with
      | (db, b, outcome) => s.finish i db b outcome
    else (s, none)
  | .accept i order tries => s.onBlock i fun c b =>
    if b.isNetworkBlock ∧ order.Perm b.vars.entries then
      match acceptNetworkBlock c s.db b order tries with
      | (c, db, b, outcome) => s.submitted i c db b outcome
    else (s, none)
  | .mine i apprvr order tries => s.onBlock i fun c b =>
    if b.isNetworkBlock = false ∧ order.Perm b.vars.entries then
      match mineCandidateBlock c s.db (withApprover b apprvr) order tries with
      | (c, db, b, outcome) => s.submitted i c db b outcome
    else (s, none)
  | .block hash =>
    match s.engine with
    | none => (s, none)
    | some _ =>
      match blockAt s.db hash with
      | (db, .ok _) => ({ s with db }, some .ok)
      | (db, .error e) => ({ s with db }, some (.error e))
  | .bestBlock =>
    match s.engine with
    | none => (s, none)
    | some c => ({ s with db := (bestBlock c s.db).1 }, some .ok)
  | .restart genesisTime now minerId => restart s.db genesisTime now minerId

/-- The state after a call. -/
def next (s : System) (a : Action) : System := (s.step a).1

/-- The first start of a node, on an empty database. -/
def boot (genesisTime now : UInt64) (minerId : Bytes) : System :=
  (restart WriteLog.empty genesisTime now minerId).1

/-- The states a node goes through after its first start. -/
abbrev run (s : System) (actions : List Action) : System := Transition.run next s actions

/-- Every call of the run satisfies `P` in the state it is made in. -/
abbrev Along (P : System → Action → Prop) (s : System) (actions : List Action) : Prop :=
  Transition.Along next P s actions

end System

end TrustNet
