import TrustNet.Consensus.Engine
import TrustNet.Core.Encoding

/-!
# The trustee (`network/trustee.go`, `network/trusteeTransactions.go`)

The first transaction of a block rewards its miner and the miners of its uncles. The
miner builds and signs it, and processes it on its own candidate; a receiver checks the
signature and processes the same payload on the decoded block. Accounts are keys of the
world state, the hex strings of addresses, and a balance is eight bytes.

Go strings are byte lists. The gob encoding and ECDSA are outside the repository: they are
the class `Outside`, and what the results need of them is `Outside.Works`. The calls return
`none` when they panic.
-/

namespace TrustNet
set_option autoImplicit false

/-- The bytes of a string constant. -/
def ascii (s : String) : Bytes := s.toUTF8.data.toList

/-- `Op`. -/
structure Op where
  opCode : Bytes
  params : AList (fun _ : Bytes => Bytes)

def opReward : Bytes := ascii "REWARD"

def paramMiner : Bytes := ascii "MINER"

def paramUncle : Bytes := ascii "UNCLE"

def paramAward : Bytes := ascii "AWARD"

def minerAward : Bytes := ascii "1000000"

def uncleAward : Bytes := ascii "200000"

/-- The code that the trustee calls outside the repository. The first argument of `serialize` and of `sign` picks what
they leave open: the order in which gob visits a map, and the random number of a signature. -/
class Outside where
  /-- `ecdsa.PrivateKey`. -/
  Identity : Type
  /-- `crypto.FromECDSAPub` of the public key. -/
  address : Identity → Bytes
  /-- `common.Serialize`. -/
  serialize : Nat → List Op → Option Bytes
  /-- `common.Deserialize`. -/
  deserialize : Bytes → Option (List Op)
  /-- `ecdsa.Sign` with the signature serialized; empty if it failed. -/
  sign : Nat → Identity → Byte64 → Bytes
  /-- `ecdsa.Verify` of the serialized signature with the key of `crypto.ToECDSAPub`. -/
  verify : Bytes → Byte64 → Bytes → Bool

/-- The same operations, with their maps in any order. -/
def SameOps (ops ops' : List Op) : Prop :=
  List.Forall₂ (fun op op' => op.opCode = op'.opCode ∧ op.params.entries.Perm op'.params.entries) ops ops'

/-- Payloads and signatures that this node makes are read back. -/
structure Outside.Works [Outside] : Prop where
  roundTrip : ∀ n ops, ∃ payload ops', serialize n ops = some payload ∧ deserialize payload = some ops' ∧ SameOps ops ops'
  signed : ∀ n identity hash, sign n identity hash ≠ [] ∧ verify (address identity) hash (sign n identity hash) = true
  address : ∀ identity, address identity ≠ []

/-- `strconv.ParseUint(value, 10, 64)`. -/
def parseUint (value : Bytes) : Option UInt64 :=
  if value = [] ∨ !value.all (fun c => 48 ≤ c && c ≤ 57) then none
  else
    let n := value.foldl (fun n c => n * 10 + (c.toNat - 48)) 0
    if n < 2 ^ 64 then some (UInt64.ofNat n) else none

/-- What the loop over the parameters of a reward has found. -/
structure Award where
  validOp : Bool
  account : Bytes
  amount : UInt64

/-- One round of the loop over the parameters: `key` names the account, which has to be `owner`, and the award has to be
`award`. -/
def Award.visit (key owner award : Bytes) (found : Award) (param : Sigma fun _ : Bytes => Bytes) : Award :=
  if param.1 = key then
    if param.2 ≠ owner then { found with validOp := false } else { found with account := param.2 }
  else if param.1 = paramAward then
    if param.2 ≠ award then { found with validOp := false }
    else
      match parseUint param.2 with
      | none => { found with validOp := false }
      | some val => { found with amount := val }
  else { found with validOp := false }

/-- The loop over the parameters of `op`. -/
def Op.award (op : Op) (key owner award : Bytes) : Award :=
  op.params.entries.foldl (Award.visit key owner award) ⟨true, [], 0⟩

/-- The award of the first operation, for the miner. -/
def Op.minerAward (op : Op) (submitter : Bytes) : Award :=
  op.award paramMiner (bytesToHexString submitter) TrustNet.minerAward

/-- The award of a later operation, for an uncle. -/
def Op.uncleAward (op : Op) (uncle : Bytes) : Award := op.award paramUncle (bytesToHexString uncle) TrustNet.uncleAward

/-- `trusteeImpl`. -/
structure Trustee [Outside] where
  identity : Outside.Identity

section Trustee

variable [Sha512] [Outside] {σ : Type} [Database σ]

/-- `myAddress`. -/
def Trustee.myAddress (t : Trustee) : Bytes := Outside.address t.identity

/-- `Credit`. -/
def credit (db : σ) (block : Block) (account : Bytes) (delta : UInt64) : Option Block :=
  match block.lookup db account with
  | (_, .panic) => none
  | (block, .value bytes) => some (block.update account (uint64Bytes (bytesToUint64 bytes + delta)))
  | (block, .error _) => some (block.update account (uint64Bytes (bytesToUint64 [] + delta)))

/-- Credit an award if it is valid. -/
def Award.pay (award : Award) (db : σ) (block : Block) : Option (Block × Bool) :=
  if award.validOp ∧ 0 < award.account.length ∧ 0 < award.amount then
    (credit db block award.account award.amount).map fun block => (block, true)
  else some (block, false)

/-- The loop of `process` over the uncles. -/
def payUncles (db : σ) : List Op → List Bytes → Block → Option (Block × Bool)
  | _, [], block => some (block, true)
  | [], _ :: _, _ => none
  | op :: ops, uncle :: uncles, block =>
    match (op.uncleAward uncle).pay db block with
    | none => none
    | some (block, false) => some (block, false)
    | some (block, true) => payUncles db ops uncles block

/-- `process`. -/
def process (db : σ) (block : Block) (tx : Transaction) : Option (Block × Bool) :=
  match Outside.deserialize tx.payload with
  | none => some (block, false)
  | some ops =>
    if ops.length ≠ 1 + block.uncleMiners.length then some (block, false)
    else
      match ops with
      | [] => none
      | op :: ops =>
        match (op.minerAward tx.submitter).pay db block with
        | none => none
        | some (block, false) => some (block, false)
        | some (block, true) => payUncles db ops block.uncleMiners block

/-- `myReward`. -/
def Trustee.myReward (t : Trustee) : Op :=
  ⟨opReward, (AList.insert paramAward minerAward (AList.singleton paramMiner (bytesToHexString t.myAddress)))⟩

/-- The operation that rewards an uncle. -/
def uncleReward (uncleMiner : Bytes) : Op :=
  ⟨opReward, (AList.insert paramAward uncleAward (AList.singleton paramUncle (bytesToHexString uncleMiner)))⟩

/-- The transaction that `NewMiningRewardTx` builds and signs; `now` is its timestamp. -/
def Trustee.rewardTx (t : Trustee) (order nonce : Nat) (now : UInt64) (uncleMiners : List Bytes) : Option Transaction :=
  match Outside.serialize order (t.myReward :: uncleMiners.map uncleReward) with
  | none => none
  | some payload =>
    let signature := Outside.sign nonce t.identity (sum512 payload)
    if signature = [] then none else some ⟨payload, signature, t.myAddress, now⟩

/-- `NewMiningRewardTx`: what `AddTransaction` and `process` return is not looked at. -/
def Trustee.newMiningRewardTx (t : Trustee) (order nonce : Nat) (now : UInt64) (db : σ) (block : Block) :
    Option (Block × Option Transaction) :=
  match t.rewardTx order nonce now block.uncleMiners with
  | none => some (block, none)
  | some tx =>
    match block.addTransaction db tx with
    | (_, .panic) => none
    | (block, _) => (process db block tx).map fun processed => (processed.1, some tx)

/-- `VerifyMiningRewardTx`. -/
def verifyMiningRewardTx (db : σ) (block : Block) : Option (Block × Bool) :=
  match block.txs with
  | [] => none
  | tx :: _ =>
    if !Outside.verify tx.submitter (sum512 tx.payload) tx.signature then some (block, false)
    else if tx.submitter ≠ block.miner then some (block, false)
    else process db block tx

/-- `MiningRewardBalance`, for the key of an account. The block keeps what it looked up. -/
def miningRewardBalance (db : σ) (block : Block) (account : Bytes) : Option (Block × UInt64) :=
  match block.lookup db account with
  | (_, .panic) => none
  | (block, .value bytes) => some (block, bytesToUint64 bytes)
  | (block, .error _) => some (block, bytesToUint64 [])

end Trustee

end TrustNet
