import Mathlib.Data.Finset.Insert
import Mathlib.Data.List.AList
import TrustNet.Trie.WorldState

/-!
# Blocks (`consensus/block.go`)

A block holds its wire fields, a world state of its own and an overlay of the
values its transactions wrote. The overlay is a Go map, so `persistState` may
visit it in any order: the functions below take the visiting order as an
argument. The nonce search runs against a ten second timeout; `tries` is the
number of hashes it completes before that.
-/

namespace TrustNet
set_option autoImplicit false

/-- `PowApprover`: the hash, the block's timestamp and its delta. -/
abbrev PowApprover := Bytes → UInt64 → UInt64 → Bool

/-- The overlay `map[string][]byte` (the field `variables`); `nil` marks a deletion. -/
abbrev Variables := AList (fun _ : Bytes => Option Bytes)

/-- One visit of a range loop over the overlay. -/
abbrev Entry := Sigma (fun _ : Bytes => Option Bytes)

/-- `consensus.block`. -/
structure Block extends BlockSpec where
  uncleMiners : List Bytes
  pow : Option PowApprover
  worldState : Option MptWorldState
  hash : Option Byte64
  isNetworkBlock : Bool
  vars : Variables
  transactions : Finset Byte64

/-- `consensus.uncle`. -/
structure Uncle where
  hash : Byte64
  miner : Bytes
  depth : UInt64
  distance : UInt64

/-- `newBlock`; `now` is the clock that a zero timestamp is replaced with. -/
def newBlock (previous : Byte64) (weight depth ts pTs : UInt64) (miner : Bytes)
    (state : Option MptWorldState) (now : UInt64) : Block :=
  let ts := if ts = 0 then now else ts
  { phash := previous, miner, state := (state.map (·.rootHash)).getD null, txs := [], ts, delta := ts - pTs,
    depth, wt := weight, uncles := [], nonce := 0, uncleMiners := [], pow := none, worldState := state,
    hash := none, isNetworkBlock := false, vars := ∅, transactions := ∅ }

/-- The block that `DecodeNetworkBlockSpec` and `deSerializeBlock` build from the wire fields. -/
def BlockSpec.toBlock (spec : BlockSpec) : Block :=
  { spec with
    uncleMiners := [], pow := none, worldState := none, hash := none, isNetworkBlock := true,
    vars := ∅, transactions := ∅ }

/-- `addUncle`. -/
def Block.addUncle (b : Block) (uncle : Uncle) : Block :=
  { b with uncles := b.uncles ++ [uncle.hash], uncleMiners := b.uncleMiners ++ [uncle.miner], wt := b.wt + 1 }

/-- `Update`. -/
def Block.update (b : Block) (key value : Bytes) : Block :=
  { b with vars := b.vars.insert key (some value) }

/-- `Delete`. -/
def Block.delete (b : Block) (key : Bytes) : Block :=
  { b with vars := b.vars.insert key none }

/-- `Numeric` of a hash: the sum of its bytes. -/
def numeric (hash : Byte64) : UInt64 := hash.bytes.foldl (fun num b => num + b.toUInt64) 0

/-- `Numeric`; a block that was not hashed counts as the largest value. -/
def Block.numeric (b : Block) : UInt64 :=
  match b.hash with
  | none => 0 - 1
  | some hash => TrustNet.numeric hash

variable [Sha512]

section Storage

variable {σ : Type} [Database σ]

/-- `Lookup`: a value that is read from the world state is kept in the overlay. -/
def Block.lookup (b : Block) (db : σ) (key : Bytes) : Block × Reply :=
  match b.vars.lookup key with
  | some none => (b, .error (.core .keyNotFound "key not found"))
  | some (some value) => (b, .value value)
  | none =>
    match b.worldState with
    | none => (b, .panic)
    | some ws =>
      match ws.lookup db key with
      | .ok value => ({ b with vars := b.vars.insert key (some value) }, .value value)
      | .error e => (b, .error e)

/-- `AddTransaction`. -/
def Block.addTransaction (b : Block) (db : σ) (tx : Transaction) : Block × Outcome :=
  if b.worldState.isNone then (b, .panic)
  else if (hasTransaction db tx.id).isSome then (b, .error (.core .duplicateTx "duplicate transaction"))
  else if tx.id ∈ b.transactions then (b, .error (.core .duplicateTx "duplicate transaction"))
  else ({ b with transactions := insert tx.id b.transactions, txs := b.txs ++ [tx] }, .ok)

/-- What `persistState` does with one entry of the overlay. -/
def MptWorldState.commit (ws : MptWorldState) (db : σ) (entry : Entry) : σ × MptWorldState × Byte64 :=
  match entry.2 with
  | none => ws.delete db entry.1
  | some value => ws.update db entry.1 value

/-- `persistState`: write the overlay into the world state in the order `entries`, and clean up
each transient root. The flag is `skippedParentState`: the first root that is left is the parent
block's, which is kept. -/
def persistState (db : σ) (ws : MptWorldState) : List Entry → Bool → σ × MptWorldState
  | [], _ => (db, ws)
  | entry :: entries, skippedParentState =>
    let oldHash := ws.rootHash
    match ws.commit db entry with
    | (db, ws, newHash) =>
      if newHash = oldHash then persistState db ws entries skippedParentState
      else if skippedParentState then persistState (cleanup db oldHash).1 ws entries skippedParentState
      else persistState db ws entries true

/-- The data that is hashed, up to the nonce. The depth is not part of it. -/
def BlockSpec.preimage (b : BlockSpec) (state : Byte64) : Bytes :=
  b.phash.bytes ++ b.miner ++ uint64Bytes b.ts ++ uint64Bytes b.delta ++ state.bytes ++
    b.txs.flatMap Transaction.bytes ++ uint64Bytes b.wt ++ b.uncles.flatMap Byte64.bytes

/-- The nonce search of `computeHash`: the last nonce that was tried, and the hash if one was
approved. A network block has one try. -/
def searchNonce (data : Bytes) (pow : Option PowApprover) (ts delta : UInt64) (isNetworkBlock : Bool) :
    Nat → UInt64 → UInt64 → UInt64 × Option Byte64
  | 0, last, _ => (last, none)
  | tries + 1, _, nonce =>
    let hash := sum512 (data ++ uint64Bytes nonce)
    let isPoWDone := match pow with
      | some approve => approve hash.bytes ts delta
      | none => true
    if isPoWDone then (nonce, some hash)
    else if isNetworkBlock then (nonce, none)
    else searchNonce data pow ts delta isNetworkBlock tries nonce (nonce + 1)

/-- The first half of `computeHash`: persist the overlay; a block of this node takes over the root. -/
def Block.commitState (b : Block) (db : σ) (order : List Entry) : σ × Block :=
  match b.worldState with
  | none => (db, b)
  | some ws =>
    match persistState db ws order false with
    | (db, ws) =>
      let b := { b with worldState := some ws }
      (db, if b.isNetworkBlock then b else { b with state := ws.rootHash })

/-- `computeHash`. -/
def Block.computeHash (b : Block) (db : σ) (order : List Entry) (tries : Nat) : σ × Block × Option Byte64 :=
  match b.commitState db order with
  | (db, b) =>
    let state := (b.worldState.map (·.rootHash)).getD b.state
    match searchNonce (b.preimage state) b.pow b.ts b.delta b.isNetworkBlock tries b.nonce b.nonce with
    | (nonce, none) => (db, { b with nonce }, none)
    | (nonce, some hash) => (db, { b with nonce, hash := some hash }, some hash)

/-- `registerTransactions`, for a block that has a world state. -/
def registerTransactions (db : σ) (hash : Byte64) : List Transaction → σ × Option String
  | [] => (db, none)
  | tx :: txs =>
    match registerTransaction db tx.id hash with
    | (db, some e) => (db, some e)
    | (db, none) => registerTransactions db hash txs

end Storage

/-- `Spec`: the copy of a block that is sent. -/
def Block.spec (b : Block) : BlockSpec :=
  { b.toBlockSpec with state := (b.worldState.map (·.rootHash)).getD b.state }

/-- `clone`: the copy of the best block that `BestBlock` hands out. -/
def Block.clone (b : Block) (state : MptWorldState) : Block :=
  { b with
    state := state.rootHash, txs := [], uncles := [], uncleMiners := [], pow := none,
    worldState := some state, isNetworkBlock := false, vars := ∅, transactions := ∅ }

end TrustNet
