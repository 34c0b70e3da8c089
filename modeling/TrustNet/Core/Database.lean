import Mathlib.Data.Fintype.Basic
import TrustNet.Core.Types
import TrustNet.Lib.WriteLog

/-!
# Stored records and the database interface (`db/database.go`)

A record goes through `gob` on its way to the database and back, so the model
stores the record itself. A key is a table prefix followed by a 64-byte hash;
`Key` has one constructor for each prefix.
-/

namespace TrustNet
set_option autoImplicit false

/-- `consensus.Transaction`. -/
structure Transaction where
  payload : Bytes
  signature : Bytes
  submitter : Bytes
  timestamp : UInt64
  deriving DecidableEq, Repr

/-- `Transaction.Bytes`. -/
def Transaction.bytes (tx : Transaction) : Bytes :=
  tx.payload ++ tx.signature ++ tx.submitter ++ uint64Bytes tx.timestamp

/-- `Transaction.Id`. -/
def Transaction.id [Sha512] (tx : Transaction) : Byte64 := sum512 tx.bytes

/-- `consensus.BlockSpec`: the fields of a block that go over the wire and into the database. -/
structure BlockSpec where
  phash : Byte64
  miner : Bytes
  state : Byte64
  txs : List Transaction
  ts : UInt64
  delta : UInt64
  depth : UInt64
  wt : UInt64
  uncles : List Byte64
  nonce : UInt64
  deriving DecidableEq

/-- `consensus.chainNode`. -/
structure ChainNode where
  parent : Byte64
  depth : UInt64
  weight : UInt64
  isMainList : Bool
  children : List Byte64
  hash : Byte64
  deriving DecidableEq

/-- `chainNode.setMainList`. -/
def ChainNode.setMainList (cn : ChainNode) (isMainList : Bool) : ChainNode := { cn with isMainList }

/-- `chainNode.addChild`. -/
def ChainNode.addChild (cn : ChainNode) (childHash : Byte64) : ChainNode :=
  { cn with children := cn.children ++ [childHash] }

/-- The tombstone byte of a trie node. -/
inductive Tombstone where
  | uninitialized | marked | unmarked
  deriving DecidableEq, Repr

/-- `trie.node`. -/
structure Node where
  idxs : Fin 16 → Byte64
  value : Bytes
  tombstone : Tombstone
  deriving DecidableEq

/-- A database key: the table prefix of the source and the hash behind it. -/
inductive Key where
  /-- `ChainNode-` -/
  | chainNode (hash : Byte64)
  /-- `Block-` -/
  | block (hash : Byte64)
  /-- `ChainState-DagTip` -/
  | dagTip
  /-- `MptWorldStateNode-` -/
  | state (hash : Byte64)
  /-- `MptTransactionNode-` -/
  | tx (hash : Byte64)
  /-- `TransactionRootByWorldState-` -/
  | txRoot (hash : Byte64)
  /-- `MptTransactionFlatKV-` -/
  | flatTx (txId : Byte64)
  deriving DecidableEq

/-- A serialized record. -/
inductive Value where
  | chainNode (n : ChainNode)
  | block (spec : BlockSpec)
  | hash (h : Byte64)
  | node (n : Node)
  deriving DecidableEq

/-- `db.Database`. A call that fails returns the text of its error. `calls` counts the writes
made so far; it bounds the loops of the model that walk along stored records. -/
class Database (σ : Type) where
  put : σ → Key → Value → σ × Option String
  get : σ → Key → Option Value
  delete : σ → Key → σ × Option String
  calls : σ → Nat

/-- A database all of whose calls succeed. -/
abbrev Disk := WriteLog Key Value

instance : Database Disk where
  put d k v := (d.write k (some v), none)
  get d k := d.get k
  delete d k := (d.write k none, none)
  calls d := d.log.length

@[simp] theorem Disk.put_eq (d : Disk) (k : Key) (v : Value) :
    Database.put d k v = (d.write k (some v), none) := rfl

@[simp] theorem Disk.get_eq (d : Disk) (k : Key) : Database.get d k = WriteLog.get d k := rfl

@[simp] theorem Disk.delete_eq (d : Disk) (k : Key) : Database.delete d k = (d.write k none, none) := rfl

@[simp] theorem Disk.calls_eq (d : Disk) : Database.calls d = d.log.length := rfl

end TrustNet
