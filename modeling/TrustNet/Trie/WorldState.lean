import TrustNet.Core.Database

/-!
# The world state trie (`core/trie/trieImpl.go`)

A world state is a root hash with the root node held in memory; all other
nodes are read from the database by their hash. The functions take the
database and return it. `Put` and `Get` are parameters of the depth-first
walks, as in the source.
-/

namespace TrustNet
set_option autoImplicit false

variable [Sha512]

/-- `node.hash`. The slice is made with the length that was meant as its capacity, so the hashed
data starts with that many zeros. -/
def Node.hash (n : Node) : Byte64 :=
  sum512 (List.replicate (16 * 64 + n.value.length) 0 ++
    (List.finRange 16).flatMap (fun i => (n.idxs i).bytes) ++ n.value)

/-- `&node{Tombstone: uninitialized}`. -/
def emptyNode : Node := ⟨fun _ => null, [], .uninitialized⟩

/-- `MptWorldState`, less the database handle. -/
structure MptWorldState where
  rootHash : Byte64
  rootNode : Node
  txNode : Node
  deriving DecidableEq

/-- For the numerals of `Fin 16`. -/
instance instNeZeroSixteen : @NeZero Nat (@Zero.ofOfNat0 Nat (instOfNatNat 0)) 16 := ⟨by decide⟩

/-- `makeHex`: the nibbles of a key, the high nibble of each byte first. -/
def makeHex (data : Bytes) : List (Fin 16) :=
  data.flatMap fun b => [Fin.ofNat 16 (b.toNat / 16), Fin.ofNat 16 (b.toNat % 16)]

/-- `tombStone`: since the marking of old nodes was taken out, it only clears the mark. -/
def tombStone (n : Node) : Node := { n with tombstone := .unmarked }

section Storage

variable {σ : Type} [Database σ]

def putNode (db : σ) (key : Key) (n : Node) : σ × Option String := Database.put db key (.node n)

def getNode (db : σ) (key : Key) : Option Node :=
  match Database.get db key with
  | some (.node n) => some n
  | _ => none

def putState (db : σ) (hash : Byte64) (n : Node) : σ × Option String := putNode db (.state hash) n

def getState (db : σ) (hash : Byte64) : Option Node := getNode db (.state hash)

def getTx (db : σ) (hash : Byte64) : Option Node := getNode db (.tx hash)

def deleteState (db : σ) (hash : Byte64) : σ × Option String := Database.delete db (.state hash)

def deleteTx (db : σ) (hash : Byte64) : σ × Option String := Database.delete db (.tx hash)

/-- `HasTransaction`, in the flat table: the block a transaction is registered with. -/
def hasTransaction (db : σ) (txId : Byte64) : Option Byte64 :=
  match Database.get db (.flatTx txId) with
  | some (.hash h) => some h
  | _ => none

/-- `RegisterTransaction`, in the flat table. -/
def registerTransaction (db : σ) (txId blockId : Byte64) : σ × Option String :=
  Database.put db (.flatTx txId) (.hash blockId)

/-- `NewMptWorldState`. -/
def newMptWorldState (db : σ) : σ × Option MptWorldState :=
  let ws : MptWorldState := ⟨emptyNode.hash, emptyNode, emptyNode⟩
  match putState db ws.rootHash ws.rootNode with
  | (db, some _) => (db, none)
  | (db, none) =>
    match putNode db (.txRoot ws.rootHash) ws.txNode with
    | (db, some _) => (db, none)
    | (db, none) => (db, some ws)

section DepthFirst

variable (put : σ → Byte64 → Node → σ × Option String) (get : σ → Byte64 → Option Node)

/-- `updateDepthFirst`: the database, the node as it was changed in place, and its new hash
(`null` if a write failed). -/
def updateDepthFirst (db : σ) (currNode : Node) : List (Fin 16) → Bytes → σ × Node × Byte64
  | [], value =>
    let currNode := { tombStone currNode with value }
    let newHash := currNode.hash
    match put db newHash currNode with
    | (db, some _) => (db, currNode, null)
    | (db, none) => (db, currNode, newHash)
  | k :: keyHex, value =>
    let found := if currNode.idxs k ≠ null then get db (currNode.idxs k) else none
    let childNode := found.getD emptyNode
    match updateDepthFirst db childNode keyHex value with
    | (db, _, childHash) =>
      if childHash = null then (db, currNode, null)
      else
        let currNode := { tombStone currNode with idxs := Function.update currNode.idxs k childHash }
        let newHash := currNode.hash
        match put db newHash currNode with
        | (db, some _) => (db, currNode, null)
        | (db, none) => (db, currNode, newHash)

/-- `deleteDepthFirst`: as `updateDepthFirst`, but a missing path ends it with `null` and
without a change. -/
def deleteDepthFirst (db : σ) (currNode : Node) : List (Fin 16) → σ × Node × Byte64
  | [] =>
    let currNode := { tombStone currNode with value := [] }
    let newHash := currNode.hash
    match put db newHash currNode with
    | (db, some _) => (db, currNode, null)
    | (db, none) => (db, currNode, newHash)
  | k :: keyHex =>
    if currNode.idxs k ≠ null then
      match get db (currNode.idxs k) with
      | none => (db, currNode, null)
      | some childNode =>
        match deleteDepthFirst db childNode keyHex with
        | (db, _, childHash) =>
          if childHash = null then (db, currNode, null)
          else
            let currNode := { tombStone currNode with idxs := Function.update currNode.idxs k childHash }
            let newHash := currNode.hash
            match put db newHash currNode with
            | (db, some _) => (db, currNode, null)
            | (db, none) => (db, currNode, newHash)
    else (db, currNode, null)

/-- `lookupDepthFirst`. -/
def lookupDepthFirst (db : σ) (currNode : Node) : List (Fin 16) → Bytes
  | [] => currNode.value
  | k :: keyHex =>
    if currNode.idxs k ≠ null then
      match get db (currNode.idxs k) with
      | some childNode => lookupDepthFirst db childNode keyHex
      | none => []
    else []

/-- `cleanupDepthFirst`. The fuel bounds the depth of the recursion. -/
def cleanupDepthFirst (del : σ → Byte64 → σ × Option String) : Nat → σ → Node → σ
  | 0, db, _ => db
  | fuel + 1, db, currNode =>
    if currNode.tombstone = .unmarked then db
    else
      let db := (List.finRange 16).foldl (fun db i =>
        if currNode.idxs i = null then db
        else
          match get db (currNode.idxs i) with
          | some childNode => cleanupDepthFirst del fuel db childNode
          | none => db) db
      (del db currNode.hash).1

end DepthFirst

/-- The common end of `Update` and `Delete`: if the walk gave a new root hash, mark the old root's
transaction record, write one for the new root, and move the root hash. -/
def MptWorldState.switchRoot (t : MptWorldState) (walk : σ × Node × Byte64) : σ × MptWorldState × Byte64 :=
  match walk with
  | (db, rootNode, newHash) =>
    let t := { t with rootNode }
    if newHash ≠ null then
      let (db, _) := putNode db (.txRoot t.rootHash) { t.txNode with tombstone := .marked }
      let t := { t with txNode := { t.txNode with tombstone := .unmarked } }
      match putNode db (.txRoot newHash) t.txNode with
      | (db, some _) => (db, t, t.rootHash)
      | (db, none) => (db, { t with rootHash := newHash }, newHash)
    else (db, t, t.rootHash)

/-- `Update`: the database, the world state, and the root hash it returns. -/
def MptWorldState.update (t : MptWorldState) (db : σ) (key value : Bytes) : σ × MptWorldState × Byte64 :=
  t.switchRoot (updateDepthFirst putState getState db t.rootNode (makeHex key) value)

/-- `Delete`. -/
def MptWorldState.delete (t : MptWorldState) (db : σ) (key : Bytes) : σ × MptWorldState × Byte64 :=
  t.switchRoot (deleteDepthFirst putState getState db t.rootNode (makeHex key))

/-- `Lookup`. -/
def MptWorldState.lookup (t : MptWorldState) (db : σ) (key : Bytes) : Except Err Bytes :=
  match lookupDepthFirst getState db t.rootNode (makeHex key) with
  | [] => .error (.core .notFound "key does not exists")
  | value => .ok value

/-- `Rebase`. -/
def MptWorldState.rebase (t : MptWorldState) (db : σ) (hash : Byte64) : σ × MptWorldState × Option Err :=
  match getState db hash with
  | none => (db, t, some (.core .notFound "hash does not exists"))
  | some rootNode =>
    match getNode db (.txRoot hash) with
    | none => (db, t, some (.core .notFound "transaction trie does not exists"))
    | some txNode =>
      let rootNode := { rootNode with tombstone := .unmarked }
      match putState db rootNode.hash rootNode with
      | (db, some e) => (db, t, some (.db e))
      | (db, none) =>
        let txNode := { txNode with tombstone := .unmarked }
        match putNode db (.txRoot rootNode.hash) txNode with
        | (db, some e) => (db, t, some (.db e))
        | (db, none) =>
          let (db, _) := putNode db (.txRoot t.rootHash) { t.txNode with tombstone := .marked }
          (db, ⟨hash, rootNode, txNode⟩, none)

/-- `Cleanup`. -/
def cleanup (db : σ) (hash : Byte64) : σ × Option Err :=
  match getState db hash with
  | none => (db, some (.core .notFound "hash does not exists"))
  | some staleNode =>
    let db := cleanupDepthFirst getState deleteState (Database.calls db + 1) db staleNode
    match getNode db (.txRoot hash) with
    | none => (db, none)
    | some txNode =>
      let db := cleanupDepthFirst getTx deleteTx (Database.calls db + 1) db txNode
      ((Database.delete db (.txRoot hash)).1, none)

end Storage

end TrustNet
