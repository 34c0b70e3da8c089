import TrustNet.Core.Types
import TrustNet.Lib.MarkedTreeLeaf
import TrustNet.Lib.Transition
import TrustNet.Lib.WriteLog

/-!
# The block chain of package `core/chain` (`core/block.go`, `blockNode.go`, `blockChain.go`)

`BlockChainInMem` keeps a tree of block nodes in a database and caches its tip, the tip's
depth and timestamp and the weight of the main list. Database calls succeed here. The
functions take the database and return it; a walk that follows a link to a missing node
ends in a nil-pointer panic.
-/

namespace TrustNet.Chain
set_option autoImplicit false
open MarkedTree (Fault)

/-! ## Blocks -/

/-- `core.BlockSpec`; the 8 byte arrays are numbers. -/
structure BlockSpec where
  parentHash : Byte64
  miner : Byte64
  transactions : List UInt64
  timestamp : UInt64
  depth : UInt64
  weight : UInt64
  state : Byte64
  uncles : List Byte64
  nonce : UInt64
  deriving DecidableEq

/-- `core.SimpleBlock`. -/
structure SimpleBlock extends BlockSpec where
  hash : Option Byte64
  deriving DecidableEq

/-- The data that `ComputeHash` hashes. The depth is not part of it. -/
def BlockSpec.data (b : BlockSpec) : Bytes :=
  b.parentHash.bytes ++ b.miner.bytes ++ uint64Bytes b.timestamp ++ b.state.bytes ++
    b.transactions.flatMap uint64Bytes ++ uint64Bytes b.weight ++ b.uncles.flatMap Byte64.bytes ++ uint64Bytes b.nonce

/-- `AddUncle`. -/
def SimpleBlock.addUncle (b : SimpleBlock) (uncle : Byte64) (weight : UInt64) : SimpleBlock :=
  { b with uncles := b.uncles ++ [uncle], weight := weight + b.weight }

/-- `NewSimpleBlock`; `now` is the clock that a zero timestamp is replaced with. -/
def newSimpleBlock (previous : Byte64) (weight depth ts : UInt64) (miner : Bytes) (now : UInt64) : SimpleBlock :=
  { parentHash := previous, miner := bytesToByte64 miner, transactions := [],
    timestamp := if ts = 0 then now else ts, depth, weight, state := null, uncles := [], nonce := 0, hash := none }

section Hash

variable [Sha512]

/-- `ComputeHash`. -/
def SimpleBlock.computeHash (b : SimpleBlock) : SimpleBlock := { b with hash := some (sum512 b.data) }

/-- `NewSimpleBlockFromSpec`. -/
def newSimpleBlockFromSpec (spec : BlockSpec) : SimpleBlock := SimpleBlock.computeHash { spec with hash := none }

end Hash

/-! ## Block nodes -/

/-- `BlockNode`. -/
structure BlockNode where
  hash : Byte64
  parent : Byte64
  depth : UInt64
  weight : UInt64
  isMainList : Bool
  children : List Byte64
  block : Byte64
  deriving DecidableEq

/-- `NewBlockNode` of a block with the given hash. -/
def newBlockNode (b : BlockSpec) (hash : Byte64) : BlockNode :=
  { hash, parent := b.parentHash, depth := b.depth, weight := b.weight, isMainList := false, children := [], block := hash }

/-- `SetMainList`. -/
def BlockNode.setMainList (n : BlockNode) (isMainList : Bool) : BlockNode := { n with isMainList }

/-- `AddChild`. -/
def BlockNode.addChild (n : BlockNode) (childHash : Byte64) : BlockNode := { n with children := n.children ++ [childHash] }

/-! ## The database -/

inductive Key where
  | dagTip
  | blockNode (hash : Byte64)
  | blockSpec (hash : Byte64)
  deriving DecidableEq

inductive Value where
  | hash (h : Byte64)
  | node (n : BlockNode)
  | spec (s : BlockSpec)
  deriving DecidableEq

abbrev Db := WriteLog Key Value

/-- `chain.db.Get(dagTip)`. -/
def getDagTip (db : Db) : Option Byte64 :=
  match db.get .dagTip with
  | some (.hash h) => some h
  | _ => none

/-- `BlockNode`. -/
def blockNode (db : Db) (hash : Byte64) : Option BlockNode :=
  match db.get (.blockNode hash) with
  | some (.node n) => some n
  | _ => none

/-- `BlockSpec`. -/
def blockSpec (db : Db) (hash : Byte64) : Option BlockSpec :=
  match db.get (.blockSpec hash) with
  | some (.spec s) => some s
  | _ => none

def putDagTip (db : Db) (tip : Byte64) : Db := db.write .dagTip (some (.hash tip))

/-- `SaveBlockNode`. -/
def saveBlockNode (db : Db) (n : BlockNode) : Db := db.write (.blockNode n.hash) (some (.node n))

/-- `SaveBlock` of a block with the given hash. -/
def saveBlock (db : Db) (hash : Byte64) (b : BlockSpec) : Db := db.write (.blockSpec hash) (some (.spec b))

section Writes

variable (db : Db) (h hash tip : Byte64) (n : BlockNode) (b : BlockSpec)

@[simp] theorem getDagTip_putDagTip : getDagTip (putDagTip db tip) = some tip := by
  simp [getDagTip, putDagTip]

@[simp] theorem getDagTip_saveBlock : getDagTip (saveBlock db hash b) = getDagTip db := by
  simp [getDagTip, saveBlock, WriteLog.get_write]

@[simp] theorem getDagTip_saveBlockNode : getDagTip (saveBlockNode db n) = getDagTip db := by
  simp [getDagTip, saveBlockNode, WriteLog.get_write]

@[simp] theorem blockNode_putDagTip : blockNode (putDagTip db tip) h = blockNode db h := by
  simp [blockNode, putDagTip, WriteLog.get_write]

@[simp] theorem blockNode_saveBlock : blockNode (saveBlock db hash b) h = blockNode db h := by
  simp [blockNode, saveBlock, WriteLog.get_write]

theorem blockNode_saveBlockNode : blockNode (saveBlockNode db n) h = if h = n.hash then some n else blockNode db h := by
  unfold saveBlockNode blockNode
  rw [WriteLog.get_write]
  by_cases eq : h = n.hash
  · simp [eq]
  · simp [eq, Ne.symm eq]

@[simp] theorem blockSpec_putDagTip : blockSpec (putDagTip db tip) h = blockSpec db h := by
  simp [blockSpec, putDagTip, WriteLog.get_write]

@[simp] theorem blockSpec_saveBlockNode : blockSpec (saveBlockNode db n) h = blockSpec db h := by
  simp [blockSpec, saveBlockNode, WriteLog.get_write]

theorem blockSpec_saveBlock : blockSpec (saveBlock db hash b) h = if h = hash then some b else blockSpec db h := by
  unfold saveBlock blockSpec
  rw [WriteLog.get_write]
  by_cases eq : h = hash
  · simp [eq]
  · simp [eq, Ne.symm eq]

end Writes

/-- The nodes of the database, with depth, weight and block for their payload. -/
instance : NodeStore Db Byte64 BlockNode (UInt64 × UInt64 × Byte64) where
  get := blockNode
  put := saveBlockNode
  size db := db.log.length
  key := BlockNode.hash
  parent := BlockNode.parent
  children := BlockNode.children
  payload n := (n.depth, n.weight, n.block)
  marked := BlockNode.isMainList
  mark := BlockNode.setMainList
  addChild := BlockNode.addChild
  get_put db n k := blockNode_saveBlockNode db k n
  size_put _ _ := Nat.lt_succ_self _
  links_mark _ _ := rfl
  marked_mark _ _ := rfl
  links_addChild _ _ := rfl
  marked_addChild _ _ := rfl

/-! ## The chain -/

/-- The error codes that the package returns. -/
inductive ErrCode where
  | dbCorrupted | invalidBlock | orphanBlock | duplicateBlock | invalidHash | invalidUncle
  deriving DecidableEq, Repr

/-- How a call ends: with a nil error, with an error, in a nil-pointer panic, or not at all. -/
inductive Outcome where
  | ok
  | error (code : ErrCode) (msg : String)
  | fault (f : Fault)
  deriving DecidableEq, Repr

/-- `BlockChainInMem`, less the database handle. -/
structure BlockChainInMem where
  genesis : BlockNode
  tip : Byte64
  td : UInt64
  depth : UInt64
  weight : UInt64
  deriving DecidableEq

/-- The uncle of a block that is found on the way. -/
structure Uncle where
  hash : Byte64
  miner : Byte64
  depth : UInt64
  distance : UInt64

def maxUncleDistance : Nat := 5

def maxBlocks : UInt64 := 100

/-- `findMainListChild`. -/
def findMainListChild (db : Db) (parent : BlockNode) (skipChild : Option BlockNode) : Option BlockNode :=
  MarkedTree.markedChild db parent skipChild

section Chain

variable [Sha512]

/-- `Block`. -/
def getBlock (db : Db) (hash : Byte64) : Option SimpleBlock := (blockSpec db hash).map newSimpleBlockFromSpec

/-- `NewBlockChainInMem` of a genesis block with the given hash. A chain that the database has already gets its
tip, depth and time back; its weight starts from zero. -/
def newBlockChainInMem (genesis : BlockSpec) (hash : Byte64) (db : Db) : Db × Outcome × Option BlockChainInMem :=
  let node := (newBlockNode genesis hash).setMainList true
  match getDagTip db with
  | none =>
    let db := saveBlockNode (saveBlock (putDagTip db hash) hash genesis) node
    (db, .ok, some { genesis := node, tip := hash, td := genesis.timestamp, depth := 0, weight := 0 })
  | some tip =>
    match blockNode db tip with
    | none => (db, .error .dbCorrupted "cannot find block node for the tip", none)
    | some tipNode =>
      match getBlock db tip with
      | none => (db, .error .dbCorrupted "cannot find block for the tip", none)
      | some block =>
        (db, .ok, some { genesis := node, tip, td := block.timestamp, depth := tipNode.depth, weight := 0 })

/-- `findNonDirectAncestors`. -/
def findNonDirectAncestors (db : Db) (maxDepth : UInt64) : Nat → Byte64 → List Uncle
  | 0, _ => []
  | remainingDistance + 1, childNode =>
    match blockNode db childNode with
    | none => []
    | some node => node.children.flatMap fun grandChild =>
      match getBlock db grandChild with
      | none => []
      | some b =>
        if b.depth ≤ maxDepth then
          ⟨b.hash.getD null, b.miner, b.depth, UInt64.ofNat (maxUncleDistance - (remainingDistance + 1))⟩ ::
            findNonDirectAncestors db maxDepth remainingDistance grandChild
        else []

/-- `findUncles`. -/
def findUncles (db : Db) (maxDepth : UInt64) : Nat → Byte64 → Byte64 → List Uncle
  | 0, _, _ => []
  | remainingDistance + 1, grandParent, parent =>
    match blockNode db grandParent with
    | none => []
    | some node =>
      (node.children.flatMap fun childNode =>
        if childNode ≠ parent then
          match getBlock db childNode with
          | none => []
          | some b =>
            ⟨b.hash.getD null, b.miner, b.depth, UInt64.ofNat (maxUncleDistance - (remainingDistance + 1) + 1)⟩ ::
              findNonDirectAncestors db maxDepth remainingDistance childNode
        else []) ++ findUncles db maxDepth remainingDistance node.parent node.hash

/-- `addBlock` of a block with the given hash. -/
def addBlock (chain : BlockChainInMem) (db : Db) (block : BlockSpec) (hash : Byte64) (parent : BlockNode) :
    BlockChainInMem × Db × Outcome :=
  let child := newBlockNode block hash
  let db := saveBlock db hash block
  let parent := parent.addChild hash
  let db := saveBlockNode db parent
  if chain.weight < child.weight then
    let chain := { chain with td := block.timestamp, depth := child.depth, weight := child.weight, tip := hash }
    match MarkedTree.moveMarks (putDagTip db hash) child parent with
    | (db, none) => (chain, db, .ok)
    | (db, some fault) => (chain, db, .fault fault)
  else (chain, saveBlockNode db child, .ok)

/-- `AddBlockNode`; the block comes back with its uncles and its hash. -/
def addBlockNode (chain : BlockChainInMem) (db : Db) (coreBlock : Option SimpleBlock) :
    BlockChainInMem × Db × Option SimpleBlock × Outcome :=
  match coreBlock with
  | none => (chain, db, none, .error .invalidBlock "nil block")
  | some block =>
    if block.hash.isSome then (chain, db, some block, .error .invalidBlock "block has precomputed hash")
    else
      match blockNode db block.parentHash with
      | none => (chain, db, some block, .error .orphanBlock "orphan block")
      | some parent =>
        if block.uncles.length ≠ 0 then (chain, db, some block, .error .invalidBlock "new block cannot have uncles")
        else
          let uncles := findUncles db parent.depth maxUncleDistance parent.parent parent.hash
          let block := uncles.foldl (fun b uncle => SimpleBlock.addUncle b uncle.hash 1) block
          let hash := sum512 block.data
          let block := block.computeHash
          if (blockNode db hash).isSome then (chain, db, some block, .error .duplicateBlock "duplicate block")
          else
            match addBlock chain db block.toBlockSpec hash parent with
            | (chain, db, outcome) => (chain, db, some block, outcome)

/-- `AddNetworkNode`. -/
def addNetworkNode (chain : BlockChainInMem) (db : Db) (coreBlock : Option SimpleBlock) :
    BlockChainInMem × Db × Outcome :=
  match coreBlock with
  | none => (chain, db, .error .invalidBlock "nil block")
  | some block =>
    match block.hash with
    | none => (chain, db, .error .invalidHash "block does not have hash computed")
    | some hash =>
      if (blockNode db hash).isSome then (chain, db, .error .duplicateBlock "duplicate block")
      else
        match blockNode db block.parentHash with
        | none => (chain, db, .error .orphanBlock "orphan block")
        | some parent =>
          if block.uncles.all fun uncle => (blockNode db uncle).isSome then
            addBlock chain db block.toBlockSpec hash parent
          else (chain, db, .error .invalidUncle "unknown uncle")

/-- The loop of `Flush` down the main list. -/
def flushDown : Nat → Db → Option BlockNode → Db × Option Fault
  | _, db, none => (db, none)
  | 0, db, some _ => (db, some .endless)
  | fuel + 1, db, some child =>
    let db := db.write (.blockNode child.hash) none
    let db := db.write (.blockSpec child.hash) none
    flushDown fuel db (findMainListChild db child none)

/-- `Flush`. The weight stays what it was. -/
def flush (chain : BlockChainInMem) (db : Db) : BlockChainInMem × Db × Outcome :=
  let chain := { chain with tip := chain.genesis.hash }
  let db := putDagTip db chain.tip
  let chain := { chain with depth := 0 }
  match blockNode db chain.genesis.hash, getBlock db chain.genesis.hash with
  | some genesisNode, some genesis =>
    let chain := { chain with td := genesis.timestamp }
    match flushDown (db.log.length + 1) db (findMainListChild db genesisNode none) with
    | (db, none) => (chain, db, .ok)
    | (db, some fault) => (chain, db, .fault fault)
  | _, _ => (chain, db, .fault .nilPointer)

/-- The loop of `Blocks` down the main list. -/
def mainListFrom (db : Db) : Nat → Option BlockNode → List SimpleBlock
  | 0, _ => []
  | _, none => []
  | count + 1, some currNode =>
    match getBlock db currNode.block with
    | none => []
    | some block => block :: mainListFrom db count (findMainListChild db currNode none)

/-- `Blocks`. -/
def blocks (db : Db) (parent : Byte64) (max : UInt64) : List SimpleBlock :=
  let max := if max > maxBlocks then maxBlocks else max
  mainListFrom db max.toNat ((blockNode db parent).bind fun node => findMainListChild db node none)

/-- `Tip`. -/
def BlockChainInMem.tipNode (chain : BlockChainInMem) (db : Db) : Option BlockNode := blockNode db chain.tip

/-! ## Sessions -/

/-- A program with a chain on a database. There is no chain once a call has panicked. -/
structure Session where
  db : Db
  chain : Option BlockChainInMem

inductive Call where
  | restart
  | addBlockNode (block : Option SimpleBlock)
  | addNetworkNode (block : Option SimpleBlock)
  | flush
  | blocks (parent : Byte64) (max : UInt64)
  | blockNode (hash : Byte64)
  | tip

/-- What a call returns; `AddBlockNode` also leaves its hash and uncles in the block. -/
inductive Reply where
  | done (outcome : Outcome)
  | added (block : Option SimpleBlock) (outcome : Outcome)
  | blocks (blocks : List SimpleBlock)
  | node (node : Option BlockNode)
  deriving DecidableEq

/-- The session after a call that changed the chain. -/
def Session.after (db : Db) (chain : BlockChainInMem) : Outcome → Session
  | .fault _ => ⟨db, none⟩
  | _ => ⟨db, some chain⟩

/-- A call on the chain, if there is one. -/
def Session.on (s : Session) (f : BlockChainInMem → Session × Reply) : Session × Option Reply :=
  match s.chain with
  | none => (s, none)
  | some chain => ((f chain).1, some (f chain).2)

/-- One call. A restart opens the chain again, with the same genesis on the same database. -/
def Session.step (genesis : BlockSpec) (hash : Byte64) (s : Session) : Call → Session × Option Reply
  | .restart =>
    match newBlockChainInMem genesis hash s.db with
    | (db, outcome, chain) => (⟨db, chain⟩, some (.done outcome))
  | .addBlockNode block => s.on fun chain =>
    match Chain.addBlockNode chain s.db block with
    | (chain, db, block, outcome) => (.after db chain outcome, .added block outcome)
  | .addNetworkNode block => s.on fun chain =>
    match Chain.addNetworkNode chain s.db block with
    | (chain, db, outcome) => (.after db chain outcome, .done outcome)
  | .flush => s.on fun chain =>
    match Chain.flush chain s.db with
    | (chain, db, outcome) => (.after db chain outcome, .done outcome)
  | .blocks parent max => s.on fun _ => (s, .blocks (Chain.blocks s.db parent max))
  | .blockNode hash => s.on fun _ => (s, .node (Chain.blockNode s.db hash))
  | .tip => s.on fun chain => (s, .node (chain.tipNode s.db))

def Session.next (genesis : BlockSpec) (hash : Byte64) (s : Session) (call : Call) : Session :=
  (s.step genesis hash call).1

/-- A chain freshly created on an empty database. -/
def Session.fresh (genesis : BlockSpec) (hash : Byte64) : Session :=
  Session.next genesis hash ⟨WriteLog.empty, none⟩ .restart

/-- The session after `calls`. -/
def Session.run (genesis : BlockSpec) (hash : Byte64) (s : Session) (calls : List Call) : Session :=
  Transition.run (Session.next genesis hash) s calls

/-- The replies to `calls`. -/
def Session.replies (genesis : BlockSpec) (hash : Byte64) : Session → List Call → List (Option Reply)
  | _, [] => []
  | s, call :: calls => (s.step genesis hash call).2 :: replies genesis hash (s.next genesis hash call) calls

end Chain

end TrustNet.Chain
