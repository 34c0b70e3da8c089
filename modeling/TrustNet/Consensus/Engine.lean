import TrustNet.Consensus.Block

/-!
# The consensus engine (`consensus/blockChainConsensus.go`)

The engine's in-memory fields are `BlockChainConsensus`; the database is
passed along. Every call that takes the write lock is one function. Loops that
follow stored records take a bound on the number of rounds: each round reads
another stored node, so the number of writes made so far is enough.
-/

namespace TrustNet
set_option autoImplicit false

def maxUncleDistance : UInt64 := 5

/-- `genesisParent`. -/
def genesisParent : Byte64 := null

/-- `BlockChainConsensus`, less the database handle, the lock and the logger. -/
structure BlockChainConsensus where
  state : MptWorldState
  tip : Block
  weight : UInt64
  genesisNode : ChainNode
  minerId : Bytes

/-- `newChainNode`, for a block that was hashed. -/
def newChainNode (spec : BlockSpec) (hash : Byte64) : ChainNode :=
  { parent := spec.phash, depth := spec.depth, weight := spec.wt, isMainList := false, children := [], hash }

variable [Sha512] {σ : Type} [Database σ]

def getChainNode (db : σ) (hash : Byte64) : Option ChainNode :=
  match Database.get db (.chainNode hash) with
  | some (.chainNode n) => some n
  | _ => none

/-- The wire fields that are stored for a block. -/
def getSpec (db : σ) (hash : Byte64) : Option BlockSpec :=
  match Database.get db (.block hash) with
  | some (.block spec) => some spec
  | _ => none

def getBlock (db : σ) (hash : Byte64) : Option Block :=
  (getSpec db hash).map fun spec => { spec.toBlock with hash := some hash }

omit [Sha512] in
theorem getBlock_hash {db : σ} {h : Byte64} {b : Block} (found : getBlock db h = some b) : b.hash = some h := by
  obtain ⟨spec, -, rfl⟩ := Option.map_eq_some_iff.mp found
  rfl

/-- The tip hash that is stored under `dagTip`. -/
def getDagTip (db : σ) : Option Byte64 :=
  match Database.get db .dagTip with
  | some (.hash h) => some h
  | _ => none

def putChainNode (db : σ) (n : ChainNode) : σ × Option String := Database.put db (.chainNode n.hash) (.chainNode n)

/-- `putBlock`, with the checks of `serializeBlock`. -/
def putBlock (db : σ) (b : Block) : σ × Option Err :=
  if b.state = null ∨ (b.worldState.map (·.rootHash)).getD b.state ≠ b.state then
    (db, some (.core .stateIncorrect "block state incorrect"))
  else
    match b.hash with
    | none => (db, some (.core .blockUnhashed "block not hashed"))
    | some hash =>
      match Database.put db (.block hash) (.block b.toBlockSpec) with
      | (db, some e) => (db, some (.db e))
      | (db, none) => (db, none)

/-- The statically defined genesis block, before its hash is computed. -/
def genesisBlock (genesisTime now : UInt64) (state : Option MptWorldState) : Block :=
  newBlock genesisParent 0 0 genesisTime 0 null.bytes state now

/-- `NewBlockChainConsensus` on a database without a tip: save the tip, the genesis block and its
chain node, in this order. -/
def saveGenesis (db : σ) (genesis : Block) (genesisNode : ChainNode) : σ × Option Err :=
  match Database.put db .dagTip (.hash genesisNode.hash) with
  | (db, some e) => (db, some (.core .dbUninitialized e))
  | (db, none) =>
    match putBlock db genesis with
    | (db, some e) => (db, some (.core .initializationFailed e.msg))
    | (db, none) =>
      match putChainNode db genesisNode with
      | (db, some e) => (db, some (.core .initializationFailed e))
      | (db, none) => (db, none)

/-- `NewBlockChainConsensus`. A world state that could not be set up is a nil pointer. -/
def newBlockChainConsensus (genesisTime now : UInt64) (minerId : Bytes) (db : σ) :
    σ × Outcome × Option BlockChainConsensus :=
  match newMptWorldState db with
  | (db, state) =>
    match (genesisBlock genesisTime now state).computeHash db [] 1 with
    | (db, genesis, hash) =>
      match hash with
      | none => (db, .panic, none)
      | some hash =>
        let genesisNode := (newChainNode genesis.toBlockSpec hash).setMainList true
        match getDagTip db with
        | none =>
          match saveGenesis db genesis genesisNode, state with
          | (db, some e), _ => (db, .error e, none)
          | (db, none), none => (db, .panic, none)
          | (db, none), some state => (db, .ok, some ⟨state, genesis, genesis.wt, genesisNode, minerId⟩)
        | some tipHash =>
          match getBlock db tipHash, state with
          | none, _ => (db, .error (.core .initializationFailed "not found"), none)
          | some _, none => (db, .panic, none)
          | some tip, some state =>
            match state.rebase db tip.state with
            | (db, _, some e) => (db, .error (.core .initializationFailed e.msg), none)
            | (db, state, none) => (db, .ok, some ⟨state, tip, tip.wt, genesisNode, minerId⟩)

/-- `findNonDirectAncestors`, by the remaining distance. -/
def findNonDirectAncestors (db : σ) (maxDepth : UInt64) : Nat → Byte64 → List Uncle
  | 0, _ => []
  | remainingDistance + 1, childNode =>
    match getChainNode db childNode with
    | none => []
    | some node => node.children.flatMap fun grandChild =>
      match getBlock db grandChild with
      | none => []
      | some b =>
        if b.depth ≤ maxDepth then
          ⟨grandChild, b.miner, b.depth, maxUncleDistance - UInt64.ofNat (remainingDistance + 1)⟩ ::
            findNonDirectAncestors db maxDepth remainingDistance grandChild
        else []

/-- `findUncles`, by the remaining distance. -/
def findUncles (db : σ) (maxDepth : UInt64) : Nat → Byte64 → Byte64 → List Uncle
  | 0, _, _ => []
  | remainingDistance + 1, grandParent, parent =>
    if grandParent = genesisParent then []
    else
      match getChainNode db grandParent with
      | none => []
      | some node =>
        (node.children.flatMap fun childNode =>
          if childNode = parent then []
          else
            match getBlock db childNode with
            | none => []
            | some b =>
              ⟨childNode, b.miner, b.depth, maxUncleDistance - UInt64.ofNat (remainingDistance + 1) + 1⟩ ::
                findNonDirectAncestors db maxDepth remainingDistance childNode) ++
          findUncles db maxDepth remainingDistance node.parent node.hash

/-- `NewCandidateBlock`; `none` is the nil block of a failed `Rebase`. -/
def newCandidateBlock (c : BlockChainConsensus) (db : σ) (now : UInt64) : σ × Option Block :=
  match newMptWorldState db with
  | (db, none) => (db, none)
  | (db, some state) =>
    match state.rebase db c.state.rootHash, c.tip.hash with
    | (db, _, some _), _ => (db, none)
    | (db, _, none), none => (db, none)
    | (db, state, none), some tipHash =>
      let b := newBlock tipHash (c.tip.wt + 1) (c.tip.depth + 1) now (now - c.tip.ts) c.minerId (some state) now
      let uncles := findUncles db c.tip.depth maxUncleDistance.toNat c.tip.phash tipHash
      (db, some (uncles.foldl Block.addUncle b))

/-- `transactionStatus`: the block and the chain node it returns. -/
def transactionStatus (db : σ) (txId : Byte64) : Option Block × Option ChainNode × Option Err :=
  match hasTransaction db txId with
  | none => (none, none, some (.core .txNotFound "transaction not found"))
  | some hash =>
    match getChainNode db hash with
    | none => (none, none, some (.core .dbCorrupted "error reading transaction's chain node"))
    | some node =>
      if !node.isMainList then (none, some node, some (.core .txNotApplied "transaction not on canonical chain"))
      else
        match getBlock db hash with
        | none => (none, some node, some (.core .dbCorrupted "error reading transaction's block"))
        | some block => (some block, some node, none)

/-! ## Validation -/

/-- First loop of `isUncleValid`: climb from the parent down to the uncle's depth. -/
def climbParent (db : σ) (uncleDepth : UInt64) :
    Nat → Option ChainNode → UInt64 → Option ChainNode × UInt64
  | _, none, distance => (none, distance)
  | 0, some _, distance => (none, distance)
  | fuel + 1, some parent, distance =>
    if parent.depth > uncleDepth then
      climbParent db uncleDepth fuel (getChainNode db parent.parent) (distance + 1)
    else (some parent, distance)

/-- Second loop: climb from the uncle to the parent's depth. It does not run without a parent. -/
def climbUncle (db : σ) (parent : Option ChainNode) :
    Nat → Option ChainNode → UInt64 → Option ChainNode × UInt64
  | _, none, distance => (none, distance)
  | 0, some _, distance => (none, distance)
  | fuel + 1, some uncle, distance =>
    match parent with
    | none => (some uncle, distance)
    | some p =>
      if uncle.depth > p.depth then climbUncle db parent fuel (getChainNode db uncle.parent) (distance + 1)
      else (some uncle, distance)

/-- Third loop: climb from both until they meet. -/
def climbBoth (db : σ) :
    Nat → Option ChainNode → Option ChainNode → UInt64 → Option ChainNode × Option ChainNode × UInt64
  | fuel + 1, some parent, some uncle, distance =>
    if parent.hash ≠ uncle.hash then
      climbBoth db fuel (getChainNode db parent.parent) (getChainNode db uncle.parent) (distance + 1)
    else (some parent, some uncle, distance)
  | 0, some _, some _, distance => (none, none, distance)
  | _, parent, uncle, distance => (parent, uncle, distance)

/-- The decision of `isUncleValid`, before it fetches the uncle's block. -/
def uncleInReach (db : σ) (phash uHash : Byte64) : Bool :=
  match getChainNode db uHash with
  | none => false
  | some uncle =>
    let fuel := Database.calls db + 1
    match climbParent db uncle.depth fuel (getChainNode db phash) 0 with
    | (parent, distance) =>
      match parent, climbUncle db parent fuel (some uncle) distance with
      | some parent, (some uncle, distance) =>
        if parent.hash = uncle.hash then false
        else
          match climbBoth db fuel (some parent) (some uncle) distance with
          | (some _, some _, distance) => decide (distance ≤ maxUncleDistance)
          | _ => false
      | _, _ => false

/-- `isUncleValid`: a valid uncle's miner is appended to the block. -/
def isUncleValid (db : σ) (child : Block) (uHash : Byte64) : Block × Bool :=
  if uncleInReach db child.phash uHash then
    match getBlock db uHash with
    | none => (child, false)
    | some uncleBlock => ({ child with uncleMiners := child.uncleMiners ++ [uncleBlock.miner] }, true)
  else (child, false)

/-- The uncle loop of `validateBlock`: the weight with every valid uncle counted, or `none`. -/
def validateUncles (db : σ) : List Byte64 → Block → UInt64 → Block × Option UInt64
  | [], b, weight => (b, some weight)
  | uncle :: uncles, b, weight =>
    match isUncleValid db b uncle with
    | (b, false) => (b, none)
    | (b, true) => validateUncles db uncles b (weight + 1)

/-- `validateBlock`: the block with its uncle miners, and its parent. -/
def validateBlock (db : σ) (b : Block) : Block × Except Err Block :=
  match getBlock db b.phash with
  | none => (b, .error (.core .blockOrphan "cannot find parent"))
  | some parent =>
    if b.depth ≠ parent.depth + 1 then (b, .error (.core .blockValidation "incorrect depth"))
    else
      match validateUncles db b.uncles b (parent.wt + 1) with
      | (b, none) => (b, .error (.core .blockValidation "invalid uncle"))
      | (b, some weight) =>
        if b.wt ≠ weight then (b, .error (.core .blockValidation "incorrect weight")) else (b, .ok parent)

/-- `DecodeNetworkBlockSpec` with `processNetworkBlock`. -/
def decodeNetworkBlockSpec (db : σ) (spec : BlockSpec) : σ × Except Err Block :=
  match validateBlock db spec.toBlock with
  | (_, .error e) => (db, .error e)
  | (b, .ok parent) =>
    match newMptWorldState db with
    | (db, none) => (db, .error (.core .stateIncorrect "cannot initialize state"))
    | (db, some state) =>
      match state.rebase db parent.state with
      | (db, _, some _) => (db, .error (.core .stateIncorrect "cannot initialize state"))
      | (db, state, none) => (db, .ok { b with worldState := some state })

/-! ## Adding a block -/

/-- The duplicate check of `addValidatedBlock` for one transaction. -/
def isDuplicateTx (db : σ) (child : Block) (tx : Transaction) : Bool :=
  match transactionStatus db tx.id with
  | (some b, some n, _) =>
    n.isMainList || decide (b.wt > child.wt) || (decide (b.wt = child.wt) && decide (b.numeric < child.numeric))
  | _ => false

/-- `findMainListChild`. -/
def findMainListChild (db : σ) (parent : ChainNode) (skipChild : Option ChainNode) : Option ChainNode :=
  parent.children.findSome? fun childHash =>
    match getChainNode db childHash with
    | none => none
    | some child =>
      if child.isMainList && decide (∀ s ∈ skipChild, s.hash ≠ child.hash) then some child else none

/-- Walk up from `parentNode` and set the main list flag, until an ancestor has it: that ancestor
and the last node below it. `none` is the nil pointer of a missing ancestor. -/
def setMainListUp (db : σ) : Nat → ChainNode → ChainNode → σ × Option (ChainNode × ChainNode)
  | 0, _, _ => (db, none)
  | fuel + 1, parentNode, mainListParent =>
    if parentNode.isMainList then (db, some (parentNode, mainListParent))
    else
      let parentNode := parentNode.setMainList true
      let db := (putChainNode db parentNode).1
      let db := match getBlock db parentNode.hash with
        | some b => (registerTransactions db parentNode.hash b.txs).1
        | none => db
      match getChainNode db parentNode.parent with
      | none => (db, none)
      | some next => setMainListUp db fuel next parentNode

/-- Walk down the old main list and reset the flag. -/
def resetMainListDown (db : σ) : Nat → Option ChainNode → σ
  | _, none => db
  | 0, some _ => db
  | fuel + 1, some childNode =>
    let childNode := childNode.setMainList false
    let db := (putChainNode db childNode).1
    resetMainListDown db fuel (findMainListChild db childNode none)

/-- The flags of a new tip: set on its branch, reset on the old one. -/
def switchMainList (db : σ) (childNode parentNode : ChainNode) : σ × Outcome :=
  let childNode := childNode.setMainList true
  match setMainListUp db (Database.calls db + 1) parentNode childNode with
  | (db, none) => (db, .panic)
  | (db, some (parentNode, mainListParent)) =>
    let db := (putChainNode db childNode).1
    (resetMainListDown db (Database.calls db + 1) (findMainListChild db parentNode (some mainListParent)), .ok)

/-- The new block becomes the tip. -/
def moveTip (c : BlockChainConsensus) (db : σ) (child : Block) (childNode parentNode : ChainNode) :
    BlockChainConsensus × σ × Outcome :=
  let c := { c with weight := childNode.weight, tip := child }
  match Database.put db .dagTip (.hash childNode.hash) with
  | (db, some _) => (c, db, .error (.core .dbCorrupted "failed to update tip in DB"))
  | (db, none) =>
    match c.state.rebase db child.state with
    | (db, _, some e) => (c, db, .error e)
    | (db, state, none) =>
      let c := { c with state }
      match (if child.worldState.isSome then registerTransactions db childNode.hash child.txs else (db, none)) with
      | (db, some _) => (c, db, .error (.core .dbCorrupted "failed to update tip in DB"))
      | (db, none) =>
        match switchMainList db childNode parentNode with
        | (db, outcome) => (c, db, outcome)

/-- The tip comparison of `addValidatedBlock`. -/
def beatsTip (c : BlockChainConsensus) (child : Block) : Bool :=
  decide (c.weight < child.wt) || (decide (c.weight = child.wt) && decide (c.tip.numeric > child.numeric))

/-- `addValidatedBlock`. -/
def addValidatedBlock (c : BlockChainConsensus) (db : σ) (child : Block) (parentHash : Byte64) :
    BlockChainConsensus × σ × Outcome :=
  match child.hash with
  | none => (c, db, .panic)
  | some childHash =>
    if (getChainNode db childHash).isSome then (c, db, .error (.core .duplicateBlock "duplicate block"))
    else if child.txs.any (isDuplicateTx db child) then
      (c, db, .error (.core .duplicateTx "duplicate transaction"))
    else
      let childNode := newChainNode child.toBlockSpec childHash
      let db := (putBlock db child).1
      match getChainNode db parentHash with
      | none => (c, db, .error (.core .dbCorrupted "missing chain node"))
      | some parentNode =>
        let parentNode := parentNode.addChild childHash
        let db := (putChainNode db parentNode).1
        if beatsTip c child then moveTip c db child childNode parentNode
        else (c, (putChainNode db childNode).1, .ok)

/-- `AcceptNetworkBlock`. -/
def acceptNetworkBlock (c : BlockChainConsensus) (db : σ) (b : Block) (order : List Entry) (tries : Nat) :
    BlockChainConsensus × σ × Block × Outcome :=
  match validateBlock db b with
  | (b, .error e) => (c, db, b, .error e)
  | (b, .ok _) =>
    match b.computeHash db order tries with
    | (db, b, _) =>
      match b.worldState with
      | none => (c, db, b, .panic)
      | some ws =>
        if ws.rootHash ≠ b.state then (c, db, b, .error (.core .stateIncorrect "incorrect computed state"))
        else
          match addValidatedBlock c db b b.phash with
          | (c, db, outcome) => (c, db, b, outcome)

/-- `mineCandidateBlock`; the outcome is what the callback receives. -/
def mineCandidateBlock (c : BlockChainConsensus) (db : σ) (child : Block) (order : List Entry) (tries : Nat) :
    BlockChainConsensus × σ × Block × Outcome :=
  match validateBlock db child with
  | (child, .error e) => (c, db, child, .error e)
  | (child, .ok _) =>
    match child.computeHash db order tries with
    | (db, child, none) => (c, db, child, .error (.core .blockUnhashed "hash computation failed"))
    | (db, child, some _) =>
      match addValidatedBlock c db child child.phash with
      | (c, db, outcome) => (c, db, child, outcome)

/-- `CheckNetworkBlockPoW`. -/
def checkNetworkBlockPoW (db : σ) (b : Block) (apprvr : PowApprover) (order : List Entry) (tries : Nat) :
    σ × Block × Outcome :=
  if !b.isNetworkBlock then (db, b, .error (.core .blockValidation "non-network block"))
  else
    match ({ b with pow := some apprvr } : Block).computeHash db order tries with
    | (db, b, none) => (db, b, .error (.core .blockUnhashed "hash computation failed"))
    | (db, b, some _) => (db, b, .ok)

/-- `Block`: the block is handed out if its world state can be rebuilt. -/
def blockAt (db : σ) (hash : Byte64) : σ × Except Err Block :=
  match getBlock db hash with
  | none => (db, .error (.db "not found"))
  | some block =>
    match newMptWorldState db with
    | (db, none) => (db, .error (.core .stateIncorrect "worldstate error"))
    | (db, some state) =>
      match state.rebase db block.state with
      | (db, _, some _) => (db, .error (.core .stateIncorrect "worldstate error"))
      | (db, _, none) => (db, .ok block)

/-- `BestBlock`; `none` is the nil block of a failed `Rebase`. -/
def bestBlock (c : BlockChainConsensus) (db : σ) : σ × Option Block :=
  match newMptWorldState db with
  | (db, none) => (db, none)
  | (db, some state) =>
    match state.rebase db c.state.rootHash with
    | (db, _, some _) => (db, none)
    | (db, state, none) => (db, some (c.tip.clone state))

/-- The longest list that `Descendents` returns. -/
def maxBlocks : Int := 100

/-- The loop of `Descendents` over the main list: a block comes after its uncles, and only if they fit.
`none` is a loop that does not end. -/
def descendentsFrom (db : σ) (parent : Byte64) (max : Nat) :
    Nat → Option ChainNode → List Block → Nat → Option (List Block × Option Err)
  | _, none, descendents, _ => some (descendents, none)
  | fuel, some node, descendents, count =>
    if max ≤ count then some (descendents, none)
    else
      match fuel with
      | 0 => none
      | fuel + 1 =>
        match getBlock db node.hash with
        | none => some (descendents, some (.db "not found"))
        | some block =>
          if max ≤ count + block.uncles.length then some (descendents, none)
          else
            match block.uncles.mapM (getBlock db) with
            | none => some (descendents, some (.db "not found"))
            | some uncles =>
              -- the parent is where the list starts, and not in it
              let own := if block.hash = some parent then [] else [block]
              descendentsFrom db parent max fuel (findMainListChild db node none) (descendents ++ uncles ++ own)
                (count + uncles.length + own.length)

/-- `Descendents`; `none` is the panic of `make` with a negative capacity. -/
def descendents (db : σ) (parent : Byte64) (max : Int) : Option (List Block × Option Err) :=
  let max := min max maxBlocks
  if max < 0 then none
  else
    match getChainNode db parent with
    | none => some ([], some (.db "not found"))
    | some parentNode =>
      if !parentNode.isMainList then some ([], some (.core .notMainList "parent not on mainlist"))
      else descendentsFrom db parent max.toNat (max.toNat + 1) (some parentNode) [] 0

end TrustNet
