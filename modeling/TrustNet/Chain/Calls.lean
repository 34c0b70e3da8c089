import TrustNet.Chain.BlockChain

/-!
# What the calls of a block chain read

Two databases with the same tip, nodes and blocks may differ in their logs (`SameReads`).
`AddBlockNode` and `AddNetworkNode` first decide on what they read whether to refuse the
block (`admitNew`, `admitNetwork`), and a call that refuses changes nothing.
-/

namespace TrustNet.Chain
set_option autoImplicit false
open MarkedTree

/-- The databases hold the same tip, nodes and blocks. -/
structure SameReads (db db' : Db) : Prop where
  tip : getDagTip db = getDagTip db'
  nodes : ∀ h, blockNode db h = blockNode db' h
  specs : ∀ h, blockSpec db h = blockSpec db' h

section Reads

variable {db db' : Db}

theorem SameReads.refl (db : Db) : SameReads db db := ⟨rfl, fun _ => rfl, fun _ => rfl⟩

theorem SameReads.symm (same : SameReads db db') : SameReads db' db :=
  ⟨same.tip.symm, fun h => (same.nodes h).symm, fun h => (same.specs h).symm⟩

theorem SameReads.putDagTip (same : SameReads db db') (tip : Byte64) :
    SameReads (Chain.putDagTip db tip) (Chain.putDagTip db' tip) := by
  refine ⟨?_, fun h => ?_, fun h => ?_⟩
  · rw [getDagTip_putDagTip, getDagTip_putDagTip]
  · rw [blockNode_putDagTip, blockNode_putDagTip, same.nodes]
  · rw [blockSpec_putDagTip, blockSpec_putDagTip, same.specs]

theorem SameReads.saveBlock (same : SameReads db db') (hash : Byte64) (b : BlockSpec) :
    SameReads (Chain.saveBlock db hash b) (Chain.saveBlock db' hash b) := by
  refine ⟨?_, fun h => ?_, fun h => ?_⟩
  · rw [getDagTip_saveBlock, getDagTip_saveBlock, same.tip]
  · rw [blockNode_saveBlock, blockNode_saveBlock, same.nodes]
  · rw [blockSpec_saveBlock, blockSpec_saveBlock, same.specs]

theorem SameReads.saveBlockNode (same : SameReads db db') (n : BlockNode) :
    SameReads (Chain.saveBlockNode db n) (Chain.saveBlockNode db' n) := by
  refine ⟨?_, fun h => ?_, fun h => ?_⟩
  · rw [getDagTip_saveBlockNode, getDagTip_saveBlockNode, same.tip]
  · rw [blockNode_saveBlockNode, blockNode_saveBlockNode, same.nodes]
  · rw [blockSpec_saveBlockNode, blockSpec_saveBlockNode, same.specs]

/-- Walks of the main list that end read the same afterwards. -/
theorem SameReads.moveMarks (same : SameReads db db') {child parent : BlockNode} {d d' : Db}
    (moved : MarkedTree.moveMarks db child parent = (d, none))
    (moved' : MarkedTree.moveMarks db' child parent = (d', none)) : SameReads d d' := by
  have first := congrArg Prod.fst moved
  have first' := congrArg Prod.fst moved'
  refine ⟨?_, ?_, fun h => ?_⟩
  · have frame := fun db => moveMarks_frame (f := getDagTip) getDagTip_saveBlockNode db child parent
    calc getDagTip d = getDagTip db := by rw [← frame db, first]
      _ = getDagTip db' := same.tip
      _ = getDagTip d' := by rw [← frame db', first']
  · exact SameNodes.moveMarks (s := db) (t := db') same.nodes moved moved'
  · have frame := fun db => moveMarks_frame (f := fun db => blockSpec db h) (fun s n => blockSpec_saveBlockNode s h n)
      db child parent
    calc blockSpec d h = blockSpec db h := by rw [← frame db, first]
      _ = blockSpec db' h := same.specs h
      _ = blockSpec d' h := by rw [← frame db', first']

theorem SameReads.findMainListChild (same : SameReads db db') (node : BlockNode) (skip : Option BlockNode) :
    Chain.findMainListChild db node skip = Chain.findMainListChild db' node skip :=
  SameNodes.markedChild_eq (s := db) (t := db') same.nodes node skip

variable [Sha512]

theorem SameReads.getBlock (same : SameReads db db') (h : Byte64) : Chain.getBlock db h = Chain.getBlock db' h := by
  unfold Chain.getBlock
  rw [same.specs]

theorem SameReads.findNonDirectAncestors (same : SameReads db db') (maxDepth : UInt64) (distance : Nat) (node : Byte64) :
    Chain.findNonDirectAncestors db maxDepth distance node = Chain.findNonDirectAncestors db' maxDepth distance node := by
  induction distance generalizing node with
  | zero => rfl
  | succ distance ih => simp only [Chain.findNonDirectAncestors, same.nodes, same.getBlock, ih]

theorem SameReads.findUncles (same : SameReads db db') (maxDepth : UInt64) (distance : Nat) (grandParent parent : Byte64) :
    Chain.findUncles db maxDepth distance grandParent parent =
      Chain.findUncles db' maxDepth distance grandParent parent := by
  induction distance generalizing grandParent parent with
  | zero => rfl
  | succ distance ih =>
    simp only [Chain.findUncles, same.nodes, same.getBlock, same.findNonDirectAncestors, ih]

theorem SameReads.blocks (same : SameReads db db') (parent : Byte64) (max : UInt64) :
    Chain.blocks db parent max = Chain.blocks db' parent max := by
  have loop : ∀ count node, mainListFrom db count node = mainListFrom db' count node := by
    intro count
    induction count with
    | zero => exact fun _ => rfl
    | succ count ih =>
      intro node
      cases node with
      | none => rfl
      | some node => simp only [mainListFrom, same.getBlock, same.findMainListChild, ih]
  simp only [Chain.blocks, same.nodes, same.findMainListChild, loop]

/-! ## The calls -/

omit [Sha512] in
theorem parentHash_addUncles (uncles : List Uncle) (b : SimpleBlock) :
    (uncles.foldl (fun b uncle => SimpleBlock.addUncle b uncle.hash 1) b).parentHash = b.parentHash := by
  induction uncles generalizing b with
  | nil => rfl
  | cons uncle uncles ih => exact ih _

/-- The checks of `AddBlockNode`: the error, or the block to add, its hash and its parent. -/
def admitNew (db : Db) (coreBlock : Option SimpleBlock) :
    Except (Option SimpleBlock × ErrCode × String) (SimpleBlock × Byte64 × BlockNode) :=
  match coreBlock with
  | none => .error (none, .invalidBlock, "nil block")
  | some block =>
    if block.hash.isSome then .error (some block, .invalidBlock, "block has precomputed hash")
    else
      match blockNode db block.parentHash with
      | none => .error (some block, .orphanBlock, "orphan block")
      | some parent =>
        if block.uncles.length ≠ 0 then .error (some block, .invalidBlock, "new block cannot have uncles")
        else
          let uncles := Chain.findUncles db parent.depth maxUncleDistance parent.parent parent.hash
          let block := uncles.foldl (fun b uncle => SimpleBlock.addUncle b uncle.hash 1) block
          if (blockNode db (sum512 block.data)).isSome then
            .error (some block.computeHash, .duplicateBlock, "duplicate block")
          else .ok (block.computeHash, sum512 block.data, parent)

/-- The checks of `AddNetworkNode`. -/
def admitNetwork (db : Db) (coreBlock : Option SimpleBlock) :
    Except (ErrCode × String) (SimpleBlock × Byte64 × BlockNode) :=
  match coreBlock with
  | none => .error (.invalidBlock, "nil block")
  | some block =>
    match block.hash with
    | none => .error (.invalidHash, "block does not have hash computed")
    | some hash =>
      if (blockNode db hash).isSome then .error (.duplicateBlock, "duplicate block")
      else
        match blockNode db block.parentHash with
        | none => .error (.orphanBlock, "orphan block")
        | some parent =>
          if block.uncles.all fun uncle => (blockNode db uncle).isSome then .ok (block, hash, parent)
          else .error (.invalidUncle, "unknown uncle")

/-- `AddBlockNode` is its checks, then `addBlock`. -/
theorem addBlockNode_eq (chain : BlockChainInMem) (db : Db) (coreBlock : Option SimpleBlock) :
    addBlockNode chain db coreBlock = match admitNew db coreBlock with
      | .error (b, code, msg) => (chain, db, b, .error code msg)
      | .ok (b, hash, parent) =>
        ((addBlock chain db b.toBlockSpec hash parent).1, (addBlock chain db b.toBlockSpec hash parent).2.1, some b,
          (addBlock chain db b.toBlockSpec hash parent).2.2) := by
  unfold addBlockNode admitNew
  cases coreBlock with
  | none => rfl
  | some block =>
    simp only
    split
    · rfl
    · cases blockNode db block.parentHash with
      | none => rfl
      | some parent =>
        simp only
        split
        · rfl
        · split
          · rfl
          · rfl

omit [Sha512] in
/-- `AddNetworkNode` is its checks, then `addBlock`. -/
theorem addNetworkNode_eq (chain : BlockChainInMem) (db : Db) (coreBlock : Option SimpleBlock) :
    addNetworkNode chain db coreBlock = match admitNetwork db coreBlock with
      | .error (code, msg) => (chain, db, .error code msg)
      | .ok (b, hash, parent) => addBlock chain db b.toBlockSpec hash parent := by
  unfold addNetworkNode admitNetwork
  cases coreBlock with
  | none => rfl
  | some block =>
    simp only
    cases block.hash with
    | none => rfl
    | some hash =>
      simp only
      split
      · rfl
      · cases blockNode db block.parentHash with
        | none => rfl
        | some parent =>
          simp only
          split
          · rfl
          · rfl

theorem SameReads.admitNew (same : SameReads db db') (coreBlock : Option SimpleBlock) :
    Chain.admitNew db coreBlock = Chain.admitNew db' coreBlock := by
  simp only [Chain.admitNew, same.nodes, same.findUncles]

omit [Sha512] in
theorem SameReads.admitNetwork (same : SameReads db db') (coreBlock : Option SimpleBlock) :
    Chain.admitNetwork db coreBlock = Chain.admitNetwork db' coreBlock := by
  simp only [Chain.admitNetwork, same.nodes]

variable {coreBlock : Option SimpleBlock} {b : SimpleBlock} {hash : Byte64} {parent : BlockNode}

/-- An admitted block is new, and its parent is stored. -/
theorem admitNew_ok (admitted : Chain.admitNew db coreBlock = .ok (b, hash, parent)) :
    blockNode db hash = none ∧ blockNode db b.parentHash = some parent := by
  unfold Chain.admitNew at admitted
  split at admitted
  · cases admitted
  · rename_i block
    split at admitted
    · cases admitted
    · split at admitted
      · cases admitted
      · rename_i found
        split at admitted
        · cases admitted
        · simp only at admitted
          split at admitted
          · cases admitted
          · rename_i absent
            cases admitted
            refine ⟨by simpa using absent, ?_⟩
            exact (congrArg (blockNode db) (parentHash_addUncles _ block)).trans found

omit [Sha512] in
theorem admitNetwork_ok (admitted : Chain.admitNetwork db coreBlock = .ok (b, hash, parent)) :
    blockNode db hash = none ∧ blockNode db b.parentHash = some parent := by
  unfold Chain.admitNetwork at admitted
  split at admitted
  · cases admitted
  · split at admitted
    · cases admitted
    · split at admitted
      · cases admitted
      · rename_i absent
        split at admitted
        · cases admitted
        · rename_i found
          split at admitted
          · cases admitted
            exact ⟨by simpa using absent, found⟩
          · cases admitted

end Reads

end TrustNet.Chain
