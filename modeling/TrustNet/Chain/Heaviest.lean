import TrustNet.Chain.Calls
import TrustNet.Core.Digests

/-!
# The block chain of package `core/chain` follows its heaviest branch

`addBlock` attaches a leaf to the stored tree and moves the main list to it when it is
heavier than the cached weight (`addBlock_attaches`). As long as that weight is the one of
the tip, the tip is a heaviest node and the main list is its branch (`Heaviest`). A restart
does not read the weight back, so a chain with a tip of weight other than zero loses it.
-/

namespace TrustNet.Chain
set_option autoImplicit false
open MarkedTree ParentTree

/-- The stored nodes form a tree whose main list is the branch of `tip`, and the stored blocks are those of the nodes. -/
structure Sound (g : Byte64) (db : Db) (tip : Byte64) : Prop where
  tree : Tree db g
  complete : Complete db
  main : Branch db g tip
  dagTip : getDagTip db = some tip
  specs : ∀ h, (blockSpec db h).map BlockSpec.weight = (blockNode db h).map BlockNode.weight

/-- The chain's fields after a block was added. -/
def BlockChainInMem.extended (chain : BlockChainInMem) (block : BlockSpec) (hash : Byte64) : BlockChainInMem :=
  if chain.weight < block.weight then
    { chain with td := block.timestamp, depth := block.depth, weight := block.weight, tip := hash }
  else chain

section Add

variable {g hash : Byte64} {db : Db} {chain : BlockChainInMem} {block : BlockSpec} {parent : BlockNode}

theorem weight_of_payload {s s' : Option BlockNode}
    (same : s'.map (NodeStore.payload Db) = s.map (NodeStore.payload Db)) :
    s'.map BlockNode.weight = s.map BlockNode.weight := by
  have eq := congrArg (Option.map fun p : UInt64 × UInt64 × Byte64 => p.2.1) same
  rw [Option.map_map, Option.map_map] at eq
  exact eq

/-- What an attached leaf makes of a sound database, once its block and the tip are written. -/
theorem Sound.attached {tip tip' : Byte64} {db' : Db} (sound : Sound g db tip)
    (attached : Attached db g (newBlockNode block hash) tip' db') (dagTip : getDagTip db' = some tip')
    (specs : ∀ h, blockSpec db' h = if h = hash then some block else blockSpec db h) :
    Sound g db' tip' ∧ ∀ h, (blockNode db' h).map BlockNode.weight =
      if h = hash then some block.weight else (blockNode db h).map BlockNode.weight := by
  have weights : ∀ h, (blockNode db' h).map BlockNode.weight =
      if h = hash then some block.weight else (blockNode db h).map BlockNode.weight := by
    intro h
    have payload := attached.payloads h
    split
    · rename_i eq
      rw [if_pos (show h = NodeStore.key Db (newBlockNode block hash) from eq)] at payload
      exact weight_of_payload (s := some (newBlockNode block hash)) payload
    · rename_i ne
      rw [if_neg (show ¬ h = NodeStore.key Db (newBlockNode block hash) from ne)] at payload
      exact weight_of_payload payload
  refine ⟨⟨attached.tree, attached.complete, attached.main, dagTip, fun h => ?_⟩, weights⟩
  rw [weights, specs]
  split
  · rfl
  · exact sound.specs h

/-- The database once the block is written and its parent lists it. -/
def linkBlock (db : Db) (block : BlockSpec) (hash : Byte64) (parent : BlockNode) : Db :=
  saveBlockNode (saveBlock db hash block) (parent.addChild hash)

theorem blockNode_linkBlock (k : Byte64) :
    blockNode (linkBlock db block hash parent) k = blockNode (saveBlockNode db (parent.addChild hash)) k := by
  unfold linkBlock
  rw [blockNode_saveBlockNode, blockNode_saveBlockNode, blockNode_saveBlock]

theorem blockSpec_linkBlock (h : Byte64) :
    blockSpec (linkBlock db block hash parent) h = if h = hash then some block else blockSpec db h := by
  unfold linkBlock
  rw [blockSpec_saveBlockNode, blockSpec_saveBlock]

theorem addBlock_heavier (heavier : chain.weight < block.weight) {db' : Db}
    (moved : moveMarks (putDagTip (linkBlock db block hash parent) hash) (newBlockNode block hash)
      (parent.addChild hash) = (db', none)) :
    addBlock chain db block hash parent = (chain.extended block hash, db', .ok) := by
  unfold addBlock BlockChainInMem.extended
  rw [if_pos heavier]
  simp only
  rw [if_pos (show chain.weight < (newBlockNode block hash).weight from heavier)]
  unfold linkBlock at moved
  rw [moved]
  rfl

theorem addBlock_lighter (lighter : ¬ chain.weight < block.weight) :
    addBlock chain db block hash parent =
      (chain.extended block hash, saveBlockNode (linkBlock db block hash parent) (newBlockNode block hash), .ok) := by
  unfold addBlock BlockChainInMem.extended
  rw [if_neg lighter]
  simp only
  rw [if_neg (show ¬ chain.weight < (newBlockNode block hash).weight from lighter)]
  rfl

/-- **What `addBlock` does**: it ends, the new block is one more leaf, and the main list follows the tip. -/
theorem addBlock_attaches (sound : Sound g db chain.tip) (fresh : blockNode db hash = none)
    (found : blockNode db block.parentHash = some parent) :
    ∃ db', addBlock chain db block hash parent = (chain.extended block hash, db', .ok) ∧
      Sound g db' (chain.extended block hash).tip ∧
      ∀ h, (blockNode db' h).map BlockNode.weight =
        if h = hash then some block.weight else (blockNode db h).map BlockNode.weight := by
  have keyed : parent.hash = block.parentHash := sound.tree.keyed found
  have stored : blockNode db parent.hash = some parent := by rw [keyed]; exact found
  by_cases heavier : chain.weight < block.weight
  · obtain ⟨db', moved, attached⟩ := attach_main (x := newBlockNode block hash)
      (l := putDagTip (linkBlock db block hash parent) hash) sound.tree sound.complete sound.main fresh stored rfl
      keyed.symm (fun k => (blockNode_putDagTip _ _ _).trans (blockNode_linkBlock k)) (Nat.le_add_right _ 2)
    have written := congrArg Prod.fst moved
    have tip : (chain.extended block hash).tip = hash := by
      unfold BlockChainInMem.extended
      rw [if_pos heavier]
    refine ⟨db', addBlock_heavier heavier moved, ?_⟩
    rw [tip]
    apply sound.attached attached
    · have frame := moveMarks_frame (f := getDagTip) getDagTip_saveBlockNode
        (putDagTip (linkBlock db block hash parent) hash) (newBlockNode block hash) (parent.addChild hash)
      exact (congrArg getDagTip written).symm.trans (frame.trans (getDagTip_putDagTip _ _))
    · intro h
      have frame := moveMarks_frame (f := fun db => blockSpec db h) (fun s n => blockSpec_saveBlockNode s h n)
        (putDagTip (linkBlock db block hash parent) hash) (newBlockNode block hash) (parent.addChild hash)
      rw [blockSpec_putDagTip, blockSpec_linkBlock] at frame
      exact (congrArg (fun db => blockSpec db h) written).symm.trans frame
  · have attached := attach_side (x := newBlockNode block hash) (l := linkBlock db block hash parent)
      sound.tree sound.complete sound.main fresh stored rfl keyed.symm blockNode_linkBlock (Nat.le_add_right _ 1) rfl
    have tip : (chain.extended block hash).tip = chain.tip := by
      unfold BlockChainInMem.extended
      rw [if_neg heavier]
    refine ⟨_, addBlock_lighter heavier, ?_⟩
    rw [tip]
    apply sound.attached attached
    · refine (getDagTip_saveBlockNode _ _).trans ?_
      unfold linkBlock
      rw [getDagTip_saveBlockNode, getDagTip_saveBlock]
      exact sound.dagTip
    · intro h
      exact (blockSpec_saveBlockNode _ _ _).trans (blockSpec_linkBlock h)

end Add

/-! ## The heaviest branch -/

/-- The cached weight is the one of the tip, and no node is heavier. -/
structure Heaviest (g : Byte64) (db : Db) (chain : BlockChainInMem) : Prop where
  sound : Sound g db chain.tip
  tip : (blockNode db chain.tip).map BlockNode.weight = some chain.weight
  heaviest : ∀ h w, (blockNode db h).map BlockNode.weight = some w → w ≤ chain.weight

/-- The weight of the node that the database has for the tip. -/
def storedWeight (db : Db) : Option UInt64 := do
  let node ← blockNode db (← getDagTip db)
  some node.weight

/-- A restart is made while the tip weighs nothing; the chain is not flushed. -/
def Unweighted (s : Session) : Call → Prop
  | .restart => storedWeight s.db = some 0
  | .flush => False
  | _ => True

instance (s : Session) : (call : Call) → Decidable (Unweighted s call)
  | .restart => inferInstanceAs (Decidable (storedWeight s.db = some 0))
  | .flush => instDecidableFalse
  | .addBlockNode _ | .addNetworkNode _ | .blocks _ _ | .blockNode _ | .tip => instDecidableTrue

section Run

variable {g hash : Byte64} {db : Db} {chain : BlockChainInMem} {genesis block : BlockSpec} {parent : BlockNode}

theorem Heaviest.addBlock (heaviest : Heaviest g db chain) (fresh : blockNode db hash = none)
    (found : blockNode db block.parentHash = some parent) :
    ∃ chain' db', Chain.addBlock chain db block hash parent = (chain', db', .ok) ∧ Heaviest g db' chain' := by
  obtain ⟨db', added, sound, weights⟩ := addBlock_attaches heaviest.sound fresh found
  refine ⟨_, db', added, sound, ?_, ?_⟩
  · unfold BlockChainInMem.extended
    split
    · rw [weights, if_pos rfl]
    · have ne : chain.tip ≠ hash := by
        rintro rfl
        have stored := heaviest.sound.main.1
        change (blockNode db chain.tip).isSome = true at stored
        rw [fresh] at stored
        cases stored
      rw [weights, if_neg ne]
      exact heaviest.tip
  · intro h w stored
    rw [weights] at stored
    unfold BlockChainInMem.extended
    split at stored
    · cases stored
      split
      · exact UInt64.le_refl _
      · rename_i lighter
        exact UInt64.not_lt.mp lighter
    · have le := heaviest.heaviest h w stored
      split
      · rename_i heavier
        exact UInt64.le_of_lt (UInt64.lt_of_le_of_lt le heavier)
      · exact le

/-- The database of a fresh chain. -/
def genesisDb (genesis : BlockSpec) (g : Byte64) : Db :=
  saveBlockNode (saveBlock (putDagTip WriteLog.empty g) g genesis) ((newBlockNode genesis g).setMainList true)

theorem blockNode_genesisDb (genesis : BlockSpec) (g h : Byte64) :
    blockNode (genesisDb genesis g) h = if h = g then some ((newBlockNode genesis g).setMainList true) else none := by
  unfold genesisDb
  rw [blockNode_saveBlockNode, blockNode_saveBlock, blockNode_putDagTip]
  rfl

theorem blockSpec_genesisDb (genesis : BlockSpec) (g h : Byte64) :
    blockSpec (genesisDb genesis g) h = if h = g then some genesis else none := by
  unfold genesisDb
  rw [blockSpec_saveBlockNode, blockSpec_saveBlock, blockSpec_putDagTip]
  rfl

theorem getDagTip_genesisDb (genesis : BlockSpec) (g : Byte64) : getDagTip (genesisDb genesis g) = some g := by
  unfold genesisDb
  rw [getDagTip_saveBlockNode, getDagTip_saveBlock, getDagTip_putDagTip]

/-- A fresh chain is its genesis. -/
theorem sound_genesis (genesis : BlockSpec) (g : Byte64) : Sound g (genesisDb genesis g) g := by
  have read : ∀ {h n}, blockNode (genesisDb genesis g) h = some n →
      h = g ∧ n = (newBlockNode genesis g).setMainList true := by
    intro h n found
    rw [blockNode_genesisDb] at found
    split at found
    · rename_i eq
      exact ⟨eq, (Option.some.inj found).symm⟩
    · cases found
  have stored : blockNode (genesisDb genesis g) g = some ((newBlockNode genesis g).setMainList true) := by
    rw [blockNode_genesisDb, if_pos rfl]
  have noParent : ∀ k, parentOf (genesisDb genesis g) g k = none := by
    intro k
    unfold parentOf
    split
    · rfl
    · rename_i ne
      change (blockNode (genesisDb genesis g) k).map _ = none
      rw [blockNode_genesisDb, if_neg ne]
      rfl
  refine ⟨⟨?_, ?_, ?_, ?_, fun _ => 0, ?_, ?_⟩, ?_, ⟨?_, fun k => ⟨?_, ?_⟩⟩, getDagTip_genesisDb genesis g, ?_⟩
  · intro k n found
    obtain ⟨rfl, rfl⟩ := read found
    rfl
  · exact Option.isSome_of_eq_some stored
  · intro k n found ne
    exact absurd (read found).1 ne
  · intro p pn c cn found member
    obtain ⟨-, rfl⟩ := read found
    cases member
  · intro a b edge
    rw [noParent] at edge
    cases edge
  · intro k _
    exact Nat.succ_pos _
  · intro k n c found member
    obtain ⟨-, rfl⟩ := read found
    cases member
  · exact Option.isSome_of_eq_some stored
  · rintro ⟨n, found, -⟩
    rw [(read found).1]
    exact Anc.refl
  · intro up
    rcases up.cases_head with rfl | ⟨p, edge, -⟩
    · exact ⟨_, stored, rfl⟩
    · rw [noParent] at edge
      cases edge
  · intro h
    rw [blockNode_genesisDb, blockSpec_genesisDb]
    split
    · rfl
    · rfl

/-- A fresh chain with a genesis block that weighs nothing. -/
theorem heaviest_genesis (light : genesis.weight = 0) {td depth : UInt64} {node : BlockNode} :
    Heaviest g (genesisDb genesis g) ⟨node, g, td, depth, 0⟩ := by
  refine ⟨sound_genesis genesis g, ?_, ?_⟩
  · rw [blockNode_genesisDb, if_pos rfl]
    exact congrArg some light
  · intro h w stored
    rw [blockNode_genesisDb] at stored
    split at stored
    · cases stored
      exact UInt64.le_of_eq light
    · cases stored

variable [Sha512]

theorem fresh_eq (genesis : BlockSpec) (g : Byte64) :
    Session.fresh genesis g = ⟨genesisDb genesis g,
      some ⟨(newBlockNode genesis g).setMainList true, g, genesis.timestamp, 0, 0⟩⟩ := rfl

/-- The session has a chain that follows its heaviest branch. -/
def Followed (g : Byte64) (s : Session) : Prop := ∃ chain, s.chain = some chain ∧ Heaviest g s.db chain

variable {s : Session}

/-- A restart while the tip weighs nothing finds the chain as it was. -/
theorem Heaviest.restart (genesis : BlockSpec) (heaviest : Heaviest g s.db chain) (light : storedWeight s.db = some 0) :
    Followed g (s.next genesis g .restart) := by
  obtain ⟨node, found, weight⟩ := Option.map_eq_some_iff.mp heaviest.tip
  have specs := heaviest.sound.specs chain.tip
  rw [found, Option.map_some] at specs
  obtain ⟨block, stored, -⟩ := Option.map_eq_some_iff.mp specs
  have zero : chain.weight = 0 := by
    simp only [storedWeight, heaviest.sound.dagTip, Option.bind_eq_bind, Option.bind_some, found] at light
    rw [← weight]
    exact Option.some.inj light
  have opened : s.next genesis g .restart = ⟨s.db, some
      ⟨(newBlockNode genesis g).setMainList true, chain.tip, block.timestamp, node.depth, chain.weight⟩⟩ := by
    simp only [Session.next, Session.step, newBlockChainInMem, getBlock, heaviest.sound.dagTip, found, stored,
      Option.map_some, zero]
    rfl
  rw [opened]
  exact ⟨_, rfl, heaviest.sound, heaviest.tip, heaviest.heaviest⟩

/-- One call keeps a chain on its heaviest branch. -/
theorem Followed.next (genesis : BlockSpec) (followed : Followed g s) {call : Call} (unweighted : Unweighted s call) :
    Followed g (s.next genesis g call) := by
  obtain ⟨chain, some_chain, heaviest⟩ := followed
  have kept : Followed g s := ⟨chain, some_chain, heaviest⟩
  cases call with
  | restart => exact heaviest.restart genesis unweighted
  | addBlockNode block =>
    simp only [Session.next, Session.step, Session.on, some_chain, addBlockNode_eq]
    cases admitted : admitNew s.db block with
    | error e => exact ⟨chain, rfl, heaviest⟩
    | ok r =>
      obtain ⟨fresh, found⟩ := admitNew_ok admitted
      obtain ⟨chain', db', done, heaviest'⟩ := heaviest.addBlock fresh found
      simp only [done]
      exact ⟨chain', rfl, heaviest'⟩
  | addNetworkNode block =>
    simp only [Session.next, Session.step, Session.on, some_chain, addNetworkNode_eq]
    cases admitted : admitNetwork s.db block with
    | error e => exact ⟨chain, rfl, heaviest⟩
    | ok r =>
      obtain ⟨fresh, found⟩ := admitNetwork_ok admitted
      obtain ⟨chain', db', done, heaviest'⟩ := heaviest.addBlock fresh found
      simp only [done]
      exact ⟨chain', rfl, heaviest'⟩
  | flush => exact unweighted.elim
  | blocks parent max =>
    simp only [Session.next, Session.step, Session.on, some_chain]
    exact kept
  | blockNode hash =>
    simp only [Session.next, Session.step, Session.on, some_chain]
    exact kept
  | tip =>
    simp only [Session.next, Session.step, Session.on, some_chain]
    exact kept

/-- `Weight()` is the weight of the tip node, no stored node or block is heavier than the tip, and the nodes flagged
main-list are exactly the tip and its ancestors. -/
def FollowsHeaviest (g : Byte64) (s : Session) : Prop :=
  ∃ chain tip, s.chain = some chain ∧ chain.tipNode s.db = some tip ∧ chain.weight = tip.weight ∧
    (∀ h node, blockNode s.db h = some node → node.weight ≤ tip.weight) ∧
    (∀ h b, getBlock s.db h = some b → b.weight ≤ tip.weight) ∧
    ∀ h node, blockNode s.db h = some node → (node.isMainList = true ↔ Anc (parentOf s.db g) tip.hash h)

/-- **The chain follows its heaviest branch**, on a genesis block of weight zero, after any calls with restarts only
while the tip weighs nothing. -/
theorem follows_heaviest (genesis : BlockSpec) (g : Byte64) (light : genesis.weight = 0) (calls : List Call)
    (unweighted : Transition.Along (Session.next genesis g) Unweighted (Session.fresh genesis g) calls) :
    FollowsHeaviest g ((Session.fresh genesis g).run genesis g calls) := by
  have start : Followed g (Session.fresh genesis g) := by
    rw [fresh_eq]
    exact ⟨_, rfl, heaviest_genesis light⟩
  obtain ⟨chain, some_chain, heaviest⟩ :=
    unweighted.invariant (Followed g) (fun s call followed kept => followed.next genesis kept) start
  change ((Session.fresh genesis g).run genesis g calls).chain = some chain at some_chain
  change Heaviest g ((Session.fresh genesis g).run genesis g calls).db chain at heaviest
  generalize (Session.fresh genesis g).run genesis g calls = s at some_chain heaviest ⊢
  obtain ⟨tip, found, weight⟩ := Option.map_eq_some_iff.mp heaviest.tip
  refine ⟨chain, tip, some_chain, found, weight.symm, ?_, ?_, ?_⟩
  · intro h node stored
    rw [weight]
    exact heaviest.heaviest h _ (by rw [stored]; rfl)
  · intro h b stored
    obtain ⟨spec, read, rfl⟩ := Option.map_eq_some_iff.mp stored
    have eq := heaviest.sound.specs h
    rw [read] at eq
    rw [weight]
    exact heaviest.heaviest h _ eq.symm
  · intro h node stored
    have keyed : tip.hash = chain.tip := heaviest.sound.tree.keyed found
    rw [keyed, ← heaviest.sound.main.2 h]
    constructor
    · exact fun on => ⟨node, stored, on⟩
    · rintro ⟨n, read, on⟩
      rw [show blockNode s.db h = some n from read] at stored
      cases stored
      exact on

end Run

/-! ## Worked runs -/

namespace Worked

/-- Genesis at time 1. -/
def genesisDigest : Nat :=
  0xc8be612a5273352c330bc1594b82c770f48f26334c91ba3cfb7e6ba8b056298070f132cadfbb640b868ecf9cfd7e772660af3d492a471b50d35d9a92cdac2090

/-- A child of genesis. -/
def firstDigest : Nat :=
  0xa2b687dfdba612d21587c89b3e4076b185ed185307109be78282a0e010852963fd8a64ae4e2fa1b55ee1c51a2b3f6f0f5d89a3288ed90452b4498fb7aed784d8

/-- Its child. -/
def secondDigest : Nat :=
  0xefa3d7c0c82f48e8cbfddb491934518a984658b2f46f436bcb2e1a396e32128340d76bdc87cb4e0e23bb8dc0d6a2b783858e0d444c9a3427feb90a9b246c6462

/-- Another child of genesis. -/
def rivalDigest : Nat :=
  0x13036aa5d4351421ee8a3d561c8105b18e943e924279caa2cacf55ebf5bcce715c3739f1342e408d0b0e31601e2fcb8bae2f34ae18dcb3d0694b271bfafd5f4a

/-- The child of the first block with that one for an uncle. -/
def joinedDigest : Nat :=
  0x8ff6a82b1671debea98c5c60c65107bd2c71b2437618b01ff834d4eff51303c817af5734781363a714fab7895c8dbd587c5dab9da2acedf782eb7836efb1c15d

/-- SHA-512 on the blocks below. -/
@[reducible] def sha512 : Sha512 := Sha512.ofRows [
  (270282440420755304, genesisDigest),
  (1380101785667207673, firstDigest),
  (1313815750242404616, secondDigest),
  (989040189958677130, rivalDigest),
  (1850295022675433829, joinedDigest)]

attribute [local instance] sha512

def genesis : BlockSpec := (newSimpleBlock null 0 0 1 [] 0).toBlockSpec

def first : SimpleBlock := newSimpleBlock (digest genesisDigest) 1 1 2 [] 0

def second : SimpleBlock := newSimpleBlock (digest firstDigest) 2 2 3 [] 0

def rival : SimpleBlock := newSimpleBlock (digest genesisDigest) 1 1 4 [] 0

/-- The calls on a fresh chain with this genesis. -/
def after (calls : List Call) : Session :=
  (Session.fresh genesis (digest genesisDigest)).run genesis (digest genesisDigest) calls

/-- `Weight()`, and the weights of the tip and of the second block. -/
def weights (s : Session) : Option (UInt64 × UInt64 × UInt64) := do
  let chain ← s.chain
  let tip ← chain.tipNode s.db
  let node ← blockNode s.db (digest secondDigest)
  some (chain.weight, tip.weight, node.weight)

theorem weights_of_followed {s : Session} {g : Byte64} (follows : FollowsHeaviest g s) {w t n : UInt64}
    (read : weights s = some (w, t, n)) : w = t ∧ n ≤ t := by
  obtain ⟨chain, tip, some_chain, found, weight, nodes, -, -⟩ := follows
  simp only [weights, some_chain, found, Option.bind_eq_bind, Option.bind_some, Option.bind_eq_some_iff,
    Option.some.injEq, Prod.mk.injEq] at read
  obtain ⟨node, stored, rfl, rfl, rfl⟩ := read
  exact ⟨weight, nodes _ _ stored⟩

/-- After a restart the weight is zero on a tip of weight 2, and a block of weight 1 becomes the tip. -/
theorem restart_forgets_weight :
    ¬ FollowsHeaviest (digest genesisDigest)
      (after [.addBlockNode (some first), .addBlockNode (some second), .restart]) ∧
    ¬ FollowsHeaviest (digest genesisDigest)
      (after [.addBlockNode (some first), .addBlockNode (some second), .restart, .addBlockNode (some rival)]) := by
  constructor
  · intro follows
    have read : weights (after [.addBlockNode (some first), .addBlockNode (some second), .restart]) =
      some (0, 2, 2) := by decide +kernel
    exact absurd (weights_of_followed follows read).1 (by decide)
  · intro follows
    have read : weights (after [.addBlockNode (some first), .addBlockNode (some second), .restart,
      .addBlockNode (some rival)]) = some (1, 1, 2) := by decide +kernel
    exact absurd (weights_of_followed follows read).2 (by decide)

end Worked

section Worked

attribute [local instance] Worked.sha512

theorem follows_heaviest_forked : FollowsHeaviest (digest Worked.genesisDigest)
    (Worked.after [.restart, .addBlockNode (some Worked.first), .addBlockNode (some Worked.rival),
      .addBlockNode (some Worked.second)]) :=
  follows_heaviest Worked.genesis _ rfl _ (by decide +kernel)

end Worked

end TrustNet.Chain
