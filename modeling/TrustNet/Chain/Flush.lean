import TrustNet.Chain.Heaviest

/-!
# What `Flush` leaves behind

`Flush` deletes the main list below genesis. Genesis itself keeps its list of children,
side forks keep their nodes, and the cached weight stays, so a flushed chain replies as a
fresh one exactly if no block was ever accepted: a genesis that has a child keeps one
through every later call (`Settled`). Two sessions reply the same as long as their
chains are equal and their databases read the same (`Alike`). The databases are not equal,
so the walks along the main list run with different fuel; they agree because both end.
-/

namespace TrustNet.Chain
set_option autoImplicit false
open MarkedTree

/-! ## Sessions that reply the same -/

/-- The sessions have one chain, sound on databases that read the same. -/
structure Alike (g : Byte64) (s t : Session) (chain : BlockChainInMem) : Prop where
  left : s.chain = some chain
  right : t.chain = some chain
  reads : SameReads s.db t.db
  soundLeft : Sound g s.db chain.tip
  soundRight : Sound g t.db chain.tip

section Alike

variable {g hash : Byte64} {db db' d : Db} {chain : BlockChainInMem} {block : BlockSpec} {parent : BlockNode}

theorem SameReads.linkBlock (same : SameReads db db') (block : BlockSpec) (hash : Byte64) (parent : BlockNode) :
    SameReads (Chain.linkBlock db block hash parent) (Chain.linkBlock db' block hash parent) :=
  (same.saveBlock hash block).saveBlockNode (parent.addChild hash)

/-- A heavier block that was added has moved the main list. -/
theorem moved_of_addBlock (heavier : chain.weight < block.weight) {chain' : BlockChainInMem}
    (added : addBlock chain db block hash parent = (chain', d, .ok)) :
    moveMarks (putDagTip (linkBlock db block hash parent) hash) (newBlockNode block hash) (parent.addChild hash) =
      (d, none) := by
  unfold addBlock at added
  simp only at added
  rw [if_pos (show chain.weight < (newBlockNode block hash).weight from heavier)] at added
  unfold linkBlock
  split at added
  · rename_i moved
    cases added
    exact moved
  · cases added

/-- `addBlock` does the same on databases that read the same. -/
theorem SameReads.addBlock (same : SameReads db db') (sound : Sound g db chain.tip) (sound' : Sound g db' chain.tip)
    (fresh : blockNode db hash = none) (found : blockNode db block.parentHash = some parent) :
    ∃ chain' d d', Chain.addBlock chain db block hash parent = (chain', d, .ok) ∧
      Chain.addBlock chain db' block hash parent = (chain', d', .ok) ∧ SameReads d d' ∧ Sound g d chain'.tip ∧
      Sound g d' chain'.tip := by
  obtain ⟨d, added, soundD, -⟩ := addBlock_attaches sound fresh found
  obtain ⟨d', added', soundD', -⟩ := addBlock_attaches sound' (by rw [← same.nodes]; exact fresh)
    (by rw [← same.nodes]; exact found)
  refine ⟨_, d, d', added, added', ?_, soundD, soundD'⟩
  by_cases heavier : chain.weight < block.weight
  · exact ((same.linkBlock block hash parent).putDagTip hash).moveMarks (moved_of_addBlock heavier added)
      (moved_of_addBlock heavier added')
  · rw [addBlock_lighter heavier] at added added'
    cases added
    cases added'
    exact (same.linkBlock block hash parent).saveBlockNode _

end Alike

/-- The calls that a flushed chain is compared by. -/
def Ordinary : Call → Prop
  | .restart | .flush => False
  | _ => True

section Replies

variable [Sha512] {g : Byte64} {s t : Session} {chain : BlockChainInMem}

/-- **Alike sessions reply the same, and stay alike.** -/
theorem Alike.step (genesis : BlockSpec) (alike : Alike g s t chain) {call : Call} (ordinary : Ordinary call) :
    (s.step genesis g call).2 = (t.step genesis g call).2 ∧
      ∃ chain', Alike g (s.next genesis g call) (t.next genesis g call) chain' := by
  cases call with
  | restart => exact ordinary.elim
  | flush => exact ordinary.elim
  | addBlockNode block =>
    simp only [Session.next, Session.step, Session.on, alike.left, alike.right, addBlockNode_eq,
      ← alike.reads.admitNew block]
    cases admitted : admitNew s.db block with
    | error e => exact ⟨rfl, chain, rfl, rfl, alike.reads, alike.soundLeft, alike.soundRight⟩
    | ok r =>
      obtain ⟨fresh, found⟩ := admitNew_ok admitted
      obtain ⟨chain', d, d', added, added', same, sound, sound'⟩ :=
        alike.reads.addBlock alike.soundLeft alike.soundRight fresh found
      simp only [added, added']
      exact ⟨trivial, chain', rfl, rfl, same, sound, sound'⟩
  | addNetworkNode block =>
    simp only [Session.next, Session.step, Session.on, alike.left, alike.right, addNetworkNode_eq,
      ← alike.reads.admitNetwork block]
    cases admitted : admitNetwork s.db block with
    | error e => exact ⟨rfl, chain, rfl, rfl, alike.reads, alike.soundLeft, alike.soundRight⟩
    | ok r =>
      obtain ⟨fresh, found⟩ := admitNetwork_ok admitted
      obtain ⟨chain', d, d', added, added', same, sound, sound'⟩ :=
        alike.reads.addBlock alike.soundLeft alike.soundRight fresh found
      simp only [added, added']
      exact ⟨trivial, chain', rfl, rfl, same, sound, sound'⟩
  | blocks parent max =>
    simp only [Session.next, Session.step, Session.on, alike.left, alike.right, alike.reads.blocks parent max]
    exact ⟨trivial, chain, alike⟩
  | blockNode hash =>
    simp only [Session.next, Session.step, Session.on, alike.left, alike.right, alike.reads.nodes hash]
    exact ⟨trivial, chain, alike⟩
  | tip =>
    simp only [Session.next, Session.step, Session.on, alike.left, alike.right, BlockChainInMem.tipNode,
      alike.reads.nodes chain.tip]
    exact ⟨trivial, chain, alike⟩

theorem Alike.replies (genesis : BlockSpec) (alike : Alike g s t chain) {calls : List Call}
    (ordinary : ∀ call ∈ calls, Ordinary call) : s.replies genesis g calls = t.replies genesis g calls := by
  induction calls generalizing s t chain with
  | nil => rfl
  | cons call calls ih =>
    obtain ⟨reply, chain', alike'⟩ := alike.step genesis (ordinary call List.mem_cons_self)
    rw [Session.replies, Session.replies, reply,
      ih alike' fun call member => ordinary call (List.mem_cons_of_mem _ member)]

/-! ## A chain that has accepted nothing -/

/-- The call adds a block. -/
def accepts (genesis : BlockSpec) (g : Byte64) (s : Session) (call : Call) : Bool :=
  match call, (s.step genesis g call).2 with
  | .addBlockNode _, some (.added _ .ok) => true
  | .addNetworkNode _, some (.done .ok) => true
  | _, _ => false

/-- The chain and what it reads are as they were created; the cached time and depth may not be. -/
structure Untouched (genesis : BlockSpec) (g : Byte64) (s : Session) : Prop where
  chain : ∃ td depth, s.chain = some ⟨(newBlockNode genesis g).setMainList true, g, td, depth, 0⟩
  reads : SameReads s.db (genesisDb genesis g)
  sound : Sound g s.db g

variable {genesis : BlockSpec}

theorem untouched_fresh (genesis : BlockSpec) (g : Byte64) : Untouched genesis g (Session.fresh genesis g) := by
  rw [fresh_eq]
  exact ⟨⟨_, _, rfl⟩, SameReads.refl _, sound_genesis genesis g⟩

omit [Sha512] in
theorem Sound.putDagTip {db : Db} {tip : Byte64} (sound : Sound g db tip) : Sound g (Chain.putDagTip db tip) tip := by
  have same : SameLinks db (Chain.putDagTip db tip) := SameLinks.of_eq fun k => blockNode_putDagTip db k tip
  refine ⟨same.tree (Nat.le_succ _) sound.tree, same.complete sound.complete, ⟨?_, fun k => ?_⟩,
    getDagTip_putDagTip db tip, fun h => ?_⟩
  · rw [same.isSome]
    exact sound.main.1
  · rw [same.parentOf_eq, ← sound.main.2 k]
    unfold Marked
    rw [show NodeStore.get (Chain.putDagTip db tip) k = NodeStore.get db k from blockNode_putDagTip db k tip]
  · rw [blockSpec_putDagTip, blockNode_putDagTip]
    exact sound.specs h

omit [Sha512] in
theorem findMainListChild_childless (db : Db) {node : BlockNode} (childless : node.children = [])
    (skip : Option BlockNode) : findMainListChild db node skip = none := by
  unfold findMainListChild markedChild
  rw [show NodeStore.children Db node = [] from childless]
  rfl

/-- `Flush` when genesis has no children. -/
theorem flush_childless {db : Db} {node : BlockNode} {block : SimpleBlock}
    (found : blockNode (Chain.putDagTip db chain.genesis.hash) chain.genesis.hash = some node)
    (read : getBlock (Chain.putDagTip db chain.genesis.hash) chain.genesis.hash = some block)
    (childless : node.children = []) :
    Chain.flush chain db =
      ({ chain with tip := chain.genesis.hash, depth := 0, td := block.timestamp },
        Chain.putDagTip db chain.genesis.hash, .ok) := by
  simp only [Chain.flush, found, read, findMainListChild_childless _ childless, flushDown]

/-- Flushing such a chain makes it a fresh one. -/
theorem Untouched.flush (untouched : Untouched genesis g s) :
    Alike g (s.next genesis g .flush) (Session.fresh genesis g)
      ⟨(newBlockNode genesis g).setMainList true, g, genesis.timestamp, 0, 0⟩ := by
  obtain ⟨td, depth, some_chain⟩ := untouched.chain
  have node : blockNode (Chain.putDagTip s.db g) g = some ((newBlockNode genesis g).setMainList true) := by
    rw [blockNode_putDagTip, untouched.reads.nodes, blockNode_genesisDb, if_pos rfl]
  have block : getBlock (Chain.putDagTip s.db g) g = some (newSimpleBlockFromSpec genesis) := by
    unfold getBlock
    rw [blockSpec_putDagTip, untouched.reads.specs, blockSpec_genesisDb, if_pos rfl]
    rfl
  have flushed : s.next genesis g .flush = ⟨Chain.putDagTip s.db g,
      some ⟨(newBlockNode genesis g).setMainList true, g, genesis.timestamp, 0, 0⟩⟩ := by
    simp only [Session.next, Session.step, Session.on, some_chain]
    rw [flush_childless node block rfl]
    rfl
  rw [flushed, fresh_eq]
  refine ⟨rfl, rfl, ?_, untouched.sound.putDagTip, sound_genesis genesis g⟩
  refine ⟨?_, fun h => ?_, fun h => ?_⟩
  · rw [getDagTip_putDagTip, getDagTip_genesisDb]
  · rw [blockNode_putDagTip, untouched.reads.nodes]
  · rw [blockSpec_putDagTip, untouched.reads.specs]

/-- A call that adds no block leaves the chain untouched. -/
theorem Untouched.next (untouched : Untouched genesis g s) {call : Call} (refused : accepts genesis g s call = false) :
    Untouched genesis g (s.next genesis g call) := by
  obtain ⟨td, depth, some_chain⟩ := untouched.chain
  have sound : Sound g s.db
    (BlockChainInMem.mk ((newBlockNode genesis g).setMainList true) g td depth 0).tip := untouched.sound
  cases call with
  | restart =>
    have node : blockNode s.db g = some ((newBlockNode genesis g).setMainList true) := by
      rw [untouched.reads.nodes, blockNode_genesisDb, if_pos rfl]
    have spec : blockSpec s.db g = some genesis := by
      rw [untouched.reads.specs, blockSpec_genesisDb, if_pos rfl]
    have opened : s.next genesis g .restart = ⟨s.db, some ⟨(newBlockNode genesis g).setMainList true, g,
        (newSimpleBlockFromSpec genesis).timestamp, ((newBlockNode genesis g).setMainList true).depth, 0⟩⟩ := by
      simp only [Session.next, Session.step, newBlockChainInMem, untouched.sound.dagTip, node, getBlock, spec,
        Option.map_some]
    rw [opened]
    exact ⟨⟨_, _, rfl⟩, untouched.reads, untouched.sound⟩
  | addBlockNode block =>
    simp only [accepts, Session.next, Session.step, Session.on, some_chain, addBlockNode_eq] at refused ⊢
    cases admitted : admitNew s.db block with
    | error e => exact ⟨⟨td, depth, rfl⟩, untouched.reads, untouched.sound⟩
    | ok r =>
      obtain ⟨fresh, found⟩ := admitNew_ok admitted
      obtain ⟨d, added, -⟩ := addBlock_attaches sound fresh found
      simp only [admitted, added, Bool.true_eq_false] at refused
  | addNetworkNode block =>
    simp only [accepts, Session.next, Session.step, Session.on, some_chain, addNetworkNode_eq] at refused ⊢
    cases admitted : admitNetwork s.db block with
    | error e => exact ⟨⟨td, depth, rfl⟩, untouched.reads, untouched.sound⟩
    | ok r =>
      obtain ⟨fresh, found⟩ := admitNetwork_ok admitted
      obtain ⟨d, added, -⟩ := addBlock_attaches sound fresh found
      simp only [admitted, added, Bool.true_eq_false] at refused
  | flush =>
    have alike := untouched.flush
    refine ⟨⟨_, _, alike.left⟩, ?_, alike.soundLeft⟩
    rw [fresh_eq] at alike
    exact alike.reads
  | blocks parent max =>
    simp only [Session.next, Session.step, Session.on, some_chain]
    exact untouched
  | blockNode hash =>
    simp only [Session.next, Session.step, Session.on, some_chain]
    exact untouched
  | tip =>
    simp only [Session.next, Session.step, Session.on, some_chain]
    exact untouched

/-! ## A chain that has accepted a block -/

/-- The node has a child if it is genesis, and genesis is none of its children. -/
def Lasting (g : Byte64) (n : BlockNode) : Prop := (n.hash = g → n.children ≠ []) ∧ g ∉ n.children

/-- A tip is recorded, and genesis is stored with a child. -/
structure Parental (g : Byte64) (db : Db) : Prop where
  tip : (getDagTip db).isSome
  genesis : (blockNode db g).isSome
  nodes : ∀ h n, blockNode db h = some n → n.hash = h ∧ Lasting g n

section Parental

variable {db : Db} {n parent : BlockNode} {hash : Byte64} {block : BlockSpec}

omit [Sha512] in
theorem Lasting.addChild (free : g ∉ parent.children) (ne : hash ≠ g) : Lasting g (parent.addChild hash) := by
  refine ⟨fun _ => List.append_ne_nil_of_right_ne_nil _ (List.cons_ne_nil _ _), fun member => ?_⟩
  rcases List.mem_append.mp member with before | last
  · exact free before
  · exact ne (List.mem_singleton.mp last).symm

omit [Sha512] in
theorem Parental.saveBlockNode (parental : Parental g db) (lasting : Lasting g n) :
    Parental g (Chain.saveBlockNode db n) where
  tip := by
    rw [getDagTip_saveBlockNode]
    exact parental.tip
  genesis := by
    rw [blockNode_saveBlockNode]
    split
    · rfl
    · exact parental.genesis
  nodes h m found := by
    rw [blockNode_saveBlockNode] at found
    split at found
    · rename_i own
      cases found
      exact ⟨own.symm, lasting⟩
    · exact parental.nodes h m found

omit [Sha512] in
theorem Parental.of_nodes {db' : Db} (parental : Parental g db) (tip : (getDagTip db').isSome)
    (nodes : ∀ h, blockNode db' h = blockNode db h) : Parental g db' where
  tip := tip
  genesis := by
    rw [nodes]
    exact parental.genesis
  nodes h n found := parental.nodes h n (by rw [← nodes, found])

omit [Sha512] in
theorem Parental.moveMarks (parental : Parental g db) {child : BlockNode} (lastingC : Lasting g child)
    (lastingP : Lasting g parent) : Parental g (MarkedTree.moveMarks db child parent).1 :=
  moveMarks_invariant (I := Parental g) (Q := Lasting g) (fun _ k n parental found => (parental.nodes k n found).2)
    (fun _ _ lasting => lasting) (fun _ _ parental lasting => parental.saveBlockNode lasting) parental lastingC lastingP

omit [Sha512] in
/-- After the parent was written, the rest of `addBlock` leaves genesis its child. -/
theorem Parental.addBlock (linked : Parental g (linkBlock db block hash parent)) (free : g ∉ parent.children)
    (ne : hash ≠ g) (chain : BlockChainInMem) : Parental g (Chain.addBlock chain db block hash parent).2.1 := by
  have lasting : Lasting g (newBlockNode block hash) := ⟨fun own => absurd own ne, List.not_mem_nil⟩
  have tipped : Parental g (putDagTip (linkBlock db block hash parent) hash) :=
    linked.of_nodes (by rw [getDagTip_putDagTip]; rfl) fun h => blockNode_putDagTip _ h hash
  have moved := tipped.moveMarks lasting (Lasting.addChild free ne)
  unfold linkBlock at moved linked
  unfold Chain.addBlock
  simp only
  split
  · split
    · rename_i walked
      rw [walked] at moved
      exact moved
    · rename_i walked
      rw [walked] at moved
      exact moved
  · exact linked.saveBlockNode lasting

omit [Sha512] in
theorem addBlock_genesis (chain : BlockChainInMem) (db : Db) (block : BlockSpec) (hash : Byte64) (parent : BlockNode) :
    (Chain.addBlock chain db block hash parent).1.genesis = chain.genesis := by
  unfold Chain.addBlock
  simp only
  split
  · split
    · rfl
    · rfl
  · rfl

omit [Sha512] in
/-- `addBlock` of a new block. -/
theorem Parental.attach (parental : Parental g db) (fresh : blockNode db hash = none) {at' : Byte64}
    (found : blockNode db at' = some parent) (chain : BlockChainInMem) :
    Parental g (Chain.addBlock chain db block hash parent).2.1 := by
  have ne : hash ≠ g := by
    rintro rfl
    have stored := parental.genesis
    rw [fresh] at stored
    cases stored
  obtain ⟨-, -, free⟩ := parental.nodes at' parent found
  have saved : Parental g (saveBlock db hash block) :=
    parental.of_nodes (by rw [getDagTip_saveBlock]; exact parental.tip) fun h => blockNode_saveBlock db h hash block
  exact Parental.addBlock (saved.saveBlockNode (Lasting.addChild free ne)) free ne chain

omit [Sha512] in
/-- `Flush` deletes no genesis. -/
theorem Parental.delete (parental : Parental g db) (ne : hash ≠ g) :
    Parental g ((db.write (.blockNode hash) none).write (.blockSpec hash) none) := by
  have nodes : ∀ h, blockNode ((db.write (.blockNode hash) none).write (.blockSpec hash) none) h =
      if h = hash then none else blockNode db h := by
    intro h
    unfold blockNode
    rw [WriteLog.get_write, WriteLog.get_write]
    by_cases same : h = hash
    · simp [same]
    · simp [same, Ne.symm same]
  refine ⟨?_, ?_, fun h n found => ?_⟩
  · have tip := parental.tip
    simpa [getDagTip, WriteLog.get_write] using tip
  · rw [nodes, if_neg ne.symm]
    exact parental.genesis
  · rw [nodes] at found
    split at found
    · cases found
    · exact parental.nodes h n found

omit [Sha512] in
theorem Parental.child (parental : Parental g db) (free : g ∉ n.children) :
    ∀ c ∈ findMainListChild db n none, c.hash ≠ g ∧ g ∉ c.children := by
  intro c found
  obtain ⟨k, member, stored, -⟩ := markedChild_some found
  obtain ⟨key, -, free'⟩ := parental.nodes k c stored
  refine ⟨fun same => free ?_, free'⟩
  rw [← same, key]
  exact member

omit [Sha512] in
theorem Parental.flushDown (fuel : Nat) {child : Option BlockNode} (parental : Parental g db)
    (below : ∀ c ∈ child, c.hash ≠ g ∧ g ∉ c.children) : Parental g (Chain.flushDown fuel db child).1 := by
  induction fuel generalizing db child with
  | zero => cases child with
    | none => exact parental
    | some child => exact parental
  | succ fuel ih => cases child with
    | none => exact parental
    | some child =>
      obtain ⟨ne, free⟩ := below child rfl
      exact ih (parental.delete ne) ((parental.delete ne).child free)

end Parental

/-- Genesis of the session has a child. -/
structure Settled (g : Byte64) (s : Session) : Prop where
  db : Parental g s.db
  chain : ∀ c, s.chain = some c → c.genesis.hash = g

omit [Sha512] in
theorem settled_after {db : Db} {c : BlockChainInMem} (parental : Parental g db) (own : c.genesis.hash = g)
    (outcome : Outcome) : Settled g (Session.after db c outcome) := by
  have chain : ∀ c', some c = some c' → c'.genesis.hash = g := by
    rintro c' ⟨⟩
    exact own
  cases outcome with
  | ok => exact ⟨parental, chain⟩
  | error code msg => exact ⟨parental, chain⟩
  | fault f => exact ⟨parental, fun c' none' => by cases none'⟩

theorem Settled.flush {c : BlockChainInMem} (settled : Settled g s) (own : c.genesis.hash = g) :
    Parental g (Chain.flush c s.db).2.1 ∧ (Chain.flush c s.db).1.genesis.hash = g := by
  have tipped : Parental g (putDagTip s.db c.genesis.hash) :=
    settled.db.of_nodes (by rw [getDagTip_putDagTip]; rfl) fun h => blockNode_putDagTip _ h _
  unfold Chain.flush
  simp only
  split
  · rename_i node genesis found _
    obtain ⟨-, -, free⟩ := tipped.nodes _ node found
    have down := tipped.flushDown ((putDagTip s.db c.genesis.hash).log.length + 1) (tipped.child free)
    split
    · rename_i walked
      rw [walked] at down
      exact ⟨down, own⟩
    · rename_i walked
      rw [walked] at down
      exact ⟨down, own⟩
  · exact ⟨tipped, own⟩

/-- A chain whose genesis has a child keeps it that way, whatever is called. -/
theorem Settled.next (settled : Settled g s) (genesis : BlockSpec) (call : Call) :
    Settled g (s.next genesis g call) := by
  cases call with
  | restart =>
    obtain ⟨tip, recorded⟩ := Option.isSome_iff_exists.mp settled.db.tip
    simp only [Session.next, Session.step, newBlockChainInMem, recorded]
    cases blockNode s.db tip with
    | none => exact ⟨settled.db, fun c none' => by cases none'⟩
    | some node =>
      cases getBlock s.db tip with
      | none => exact ⟨settled.db, fun c none' => by cases none'⟩
      | some block =>
        refine ⟨settled.db, fun c some' => ?_⟩
        cases some'
        rfl
  | addBlockNode block =>
    simp only [Session.next, Session.step, Session.on]
    cases some_chain : s.chain with
    | none => exact settled
    | some chain =>
      simp only [addBlockNode_eq]
      cases admitted : admitNew s.db block with
      | error e => exact settled_after settled.db (settled.chain chain some_chain) _
      | ok r =>
        obtain ⟨fresh, found⟩ := admitNew_ok admitted
        refine settled_after (settled.db.attach fresh found chain) ?_ _
        rw [addBlock_genesis]
        exact settled.chain chain some_chain
  | addNetworkNode block =>
    simp only [Session.next, Session.step, Session.on]
    cases some_chain : s.chain with
    | none => exact settled
    | some chain =>
      simp only [addNetworkNode_eq]
      cases admitted : admitNetwork s.db block with
      | error e => exact settled_after settled.db (settled.chain chain some_chain) _
      | ok r =>
        obtain ⟨fresh, found⟩ := admitNetwork_ok admitted
        refine settled_after (settled.db.attach fresh found chain) ?_ _
        rw [addBlock_genesis]
        exact settled.chain chain some_chain
  | flush =>
    simp only [Session.next, Session.step, Session.on]
    cases some_chain : s.chain with
    | none => exact settled
    | some chain =>
      obtain ⟨parental, own⟩ := settled.flush (settled.chain chain some_chain)
      exact settled_after parental own _
  | blocks parent max =>
    simp only [Session.next, Session.step, Session.on]
    cases some_chain : s.chain <;> exact settled
  | blockNode hash =>
    simp only [Session.next, Session.step, Session.on]
    cases some_chain : s.chain <;> exact settled
  | tip =>
    simp only [Session.next, Session.step, Session.on]
    cases some_chain : s.chain <;> exact settled

omit [Sha512] in
/-- The first block that is added is a child of genesis. -/
theorem Untouched.attach (untouched : Untouched genesis g s) {block : BlockSpec} {hash : Byte64} {parent : BlockNode}
    (fresh : blockNode s.db hash = none) (found : blockNode s.db block.parentHash = some parent)
    (chain : BlockChainInMem) : Parental g (addBlock chain s.db block hash parent).2.1 := by
  have nodes : ∀ h, blockNode s.db h = if h = g then some ((newBlockNode genesis g).setMainList true) else none := by
    intro h
    rw [untouched.reads.nodes, blockNode_genesisDb]
  have ne : hash ≠ g := by
    rintro rfl
    rw [nodes, if_pos rfl] at fresh
    cases fresh
  rw [nodes] at found
  split at found
  · cases found
    have free : g ∉ ((newBlockNode genesis g).setMainList true).children := List.not_mem_nil
    have key : (((newBlockNode genesis g).setMainList true).addChild hash).hash = g := rfl
    refine Parental.addBlock ⟨?_, ?_, fun h n stored => ?_⟩ free ne chain
    · rw [linkBlock, getDagTip_saveBlockNode, getDagTip_saveBlock, untouched.sound.dagTip]
      rfl
    · rw [blockNode_linkBlock, blockNode_saveBlockNode, if_pos key.symm]
      rfl
    · rw [blockNode_linkBlock, blockNode_saveBlockNode] at stored
      split at stored
      · rename_i own
        cases stored
        exact ⟨own.symm, Lasting.addChild free ne⟩
      · rename_i other
        rw [key] at other
        rw [nodes, if_neg other] at stored
        cases stored
  · cases found

/-- A call that adds a block gives genesis a child. -/
theorem Untouched.settled (untouched : Untouched genesis g s) {call : Call} (accepted : accepts genesis g s call = true) :
    Settled g (s.next genesis g call) := by
  obtain ⟨td, depth, some_chain⟩ := untouched.chain
  cases call with
  | addBlockNode block =>
    simp only [accepts, Session.next, Session.step, Session.on, some_chain, addBlockNode_eq] at accepted ⊢
    cases admitted : admitNew s.db block with
    | error e =>
      simp only [admitted] at accepted
      cases accepted
    | ok r =>
      obtain ⟨fresh, found⟩ := admitNew_ok admitted
      refine settled_after (untouched.attach fresh found _) ?_ _
      rw [addBlock_genesis]
      rfl
  | addNetworkNode block =>
    simp only [accepts, Session.next, Session.step, Session.on, some_chain, addNetworkNode_eq] at accepted ⊢
    cases admitted : admitNetwork s.db block with
    | error e =>
      simp only [admitted] at accepted
      cases accepted
    | ok r =>
      obtain ⟨fresh, found⟩ := admitNetwork_ok admitted
      refine settled_after (untouched.attach fresh found _) ?_ _
      rw [addBlock_genesis]
      rfl
  | restart => cases accepted
  | flush => cases accepted
  | blocks parent max => cases accepted
  | blockNode hash => cases accepted
  | tip => cases accepted

/-- A session that was untouched still is, or one of its calls added a block. -/
theorem untouched_or_settled (untouched : Untouched genesis g s) (calls : List Call) :
    Untouched genesis g (s.run genesis g calls) ∧
        Transition.Along (Session.next genesis g) (fun s call => accepts genesis g s call = false) s calls ∨
      Settled g (s.run genesis g calls) := by
  induction calls generalizing s with
  | nil => exact Or.inl ⟨untouched, trivial⟩
  | cons call calls ih =>
    cases accepted : accepts genesis g s call with
    | true =>
      have settled := untouched.settled accepted
      have run := Transition.run_invariant (Settled g) (fun s call settled => settled.next genesis call) settled calls
      exact Or.inr run
    | false =>
      rcases ih (untouched.next accepted) with ⟨still, refused⟩ | settled
      · exact Or.inl ⟨still, accepted, refused⟩
      · exact Or.inr settled

/-- A chain whose genesis has a child does not reply as a fresh one. -/
theorem Settled.replies_ne (settled : Settled g s) (genesis : BlockSpec) :
    s.replies genesis g [.blockNode g] ≠ (Session.fresh genesis g).replies genesis g [.blockNode g] := by
  intro same
  rw [fresh_eq] at same
  simp only [Session.replies, Session.step, Session.on, List.cons.injEq, and_true] at same
  cases some_chain : s.chain with
  | none =>
    rw [some_chain] at same
    cases same
  | some chain =>
    rw [some_chain] at same
    simp only [Option.some.injEq, Reply.node.injEq] at same
    rw [blockNode_genesisDb, if_pos rfl] at same
    obtain ⟨key, child, -⟩ := settled.db.nodes g _ same
    exact child key rfl

/-- **`Flush` resets a chain exactly if it has accepted no block**: only then it replies to any later calls as a chain
that was freshly created on an empty database. -/
theorem flush_resets (genesis : BlockSpec) (g : Byte64) (calls : List Call) :
    (∀ later, (∀ call ∈ later, Ordinary call) →
      (((Session.fresh genesis g).run genesis g calls).next genesis g .flush).replies genesis g later =
        (Session.fresh genesis g).replies genesis g later) ↔
      Transition.Along (Session.next genesis g) (fun s call => accepts genesis g s call = false)
        (Session.fresh genesis g) calls := by
  constructor
  · intro resets
    rcases untouched_or_settled (untouched_fresh genesis g) calls with ⟨-, refused⟩ | settled
    · exact refused
    · refine absurd (resets [.blockNode g] ?_) ((settled.next genesis .flush).replies_ne genesis)
      simp [Ordinary]
  · intro refused later ordinary
    have untouched : Untouched genesis g ((Session.fresh genesis g).run genesis g calls) :=
      refused.invariant (Untouched genesis g) (fun s call untouched refused => untouched.next refused)
        (untouched_fresh genesis g)
    exact untouched.flush.replies genesis ordinary

end Replies

section Worked

attribute [local instance] Worked.sha512

/-- After `Flush` the first block is taken again, but its weight no longer makes it the tip. -/
theorem Worked.flushed_chain_differs :
    ((Worked.after [.addBlockNode (some Worked.first)]).next Worked.genesis (digest Worked.genesisDigest) .flush).replies
        Worked.genesis (digest Worked.genesisDigest) [.addBlockNode (some Worked.first), .tip] ≠
      (Session.fresh Worked.genesis (digest Worked.genesisDigest)).replies Worked.genesis
        (digest Worked.genesisDigest) [.addBlockNode (some Worked.first), .tip] := by
  decide +kernel

theorem flush_resets_refused :
    ((Worked.after [.addBlockNode none, .restart, .addBlockNode (some Worked.second)]).next Worked.genesis
        (digest Worked.genesisDigest) .flush).replies Worked.genesis (digest Worked.genesisDigest)
          [.addBlockNode (some Worked.first), .tip, .blocks (digest Worked.genesisDigest) 5] =
      (Session.fresh Worked.genesis (digest Worked.genesisDigest)).replies Worked.genesis
        (digest Worked.genesisDigest) [.addBlockNode (some Worked.first), .tip, .blocks (digest Worked.genesisDigest) 5] :=
  (flush_resets _ _ _).mpr (by decide +kernel) _ (by simp [Ordinary])

end Worked

end TrustNet.Chain
