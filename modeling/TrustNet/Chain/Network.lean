import TrustNet.Chain.Heaviest

/-!
# Blocks of the network (`AddNetworkNode`)

`AddNetworkNode` asks of a block that its parent and its uncles are stored. It takes the
depth, the weight and the choice of the uncles as the block has them, so all that can be
said of an accepted block comes from the node that made it. `AddBlockNode` completes a
new block with uncles that leave the branch of its parent near by (`mem_findUncles`). In a
network whose nodes make their blocks so, and in which a hash names one block, every node
has the same ancestors for a block, and what was true where it was made is true where it
arrives.
-/

namespace TrustNet.Chain
set_option autoImplicit false
open MarkedTree ParentTree

/-- The block fits into the tree: it is one deeper than its parent and heavier by one and its uncles, and the uncles
are stored, are no ancestors, and leave the branch of the parent at most `maxUncleDistance` generations above it and
above themselves. -/
structure Fits (g : Byte64) (db : Db) (b : BlockSpec) (parent : BlockNode) : Prop where
  depth : b.depth = parent.depth + 1
  weight : b.weight = parent.weight + 1 + UInt64.ofNat b.uncles.length
  stored : ∀ u ∈ b.uncles, (blockNode db u).isSome
  apart : ∀ u ∈ b.uncles, ¬ Anc (parentOf db g) b.parentHash u
  near : ∀ u ∈ b.uncles, ∃ q m n, Above (parentOf db g) m b.parentHash q ∧ Above (parentOf db g) n u q ∧
    m ≤ maxUncleDistance ∧ n ≤ maxUncleDistance

/-! ## The search for uncles -/

section Search

variable [Sha512] {g : Byte64} {db : Db} (tree : Tree db g) (complete : Complete db)
  (hashed : ∀ h spec, blockSpec db h = some spec → h ≠ g → sum512 spec.data = h)
include tree complete hashed

/-- A child that a search comes to. -/
theorem listed_child {x c : Byte64} {node : BlockNode} {b : SimpleBlock} (found : blockNode db x = some node)
    (listed : c ∈ node.children) (block : getBlock db c = some b) :
    parentOf db g c = some x ∧ (blockNode db c).isSome ∧ b.hash.getD null = c := by
  have stored := complete x node c found listed
  obtain ⟨cn, foundC⟩ := Option.isSome_iff_exists.mp stored
  obtain ⟨edge, ne⟩ := tree.children found (show c ∈ node.children from listed) foundC
  obtain ⟨spec, read, rfl⟩ := Option.map_eq_some_iff.mp block
  refine ⟨?_, stored, hashed c spec read ne⟩
  rw [parentOf_of_found foundC ne]
  exact congrArg some edge

theorem mem_findNonDirectAncestors {maxDepth : UInt64} {distance : Nat} {x : Byte64} {u : Uncle}
    (member : u ∈ findNonDirectAncestors db maxDepth distance x) :
    ∃ n, 1 ≤ n ∧ n ≤ distance ∧ Above (parentOf db g) n u.hash x ∧ (blockNode db u.hash).isSome := by
  induction distance generalizing x with
  | zero => cases member
  | succ distance ih =>
    unfold findNonDirectAncestors at member
    cases found : blockNode db x with
    | none => simp [found] at member
    | some node =>
      simp only [found, List.mem_flatMap] at member
      obtain ⟨c, listed, member⟩ := member
      cases block : getBlock db c with
      | none => simp [block] at member
      | some b =>
        obtain ⟨edge, stored, hash⟩ := listed_child tree complete hashed found listed block
        simp only [block] at member
        split at member
        · rcases List.mem_cons.mp member with rfl | deeper
          · refine ⟨1, Nat.le_refl 1, by omega, ?_, ?_⟩
            · rw [hash]
              exact .up edge (.self x)
            · rw [hash]
              exact stored
          · obtain ⟨n, low, high, above, storedU⟩ := ih deeper
            exact ⟨n + 1, by omega, by omega, above.last edge, storedU⟩
        · cases member

/-- **What the search finds**: blocks that leave the branch of `p` at a node that is as many generations above `p` as
the search has gone up, and that are no further below that node than the distance that is left allows. -/
theorem mem_findUncles {maxDepth : UInt64} {distance m : Nat} {p grandParent parent : Byte64} {u : Uncle}
    (above : Above (parentOf db g) m p parent)
    (edge : (blockNode db grandParent).isSome → parentOf db g parent = some grandParent)
    (missing : ∀ n, blockNode db g = some n → blockNode db n.parent = none)
    (member : u ∈ findUncles db maxDepth distance grandParent parent) :
    ∃ q a n, Above (parentOf db g) a p q ∧ Above (parentOf db g) n u.hash q ∧ PartAt (parentOf db g) p u.hash q ∧
      m + 1 ≤ a ∧ 1 ≤ n ∧ a + n ≤ m + distance + 1 ∧ (blockNode db u.hash).isSome := by
  induction distance generalizing m grandParent parent with
  | zero => cases member
  | succ distance ih =>
    unfold findUncles at member
    cases found : blockNode db grandParent with
    | none => simp [found] at member
    | some node =>
      have edge := edge (by rw [found]; rfl)
      have keyed : node.hash = grandParent := tree.keyed found
      have up := above.last edge
      simp only [found] at member
      rcases List.mem_append.mp member with here | higher
      · obtain ⟨c, listed, here⟩ := List.mem_flatMap.mp here
        split at here
        · rename_i other
          cases block : getBlock db c with
          | none => simp [block] at here
          | some b =>
            obtain ⟨edgeC, stored, hash⟩ := listed_child tree complete hashed found listed block
            simp only [block] at here
            rcases List.mem_cons.mp here with rfl | below
            · refine ⟨grandParent, m + 1, 1, up, ?_, ?_, by omega, by omega, by omega, ?_⟩
              · rw [hash]
                exact .up edgeC (.self _)
              · rw [hash]
                exact ⟨parent, c, above.anc, edge, Anc.refl, edgeC, Ne.symm other⟩
              · rw [hash]
                exact stored
            · obtain ⟨n, low, high, aboveU, storedU⟩ := mem_findNonDirectAncestors tree complete hashed below
              exact ⟨grandParent, m + 1, n + 1, up, aboveU.last edgeC,
                ⟨parent, c, above.anc, edge, aboveU.anc, edgeC, Ne.symm other⟩, by omega, by omega, by omega, storedU⟩
        · cases here
      · rw [keyed] at higher
        have edge' : (blockNode db node.parent).isSome → parentOf db g grandParent = some node.parent := by
          intro stored
          by_cases root : grandParent = g
          · rw [root] at found
            rw [missing node found] at stored
            cases stored
          · exact parentOf_of_found found root
        obtain ⟨q, a, n, rest⟩ := ih up edge' higher
        exact ⟨q, a, n, rest.1, rest.2.1, rest.2.2.1, by omega, by omega, by omega, rest.2.2.2.2.2.2⟩

end Search

/-! ## New blocks -/

section Made

variable [Sha512] {g hash : Byte64} {db : Db} {p b : SimpleBlock} {parent : BlockNode}

/-- A new block as `NewSimpleBlock` is called for it: one deeper and heavier by one than its parent. -/
def Proposed (db : Db) (p : SimpleBlock) : Prop :=
  ∃ parent, blockNode db p.parentHash = some parent ∧ p.depth = parent.depth + 1 ∧ p.weight = parent.weight + 1

instance (db : Db) (p : SimpleBlock) : Decidable (Proposed db p) :=
  decidable_of_iff ((blockNode db p.parentHash).any fun parent =>
    decide (p.depth = parent.depth + 1 ∧ p.weight = parent.weight + 1)) (by simp [Proposed, Option.any_eq_true])

omit [Sha512] in
theorem addUncles_eq (uncles : List Uncle) (b : SimpleBlock) :
    uncles.foldl (fun b uncle => SimpleBlock.addUncle b uncle.hash 1) b =
      { b with
        uncles := b.uncles ++ uncles.map Uncle.hash
        weight := b.weight + UInt64.ofNat uncles.length } := by
  induction uncles generalizing b with
  | nil => simp
  | cons uncle uncles ih =>
    have weight : 1 + b.weight + UInt64.ofNat uncles.length = b.weight + UInt64.ofNat (uncles.length + 1) := by
      apply UInt64.toNat_inj.mp
      have one : (1 : UInt64).toNat = 1 := rfl
      simp only [UInt64.toNat_add, UInt64.toNat_ofNat', one]
      omega
    rw [List.foldl_cons, ih]
    simp only [SimpleBlock.addUncle, List.append_assoc, List.singleton_append, List.map_cons, List.length_cons, weight]

/-- The block that `AddBlockNode` makes of a new one. -/
structure Completed (db : Db) (p b : SimpleBlock) (hash : Byte64) (parent : BlockNode) : Prop where
  fresh : blockNode db hash = none
  found : blockNode db p.parentHash = some parent
  data : hash = sum512 b.data
  hash : b.hash = some hash
  parentHash : b.parentHash = p.parentHash
  depth : b.depth = p.depth
  uncles : b.uncles = (findUncles db parent.depth maxUncleDistance parent.parent parent.hash).map Uncle.hash
  weight : b.weight = p.weight + UInt64.ofNat b.uncles.length

theorem admitNew_completes (admitted : admitNew db (some p) = .ok (b, hash, parent)) :
    Completed db p b hash parent := by
  unfold admitNew at admitted
  simp only at admitted
  split at admitted
  · cases admitted
  · split at admitted
    · cases admitted
    · rename_i found
      split at admitted
      · cases admitted
      · rename_i none'
        have empty : p.uncles = [] := List.length_eq_zero_iff.mp (not_not.mp none')
        split at admitted
        · cases admitted
        · rename_i absent
          rw [addUncles_eq, empty, List.nil_append] at absent admitted
          cases admitted
          refine ⟨by simpa using absent, found, rfl, rfl, rfl, rfl, rfl, ?_⟩
          simp [SimpleBlock.computeHash]

theorem Completed.seal (completed : Completed db p b hash parent) : b.hash = some (sum512 b.data) := by
  rw [completed.hash, completed.data]

/-- A completed block fits where it was made. -/
theorem Completed.fits (completed : Completed db p b hash parent) (tree : Tree db g) (complete : Complete db)
    (hashed : ∀ h spec, blockSpec db h = some spec → h ≠ g → sum512 spec.data = h)
    (missing : ∀ n, blockNode db g = some n → blockNode db n.parent = none) (proposed : Proposed db p) :
    Fits g db b.toBlockSpec parent := by
  obtain ⟨parent', found, depth, weight⟩ := proposed
  rw [completed.found] at found
  cases found
  have keyed : parent.hash = b.parentHash := by
    rw [completed.parentHash]
    exact tree.keyed completed.found
  have foundP : blockNode db b.parentHash = some parent := by
    rw [completed.parentHash]
    exact completed.found
  have edge : (blockNode db parent.parent).isSome → parentOf db g b.parentHash = some parent.parent := by
    intro stored
    by_cases root : b.parentHash = g
    · rw [root] at foundP
      rw [missing parent foundP] at stored
      cases stored
    · exact parentOf_of_found foundP root
  have search : ∀ u ∈ b.uncles, ∃ q m n, Above (parentOf db g) m b.parentHash q ∧ Above (parentOf db g) n u q ∧
      PartAt (parentOf db g) b.parentHash u q ∧ m ≤ maxUncleDistance ∧ n ≤ maxUncleDistance ∧
      (blockNode db u).isSome := by
    intro u member
    rw [completed.uncles, keyed] at member
    obtain ⟨uncle, listed, rfl⟩ := List.mem_map.mp member
    obtain ⟨q, m, n, up, upU, part, low, low', high, stored⟩ :=
      mem_findUncles tree complete hashed (.self b.parentHash) edge missing listed
    exact ⟨q, m, n, up, upU, part, by omega, by omega, stored⟩
  obtain ⟨rank, ranked, -⟩ := tree.ranked
  refine ⟨by rw [completed.depth, depth], by rw [completed.weight, weight], fun u member => ?_, fun u member => ?_,
    fun u member => ?_⟩
  · obtain ⟨q, m, n, -, -, -, -, -, stored⟩ := search u member
    exact stored
  · obtain ⟨q, m, n, -, -, part, -, -, -⟩ := search u member
    exact part.not_anc ranked
  · obtain ⟨q, m, n, up, upU, -, high, high', -⟩ := search u member
    exact ⟨q, m, n, up, upU, high, high'⟩

end Made

/-! ## Where the blocks come from -/

section Recorded

variable [Sha512] {X : SimpleBlock → Prop} {genesis block : BlockSpec} {g hash : Byte64} {db db' : Db}
  {chain : BlockChainInMem} {parent : BlockNode}

/-- What does not change in a node. -/
def header (n : BlockNode) : Byte64 × UInt64 × UInt64 := (n.parent, n.depth, n.weight)

/-- The header of the node of a block. -/
def BlockSpec.header (b : BlockSpec) : Byte64 × UInt64 × UInt64 := (b.parentHash, b.depth, b.weight)

/-- The nodes and blocks that are stored are genesis and blocks of `X`. -/
structure Recorded (X : SimpleBlock → Prop) (genesis : BlockSpec) (g : Byte64) (db : Db) : Prop where
  genesis : (blockNode db g).map header = some genesis.header
  nodes : ∀ h, (blockNode db h).isSome → h ≠ g →
    ∃ b, X b ∧ b.hash = some h ∧ (blockNode db h).map header = some b.toBlockSpec.header
  specs : ∀ h spec, blockSpec db h = some spec → h ≠ g → ∃ b, X b ∧ b.hash = some h ∧ spec = b.toBlockSpec

omit [Sha512] in
/-- `addBlock` adds the header and the block, and changes no other. -/
theorem addBlock_records {chain' : BlockChainInMem} (sound : Sound g db chain.tip) (fresh : blockNode db hash = none)
    (found : blockNode db block.parentHash = some parent)
    (added : addBlock chain db block hash parent = (chain', db', .ok)) :
    (∀ h, (blockNode db' h).map header = if h = hash then some block.header else (blockNode db h).map header) ∧
      ∀ h, blockSpec db' h = if h = hash then some block else blockSpec db h := by
  have keyed : parent.hash = block.parentHash := sound.tree.keyed found
  have stored : blockNode db parent.hash = some parent := by
    rw [keyed]
    exact found
  by_cases heavier : chain.weight < block.weight
  · have linked : ∀ k, blockNode (putDagTip (linkBlock db block hash parent) hash) k =
        blockNode (saveBlockNode db (parent.addChild hash)) k :=
      fun k => (blockNode_putDagTip _ _ _).trans (blockNode_linkBlock k)
    obtain ⟨db'', moved, -, same⟩ := attach_main_links (x := newBlockNode block hash)
      (l := putDagTip (linkBlock db block hash parent) hash) sound.tree sound.complete sound.main fresh stored rfl
      keyed.symm linked (Nat.le_add_right _ 2)
    rw [addBlock_heavier heavier moved] at added
    simp only [Prod.mk.injEq, and_true] at added
    obtain ⟨-, rfl⟩ := added
    refine ⟨fun h => ?_, fun h => ?_⟩
    · exact map_attach (x := newBlockNode block hash) (l := putDagTip (linkBlock db block hash parent) hash) stored
        linked (fun t => (t.2.1, t.2.2.2.1, t.2.2.2.2.1)) (fun _ => rfl) same h
    · have frame := moveMarks_frame (f := fun db => blockSpec db h) (fun s n => blockSpec_saveBlockNode s h n)
        (putDagTip (linkBlock db block hash parent) hash) (newBlockNode block hash) (parent.addChild hash)
      rw [blockSpec_putDagTip, blockSpec_linkBlock] at frame
      exact (congrArg (fun r => blockSpec r.1 h) moved).symm.trans frame
  · rw [addBlock_lighter heavier] at added
    simp only [Prod.mk.injEq, and_true] at added
    obtain ⟨-, rfl⟩ := added
    refine ⟨fun h => ?_, fun h => ?_⟩
    · have linked := map_link (s := db) (k := h) (c := hash) header (fun _ => rfl) stored
      rw [blockNode_saveBlockNode]
      by_cases eq : h = hash
      · rw [if_pos (show h = (newBlockNode block hash).hash from eq), if_pos eq]
        rfl
      · rw [if_neg (show ¬ h = (newBlockNode block hash).hash from eq), if_neg eq, blockNode_linkBlock]
        exact linked
    · rw [blockSpec_saveBlockNode, blockSpec_linkBlock]

omit [Sha512] in
/-- A block of `X` is added. -/
theorem Recorded.add (recorded : Recorded X genesis g db) {b : SimpleBlock} (x : X b) (hash' : b.hash = some hash)
    (ne : hash ≠ g)
    (headers : ∀ h, (blockNode db' h).map header =
      if h = hash then some b.toBlockSpec.header else (blockNode db h).map header)
    (specs : ∀ h, blockSpec db' h = if h = hash then some b.toBlockSpec else blockSpec db h) :
    Recorded X genesis g db' := by
  refine ⟨by rw [headers, if_neg (Ne.symm ne), recorded.genesis], fun h stored other => ?_, fun h spec read other => ?_⟩
  · by_cases eq : h = hash
    · exact ⟨b, x, by rw [hash', eq], by rw [headers, if_pos eq]⟩
    · have same := headers h
      rw [if_neg eq] at same
      have old : (blockNode db h).isSome := by
        rw [← Option.isSome_map (f := header), ← same, Option.isSome_map]
        exact stored
      obtain ⟨b', x', hash'', header'⟩ := recorded.nodes h old other
      exact ⟨b', x', hash'', by rw [same, header']⟩
  · rw [specs] at read
    split at read
    · rename_i eq
      exact ⟨b, x, by rw [hash', eq], (Option.some.inj read).symm⟩
    · exact recorded.specs h spec read other

/-- The session has a chain over a tree of genesis and blocks of `X`. -/
def Grown (X : SimpleBlock → Prop) (genesis : BlockSpec) (g : Byte64) (s : Session) : Prop :=
  ∃ chain, s.chain = some chain ∧ Sound g s.db chain.tip ∧ Recorded X genesis g s.db

omit [Sha512] in
theorem addBlock_grows (sound : Sound g db chain.tip) (recorded : Recorded X genesis g db) {b : SimpleBlock} (x : X b)
    (hash' : b.hash = some hash) (fresh : blockNode db hash = none) (found : blockNode db b.parentHash = some parent) :
    ∃ chain' db', addBlock chain db b.toBlockSpec hash parent = (chain', db', .ok) ∧ Sound g db' chain'.tip ∧
      Recorded X genesis g db' := by
  obtain ⟨db', added, sound', -⟩ := addBlock_attaches sound fresh found
  obtain ⟨headers, specs⟩ := addBlock_records sound fresh found added
  have ne : hash ≠ g := by
    rintro rfl
    have root := recorded.genesis
    rw [fresh] at root
    cases root
  exact ⟨_, db', added, sound', recorded.add x hash' ne headers specs⟩

end Recorded

/-! ## The network -/

section Network

variable [Sha512] {X : SimpleBlock → Prop} {genesis : BlockSpec} {g : Byte64} {s peer : Session} {p b : SimpleBlock}

/-- The session makes the block `b` of the new block `p`. -/
structure Makes (genesis : BlockSpec) (g : Byte64) (s : Session) (p b : SimpleBlock) : Prop where
  proposed : Proposed s.db p
  added : (s.step genesis g (.addBlockNode (some p))).2 = some (.added (some b) .ok)

instance (genesis : BlockSpec) (g : Byte64) (s : Session) (p b : SimpleBlock) : Decidable (Makes genesis g s p b) :=
  decidable_of_iff (Proposed s.db p ∧ (s.step genesis g (.addBlockNode (some p))).2 = some (.added (some b) .ok))
    ⟨fun makes => ⟨makes.1, makes.2⟩, fun makes => ⟨makes.proposed, makes.added⟩⟩

/-- The sessions of a network. A node makes blocks of its own, gets blocks that nodes of the network have made, and is
restarted. The blocks that are made are in `X`. The calls that only read leave a session as it is. -/
inductive Joined (X : SimpleBlock → Prop) (genesis : BlockSpec) (g : Byte64) : Session → Prop where
  | fresh : Joined X genesis g (Session.fresh genesis g)
  | made {s : Session} {p b : SimpleBlock} (joined : Joined X genesis g s) (makes : Makes genesis g s p b) (x : X b) :
    Joined X genesis g (s.next genesis g (.addBlockNode (some p)))
  | received {s peer : Session} {p b : SimpleBlock} (joined : Joined X genesis g s) (sender : Joined X genesis g peer)
      (makes : Makes genesis g peer p b) (x : X b) : Joined X genesis g (s.next genesis g (.addNetworkNode (some b)))
  | restarted {s : Session} (joined : Joined X genesis g s) : Joined X genesis g (s.next genesis g .restart)

/-- A hash names one block of `X`, and the parent of genesis names none. -/
structure Named (X : SimpleBlock → Prop) (genesis : BlockSpec) (g : Byte64) : Prop where
  unique : ∀ b b', X b → X b' → b.hash = b'.hash → b = b'
  orphan : genesis.parentHash ≠ g ∧ ∀ b, X b → b.hash ≠ some genesis.parentHash

/-- A block of `X` that carries the hash of its data. -/
def Sealed (X : SimpleBlock → Prop) (b : SimpleBlock) : Prop :=
  X b ∧ b.hash = some (sum512 b.data)

/-- What a session that makes a block has checked. -/
theorem Makes.completed {chain : BlockChainInMem} (makes : Makes genesis g s p b) (some_chain : s.chain = some chain) :
    ∃ hash parent, Completed s.db p b hash parent ∧ blockNode s.db b.parentHash = some parent := by
  have added := makes.added
  simp only [Session.step, Session.on, some_chain, addBlockNode_eq] at added
  cases admitted : admitNew s.db (some p) with
  | error e =>
    obtain ⟨b', code, msg⟩ := e
    simp [admitted] at added
  | ok r =>
    obtain ⟨b', hash, parent⟩ := r
    simp only [admitted, Option.some.injEq, Reply.added.injEq] at added
    obtain ⟨rfl, -⟩ := added
    have completed := admitNew_completes admitted
    exact ⟨hash, parent, completed, (admitNew_ok admitted).2⟩

omit [Sha512] in
/-- What `AddNetworkNode` has checked of a block that it admits. -/
theorem admitNetwork_some {db : Db} {b' : SimpleBlock} {hash : Byte64} {parent : BlockNode}
    (admitted : admitNetwork db (some b) = .ok (b', hash, parent)) :
    b' = b ∧ b.hash = some hash ∧ ∀ u ∈ b.uncles, (blockNode db u).isSome := by
  unfold admitNetwork at admitted
  simp only at admitted
  split at admitted
  · cases admitted
  · rename_i hashed
    split at admitted
    · cases admitted
    · split at admitted
      · cases admitted
      · split at admitted
        · rename_i known
          cases admitted
          exact ⟨rfl, hashed, List.all_eq_true.mp known⟩
        · cases admitted

theorem Grown.restart (grown : Grown X genesis g s) : Grown X genesis g (s.next genesis g .restart) := by
  obtain ⟨chain, some_chain, sound, recorded⟩ := grown
  obtain ⟨node, found⟩ := Option.isSome_iff_exists.mp sound.main.1
  change blockNode s.db chain.tip = some node at found
  have specs := sound.specs chain.tip
  rw [found, Option.map_some] at specs
  obtain ⟨block, stored, -⟩ := Option.map_eq_some_iff.mp specs
  have opened : s.next genesis g .restart = ⟨s.db, some
      ⟨(newBlockNode genesis g).setMainList true, chain.tip, block.timestamp, node.depth, 0⟩⟩ := by
    simp only [Session.next, Session.step, newBlockChainInMem, getBlock, sound.dagTip, found, stored, Option.map_some]
    rfl
  rw [opened]
  exact ⟨_, rfl, sound, recorded⟩

/-- **The sessions of a network** store only what its nodes have made. -/
theorem Joined.grown (joined : Joined X genesis g s) : Grown (Sealed X) genesis g s := by
  induction joined with
  | fresh =>
    refine ⟨_, congrArg Session.chain (fresh_eq genesis g), sound_genesis genesis g, ?_⟩
    change Recorded (Sealed X) genesis g (genesisDb genesis g)
    refine ⟨?_, fun h stored ne => ?_, fun h spec read ne => ?_⟩
    · rw [blockNode_genesisDb, if_pos rfl]
      rfl
    · rw [blockNode_genesisDb, if_neg ne] at stored
      cases stored
    · rw [blockSpec_genesisDb, if_neg ne] at read
      cases read
  | @made s p b _ makes x ih =>
    obtain ⟨chain, some_chain, sound, recorded⟩ := ih
    have added := makes.added
    simp only [Session.next, Session.step, Session.on, some_chain, addBlockNode_eq] at added ⊢
    cases admitted : admitNew s.db (some p) with
    | error e =>
      obtain ⟨b', code, msg⟩ := e
      simp [admitted] at added
    | ok r =>
      obtain ⟨b', hash, parent⟩ := r
      simp only [admitted, Option.some.injEq, Reply.added.injEq] at added ⊢
      obtain ⟨rfl, -⟩ := added
      obtain ⟨fresh, found⟩ := admitNew_ok admitted
      have completed := admitNew_completes admitted
      obtain ⟨chain', db', done, sound', recorded'⟩ :=
        addBlock_grows sound recorded ⟨x, completed.seal⟩ completed.hash fresh found
      rw [done]
      exact ⟨chain', rfl, sound', recorded'⟩
  | @received s peer p b _ _ makes x ih ihPeer =>
    obtain ⟨chain, some_chain, sound, recorded⟩ := ih
    obtain ⟨chainP, some_chainP, -, -⟩ := ihPeer
    obtain ⟨_, _, completed, -⟩ := makes.completed some_chainP
    simp only [Session.next, Session.step, Session.on, some_chain, addNetworkNode_eq]
    cases admitted : admitNetwork s.db (some b) with
    | error e => exact ⟨chain, rfl, sound, recorded⟩
    | ok r =>
      obtain ⟨b', hash, parent⟩ := r
      obtain ⟨rfl, hashed, -⟩ := admitNetwork_some admitted
      obtain ⟨fresh, found⟩ := admitNetwork_ok admitted
      obtain ⟨chain', db', done, sound', recorded'⟩ :=
        addBlock_grows sound recorded ⟨x, completed.seal⟩ hashed fresh found
      simp only [done]
      exact ⟨chain', rfl, sound', recorded'⟩
  | restarted _ ih => exact ih.restart

section Agree

variable {db db' : Db}

theorem Recorded.hashed (recorded : Recorded (Sealed X) genesis g db) (h : Byte64) (spec : BlockSpec)
    (read : blockSpec db h = some spec) (ne : h ≠ g) : sum512 spec.data = h := by
  obtain ⟨b, ⟨-, sealed⟩, hash, rfl⟩ := recorded.specs h spec read ne
  exact Option.some.inj (sealed.symm.trans hash)

variable (named : Named X genesis g)
include named

/-- Nothing is stored above genesis. -/
theorem Recorded.missing (recorded : Recorded (Sealed X) genesis g db) (n : BlockNode)
    (found : blockNode db g = some n) : blockNode db n.parent = none := by
  have root := recorded.genesis
  rw [found] at root
  have parent : n.parent = genesis.parentHash := congrArg Prod.fst (Option.some.inj root)
  by_contra stored
  rw [parent] at stored
  obtain ⟨b, ⟨x, -⟩, hash, -⟩ := recorded.nodes _ (Option.isSome_iff_ne_none.mpr stored) named.orphan.1
  exact named.orphan.2 b x hash

/-- Nodes of the network have the same headers for a block. -/
theorem Recorded.agree (recorded : Recorded (Sealed X) genesis g db)
    (recorded' : Recorded (Sealed X) genesis g db') {h : Byte64} (stored : (blockNode db h).isSome)
    (stored' : (blockNode db' h).isSome) :
    (blockNode db' h).map header = (blockNode db h).map header := by
  by_cases root : h = g
  · rw [root, recorded.genesis, recorded'.genesis]
  · obtain ⟨b, ⟨x, -⟩, hash, eq⟩ := recorded.nodes h stored root
    obtain ⟨b', ⟨x', -⟩, hash', eq'⟩ := recorded'.nodes h stored' root
    rw [eq, eq', named.unique b b' x x' (hash.trans hash'.symm)]

theorem Recorded.parentOf_eq (recorded : Recorded (Sealed X) genesis g db)
    (recorded' : Recorded (Sealed X) genesis g db') {h : Byte64} (stored : (blockNode db h).isSome)
    (stored' : (blockNode db' h).isSome) : parentOf db' g h = parentOf db g h := by
  have eq := congrArg (Option.map Prod.fst) (recorded.agree named recorded' stored stored')
  rw [Option.map_map, Option.map_map] at eq
  unfold parentOf
  split
  · rfl
  · exact eq

/-- A block that fits at one node of the network fits at every other that has its parent and its uncles. -/
theorem Fits.transfer {block : BlockSpec} {parent parent' : BlockNode} {tip tip' : Byte64} (sound : Sound g db tip)
    (sound' : Sound g db' tip') (recorded : Recorded (Sealed X) genesis g db)
    (recorded' : Recorded (Sealed X) genesis g db') (found : blockNode db block.parentHash = some parent)
    (found' : blockNode db' block.parentHash = some parent')
    (uncles : ∀ u ∈ block.uncles, (blockNode db' u).isSome) (fits : Fits g db block parent) :
    Fits g db' block parent' := by
  have both : ∀ {h}, (blockNode db h).isSome ∧ (blockNode db' h).isSome → parentOf db' g h = parentOf db g h :=
    fun stored => recorded.parentOf_eq named recorded' stored.1 stored.2
  have closed : ∀ y, (blockNode db y).isSome ∧ (blockNode db' y).isSome → ∀ z, parentOf db g y = some z →
      (blockNode db z).isSome ∧ (blockNode db' z).isSome := by
    intro y stored z edge
    refine ⟨sound.tree.parent_stored edge, ?_⟩
    rw [← both stored] at edge
    exact sound'.tree.parent_stored edge
  have here : (blockNode db block.parentHash).isSome ∧ (blockNode db' block.parentHash).isSome := by
    rw [found, found']
    exact ⟨rfl, rfl⟩
  have same := recorded.agree named recorded' here.1 here.2
  rw [found, found', Option.map_some, Option.map_some, Option.some.injEq] at same
  have depth : parent'.depth = parent.depth := congrArg (fun t => t.2.1) same
  have weight : parent'.weight = parent.weight := congrArg (fun t => t.2.2) same
  refine ⟨by rw [fits.depth, depth], by rw [fits.weight, weight], uncles, fun u member up => ?_, fun u member => ?_⟩
  · exact fits.apart u member ((Anc.congr closed (fun y stored => both stored) here).mp up)
  · obtain ⟨q, m, n, up, upU, high, high'⟩ := fits.near u member
    exact ⟨q, m, n, up.congr closed (fun y stored => both stored) here,
      upU.congr closed (fun y stored => both stored) ⟨fits.stored u member, uncles u member⟩, high, high'⟩

end Agree

/-- **Blocks that the network has made fit where they arrive.** -/
theorem network_block_fits (named : Named X genesis g) (joined : Joined X genesis g s)
    (sender : Joined X genesis g peer) (makes : Makes genesis g peer p b)
    (accepted : (s.step genesis g (.addNetworkNode (some b))).2 = some (.done .ok)) :
    ∃ parent, blockNode s.db b.parentHash = some parent ∧ Fits g s.db b.toBlockSpec parent := by
  obtain ⟨chain, some_chain, sound, recorded⟩ := joined.grown
  obtain ⟨chainP, some_chainP, soundP, recordedP⟩ := sender.grown
  obtain ⟨hash, parentP, completed, foundP⟩ := makes.completed some_chainP
  have fits := completed.fits soundP.tree soundP.complete recordedP.hashed (recordedP.missing named) makes.proposed
  simp only [Session.step, Session.on, some_chain, addNetworkNode_eq] at accepted
  cases admitted : admitNetwork s.db (some b) with
  | error e =>
    obtain ⟨code, msg⟩ := e
    simp [admitted] at accepted
  | ok r =>
    obtain ⟨b', hash', parent⟩ := r
    obtain ⟨rfl, -, uncles⟩ := admitNetwork_some admitted
    obtain ⟨-, found⟩ := admitNetwork_ok admitted
    exact ⟨parent, found, fits.transfer named soundP sound recordedP recorded foundP found uncles⟩

end Network

/-! ## Worked runs -/

namespace Worked

/-- The first block with another depth and weight, and with its parent for an uncle. -/
def forgedDigest : Nat :=
  0x0f3650bfd1f7167d498386a8bedbe422962636925ab8d43465777d8b7590ac04afc3ebbebf1fe536c654eaa3aeddc8205bc45a4dfa690510061ac31896676d0f

/-- SHA-512 on genesis and that block. -/
@[reducible] def forgedSha512 : Sha512 := Sha512.ofRows [
  (270282440420755304, genesisDigest),
  (281140279711948134, forgedDigest)]

section Forged

attribute [local instance] forgedSha512

def forged : SimpleBlock :=
  SimpleBlock.computeHash { first with depth := 9, weight := 50, uncles := [digest genesisDigest] }

/-- A fresh chain takes the block, which is wrong in its depth, in its weight and in its uncle. -/
theorem forged_block_accepted :
    ((Session.fresh genesis (digest genesisDigest)).step genesis (digest genesisDigest)
        (.addNetworkNode (some forged))).2 = some (.done .ok) ∧
    ∃ parent, blockNode (Session.fresh genesis (digest genesisDigest)).db forged.parentHash = some parent ∧
      forged.depth ≠ parent.depth + 1 ∧
      forged.weight ≠ parent.weight + 1 + UInt64.ofNat forged.uncles.length ∧
      (∃ u ∈ forged.uncles, Anc (parentOf (Session.fresh genesis (digest genesisDigest)).db (digest genesisDigest))
        forged.parentHash u) ∧
      ¬ Fits (digest genesisDigest) (Session.fresh genesis (digest genesisDigest)).db forged.toBlockSpec parent := by
  have run : ((Session.fresh genesis (digest genesisDigest)).step genesis (digest genesisDigest)
        (.addNetworkNode (some forged))).2 = some (.done .ok) ∧
      ((blockNode (Session.fresh genesis (digest genesisDigest)).db forged.parentHash).any fun parent =>
        decide (forged.depth ≠ parent.depth + 1 ∧
          forged.weight ≠ parent.weight + 1 + UInt64.ofNat forged.uncles.length)) = true := by decide +kernel
  obtain ⟨taken, wrong⟩ := run
  obtain ⟨parent, found, fields⟩ := (Option.any_eq_true _ _).mp wrong
  obtain ⟨depth, weight⟩ := of_decide_eq_true fields
  exact ⟨taken, parent, found, depth, weight, ⟨_, List.mem_singleton_self _, .refl⟩, fun fits => depth fits.depth⟩

end Forged

section Made

attribute [local instance] sha512

def firstMade : SimpleBlock := first.computeHash

def rivalMade : SimpleBlock := rival.computeHash

/-- The child of the first block, with the rival for an uncle. -/
def joinedMade : SimpleBlock := (second.addUncle (digest rivalDigest) 1).computeHash

/-- The blocks that the node of `maker` makes. -/
def network (b : SimpleBlock) : Prop := b ∈ [firstMade, rivalMade, joinedMade]

/-- The node that makes the blocks. -/
def maker : Session := after [.addBlockNode (some first), .addBlockNode (some rival)]

/-- The node that gets them. -/
def receiver : Session := after [.addNetworkNode (some firstMade), .addNetworkNode (some rivalMade)]

theorem network_named : Named network genesis (digest genesisDigest) := by
  have named : (∀ b ∈ [firstMade, rivalMade, joinedMade], ∀ b' ∈ [firstMade, rivalMade, joinedMade],
        b.hash = b'.hash → b = b') ∧
      genesis.parentHash ≠ digest genesisDigest ∧
        ∀ b ∈ [firstMade, rivalMade, joinedMade], b.hash ≠ some genesis.parentHash := by decide +kernel
  exact ⟨fun b b' x x' => named.1 b x b' x', named.2⟩

/-- The node of `maker` makes the three blocks, and the node of `receiver` takes the last of them. -/
theorem three_made :
    Makes genesis (digest genesisDigest) (Session.fresh genesis (digest genesisDigest)) first firstMade ∧
      Makes genesis (digest genesisDigest) (after [.addBlockNode (some first)]) rival rivalMade ∧
      Makes genesis (digest genesisDigest) maker second joinedMade ∧
      (receiver.step genesis (digest genesisDigest) (.addNetworkNode (some joinedMade))).2 = some (.done .ok) := by
  decide +kernel

theorem joined_after_first : Joined network genesis (digest genesisDigest) (after [.addBlockNode (some first)]) :=
  .made .fresh three_made.1 (by simp [network])

theorem joined_maker : Joined network genesis (digest genesisDigest) maker :=
  .made joined_after_first three_made.2.1 (by simp [network])

theorem joined_receiver : Joined network genesis (digest genesisDigest) receiver :=
  .received (.received .fresh .fresh three_made.1 (by simp [network])) joined_after_first three_made.2.1
    (by simp [network])

end Made

end Worked

section Worked

attribute [local instance] Worked.sha512

theorem network_block_fits_joined : ∃ parent, blockNode Worked.receiver.db Worked.joinedMade.parentHash = some parent ∧
    Fits (digest Worked.genesisDigest) Worked.receiver.db Worked.joinedMade.toBlockSpec parent :=
  network_block_fits Worked.network_named Worked.joined_receiver Worked.joined_maker
    Worked.three_made.2.2.1 Worked.three_made.2.2.2

end Worked

end TrustNet.Chain
