import TrustNet.Trie.WorldState

/-!
# What the trie operations write

All marking of old nodes was taken out of the source, so the only state node
that is ever stored without the `unmarked` tombstone is the empty node that
`NewMptWorldState` writes. `Cleanup` of a root therefore removes the root's
transaction record and, when the root is the empty node, that node; it never
removes any other state node.
-/

namespace TrustNet
set_option autoImplicit false
open WriteLog (WritesOnly)

/-- The node has no children and no value. -/
def Node.IsEmpty (n : Node) : Prop := n.idxs = (fun _ => null) ∧ n.value = []

theorem emptyNode_isEmpty : emptyNode.IsEmpty := ⟨rfl, rfl⟩

theorem mem_of_getNode {d : Disk} {key : Key} {n : Node} (found : getNode d key = some n) :
    (key, some (.node n)) ∈ d.log := by
  unfold getNode at found
  split at found
  · rename_i m read
    cases found
    exact WriteLog.mem_of_get read
  · cases found

variable [Sha512]

/-- The hash does not cover the tombstone. -/
theorem Node.hash_congr {m n : Node} (idxs : m.idxs = n.idxs) (value : m.value = n.value) : m.hash = n.hash := by
  simp only [Node.hash, idxs, value]

theorem Node.IsEmpty.hash_eq {n : Node} (empty : n.IsEmpty) : n.hash = emptyNode.hash :=
  Node.hash_congr empty.1 empty.2

/-- A key of one of the three trie tables. -/
def Key.isTrie : Key → Bool
  | .state _ | .tx _ | .txRoot _ => true
  | _ => false

/-- The writes of trie operations that clean up no root but those in `cleaned`. -/
inductive TrieWrite (cleaned : Byte64 → Prop) : Key × Option Value → Prop where
  | node (n : Node) (mark : n.tombstone = .unmarked ∨ n.IsEmpty) : TrieWrite cleaned (.state n.hash, some (.node n))
  | txRoot (h : Byte64) (n : Node) (empty : n.IsEmpty) : TrieWrite cleaned (.txRoot h, some (.node n))
  | dropTx (h : Byte64) : TrieWrite cleaned (.tx h, none)
  | dropRoot (h : Byte64) (hit : cleaned h) : TrieWrite cleaned (.txRoot h, none)
  | dropEmpty (hit : cleaned emptyNode.hash) : TrieWrite cleaned (.state emptyNode.hash, none)

theorem TrieWrite.isTrie {cleaned : Byte64 → Prop} {w : Key × Option Value} (h : TrieWrite cleaned w) :
    w.1.isTrie = true := by
  cases h <;> rfl

theorem TrieWrite.mono {cleaned cleaned' : Byte64 → Prop} (imp : ∀ h, cleaned h → cleaned' h)
    (w : Key × Option Value) (h : TrieWrite cleaned w) : TrieWrite cleaned' w := by
  cases h with
  | node n mark => exact .node n mark
  | txRoot h n empty => exact .txRoot h n empty
  | dropTx h => exact .dropTx h
  | dropRoot h hit => exact .dropRoot h (imp h hit)
  | dropEmpty hit => exact .dropEmpty (imp _ hit)

/-- Every trie record of the database was written by a trie operation. -/
def TrieLog (d : Disk) : Prop := ∀ w ∈ d.log, w.1.isTrie = true → TrieWrite (fun _ => True) w

variable {d d' : Disk} {cleaned : Byte64 → Prop}

theorem TrieLog.of_suffix (log : TrieLog d') (cut : d.log <:+ d'.log) : TrieLog d :=
  fun w member => log w (cut.subset member)

/-- The trie writes of a step, none of which cleans up a root outside `cleaned`. -/
abbrev TrieSteps (cleaned : Byte64 → Prop) (d d' : Disk) : Prop := WritesOnly (TrieWrite cleaned) d d'

theorem TrieLog.empty : TrieLog WriteLog.empty := by
  intro w member
  cases member

theorem TrieLog.writes {P : Key × Option Value → Prop} (log : TrieLog d) (writes : WritesOnly P d d')
    (trie : ∀ w, P w → w.1.isTrie = true → TrieWrite (fun _ => True) w) : TrieLog d' := by
  intro w member isTrie
  rcases writes.mem_cases member with old | new
  · exact log w old isTrie
  · exact trie w new isTrie

theorem TrieLog.steps (log : TrieLog d) (steps : TrieSteps cleaned d d') : TrieLog d' :=
  log.writes steps fun _ write _ => write.mono (fun _ _ => trivial)

/-- A state node is stored under its hash. -/
theorem TrieLog.state (log : TrieLog d) {h : Byte64} {n : Node} (found : getState d h = some n) :
    h = n.hash ∧ (n.tombstone = .unmarked ∨ n.IsEmpty) := by
  cases log _ (mem_of_getNode found) rfl with
  | node n mark => exact ⟨rfl, mark⟩

theorem TrieLog.txRoot (log : TrieLog d) {h : Byte64} {n : Node} (found : getNode d (.txRoot h) = some n) :
    n.IsEmpty := by
  cases log _ (mem_of_getNode found) rfl with
  | txRoot h n empty => exact empty

/-! ## Create, update, delete -/

/-- The world state of `NewMptWorldState`. -/
def freshState : MptWorldState := ⟨emptyNode.hash, emptyNode, emptyNode⟩

theorem newMptWorldState_eq (d : Disk) :
    newMptWorldState d = ((d.write (.state emptyNode.hash) (some (.node emptyNode))).write
      (.txRoot emptyNode.hash) (some (.node emptyNode)), some ⟨emptyNode.hash, emptyNode, emptyNode⟩) := rfl

theorem newMptWorldState_steps (d : Disk) : TrieSteps cleaned d (newMptWorldState d).1 :=
  (WritesOnly.write (.node emptyNode (Or.inr emptyNode_isEmpty)) d).trans
    (WritesOnly.write (.txRoot _ _ emptyNode_isEmpty) _)

theorem putState_steps (d : Disk) (n : Node) (mark : n.tombstone = .unmarked) :
    TrieSteps cleaned d (d.write (.state n.hash) (some (.node n))) :=
  WritesOnly.write (.node n (Or.inl mark)) d

/-- The node with a new child in slot `k`, as the depth-first walks leave it. -/
def Node.withChild (n : Node) (k : Fin 16) (childHash : Byte64) : Node :=
  { tombStone n with idxs := Function.update n.idxs k childHash }

/-- The node that `Update` finds in slot `k`, or a fresh one. -/
def childNode (d : Disk) (n : Node) (k : Fin 16) : Node :=
  (if n.idxs k ≠ null then getState d (n.idxs k) else none).getD emptyNode

theorem updateDepthFirst_cons (d : Disk) (n : Node) (k : Fin 16) (keyHex : List (Fin 16)) (value : Bytes) :
    updateDepthFirst putState getState d n (k :: keyHex) value =
      match updateDepthFirst putState getState d (childNode d n k) keyHex value with
      | (d', _, childHash) =>
        if childHash = null then (d', n, null)
        else (d'.write (.state (n.withChild k childHash).hash) (some (.node (n.withChild k childHash))),
          n.withChild k childHash, (n.withChild k childHash).hash) := rfl

/-- All that `Update` writes on its way: unmarked state nodes. -/
theorem updateDepthFirst_writes {P : Key × Option Value → Prop}
    (node : ∀ n : Node, n.tombstone = .unmarked → P (.state n.hash, some (.node n))) (keyHex : List (Fin 16))
    (value : Bytes) (d : Disk) (n : Node) : WritesOnly P d (updateDepthFirst putState getState d n keyHex value).1 := by
  induction keyHex generalizing d n with
  | nil => exact WritesOnly.write (node _ rfl) d
  | cons k keyHex ih =>
    rw [updateDepthFirst_cons]
    have child := ih d (childNode d n k)
    generalize updateDepthFirst putState getState d (childNode d n k) keyHex value = walk at child ⊢
    obtain ⟨d', _, childHash⟩ := walk
    simp only
    split
    · exact child
    · exact child.trans (WritesOnly.write (node _ rfl) d')

theorem updateDepthFirst_steps (keyHex : List (Fin 16)) (value : Bytes) (d : Disk) (n : Node) :
    TrieSteps cleaned d (updateDepthFirst putState getState d n keyHex value).1 :=
  updateDepthFirst_writes (fun n mark => .node n (Or.inl mark)) keyHex value d n

theorem deleteDepthFirst_cons (d : Disk) (n : Node) (k : Fin 16) (keyHex : List (Fin 16)) :
    deleteDepthFirst putState getState d n (k :: keyHex) =
      if n.idxs k ≠ null then
        match getState d (n.idxs k) with
        | none => (d, n, null)
        | some child =>
          match deleteDepthFirst putState getState d child keyHex with
          | (d', _, childHash) =>
            if childHash = null then (d', n, null)
            else (d'.write (.state (n.withChild k childHash).hash) (some (.node (n.withChild k childHash))),
              n.withChild k childHash, (n.withChild k childHash).hash)
      else (d, n, null) := rfl

theorem deleteDepthFirst_writes {P : Key × Option Value → Prop}
    (node : ∀ n : Node, n.tombstone = .unmarked → P (.state n.hash, some (.node n))) (keyHex : List (Fin 16))
    (d : Disk) (n : Node) : WritesOnly P d (deleteDepthFirst putState getState d n keyHex).1 := by
  induction keyHex generalizing d n with
  | nil => exact WritesOnly.write (node _ rfl) d
  | cons k keyHex ih =>
    rw [deleteDepthFirst_cons]
    split
    · split
      · exact WritesOnly.refl d
      · rename_i child _
        have below := ih d child
        generalize deleteDepthFirst putState getState d child keyHex = walk at below ⊢
        obtain ⟨d', _, childHash⟩ := walk
        simp only
        split
        · exact below
        · exact below.trans (WritesOnly.write (node _ rfl) d')
    · exact WritesOnly.refl d

theorem deleteDepthFirst_steps (keyHex : List (Fin 16)) (d : Disk) (n : Node) :
    TrieSteps cleaned d (deleteDepthFirst putState getState d n keyHex).1 :=
  deleteDepthFirst_writes (fun n mark => .node n (Or.inl mark)) keyHex d n

omit [Sha512] in
theorem switchRoot_eq (t : MptWorldState) (d : Disk) (rootNode : Node) (newHash : Byte64) :
    t.switchRoot (d, rootNode, newHash) =
      if newHash ≠ null then
        ((d.write (.txRoot t.rootHash) (some (.node { t.txNode with tombstone := .marked }))).write
          (.txRoot newHash) (some (.node { t.txNode with tombstone := .unmarked })),
          ⟨newHash, rootNode, { t.txNode with tombstone := .unmarked }⟩, newHash)
      else (d, { t with rootNode }, t.rootHash) := rfl

theorem switchRoot_steps {t : MptWorldState} (empty : t.txNode.IsEmpty) {walk : Disk × Node × Byte64}
    (steps : TrieSteps cleaned d walk.1) : TrieSteps cleaned d (t.switchRoot walk).1 := by
  obtain ⟨d₁, rootNode, newHash⟩ := walk
  rw [switchRoot_eq]
  split
  · exact (steps.trans (WritesOnly.write (.txRoot _ _ empty) _)).trans (WritesOnly.write (.txRoot _ _ empty) _)
  · exact steps

omit [Sha512] in
theorem switchRoot_txNode {t : MptWorldState} (empty : t.txNode.IsEmpty) (walk : Disk × Node × Byte64) :
    (t.switchRoot walk).2.1.txNode.IsEmpty := by
  obtain ⟨d₁, rootNode, newHash⟩ := walk
  rw [switchRoot_eq]
  split
  · exact empty
  · exact empty

omit [Sha512] in
/-- `Update` and `Delete` return the root hash they leave. -/
theorem switchRoot_hash (t : MptWorldState) (walk : Disk × Node × Byte64) :
    (t.switchRoot walk).2.2 = (t.switchRoot walk).2.1.rootHash := by
  obtain ⟨d₁, rootNode, newHash⟩ := walk
  rw [switchRoot_eq]
  split
  · rfl
  · rfl

/-! ## Rebase -/

/-- A world state can be rebased to `h`. -/
def Available (d : Disk) (h : Byte64) : Prop := (getState d h).isSome ∧ (getNode d (.txRoot h)).isSome

/-- What `Rebase` leaves when it succeeds. -/
structure Rebased (d : Disk) (h : Byte64) (d' : Disk) (t' : MptWorldState) : Prop where
  available : Available d h
  rootHash : t'.rootHash = h
  rootNode : ∃ n, getState d h = some n ∧ t'.rootNode = { n with tombstone := .unmarked }
  txNode : t'.txNode.IsEmpty
  steps : TrieSteps (fun _ => False) d d'
  stored : (.state t'.rootNode.hash, some (.node t'.rootNode)) ∈ d'.log
  writes : WritesOnly (fun w => w = (.state t'.rootNode.hash, some (.node t'.rootNode)) ∨ ∃ r v, w = (.txRoot r, v)) d d'

/-- `Rebase` fails exactly when the root is not available, and then writes nothing. -/
theorem rebase_cases (log : TrieLog d) (t : MptWorldState) (empty : t.txNode.IsEmpty) (h : Byte64) :
    (¬ Available d h ∧ ∃ msg, t.rebase d h = (d, t, some (.core .notFound msg))) ∨
      ∃ d' t', t.rebase d h = (d', t', none) ∧ Rebased d h d' t' := by
  unfold MptWorldState.rebase
  cases state : getState d h with
  | none => exact Or.inl ⟨by simp [Available, state], _, rfl⟩
  | some n =>
    cases root : getNode d (.txRoot h) with
    | none => exact Or.inl ⟨by simp [Available, root], _, rfl⟩
    | some tx =>
      have txEmpty : tx.IsEmpty := log.txRoot root
      refine Or.inr ⟨_, _, rfl, ⟨⟨by simp [state], by simp [root]⟩, rfl, ⟨n, state, rfl⟩, txEmpty, ?_, ?_, ?_⟩⟩
      · have node : TrieSteps (fun _ => False) d _ := putState_steps d { n with tombstone := .unmarked } rfl
        exact (node.trans (WritesOnly.write (.txRoot _ _ txEmpty) _)).trans (WritesOnly.write (.txRoot _ _ empty) _)
      · exact List.mem_cons_of_mem _ (List.mem_cons_of_mem _ List.mem_cons_self)
      · exact ((WritesOnly.write (Or.inl rfl) d).trans (WritesOnly.write (Or.inr ⟨_, _, rfl⟩) _)).trans
          (WritesOnly.write (Or.inr ⟨_, _, rfl⟩) _)

/-! ## Cleanup -/

/-- A node without children is the only one its clean-up removes. -/
theorem cleanupDepthFirst_of_isEmpty (get : Disk → Byte64 → Option Node)
    (del : Disk → Byte64 → Disk × Option String) (fuel : Nat) (d : Disk) {n : Node} (empty : n.IsEmpty) :
    cleanupDepthFirst get del (fuel + 1) d n =
      if n.tombstone = .unmarked then d else (del d emptyNode.hash).1 := by
  simp only [cleanupDepthFirst, empty.hash_eq]
  rw [List.foldl_fixed']
  intro i
  rw [empty.1, if_pos rfl]

theorem cleanup_steps (log : TrieLog d) (h : Byte64) : TrieSteps (fun r => r = h) d (cleanup d h).1 := by
  unfold cleanup
  cases state : getState d h with
  | none => exact WritesOnly.refl d
  | some n =>
    obtain ⟨key, mark⟩ := log.state state
    have nodes : TrieSteps (fun r => r = h) d
        (cleanupDepthFirst getState deleteState (Database.calls d + 1) d n) := by
      rcases mark with mark | empty
      · simp only [cleanupDepthFirst, mark, if_true]
        exact WritesOnly.refl d
      · rw [cleanupDepthFirst_of_isEmpty _ _ _ _ empty]
        split
        · exact WritesOnly.refl d
        · exact WritesOnly.write (.dropEmpty (by rw [key, empty.hash_eq])) d
    have log' := log.steps nodes
    simp only
    generalize cleanupDepthFirst getState deleteState (Database.calls d + 1) d n = d₁ at nodes log' ⊢
    cases root : getNode d₁ (.txRoot h) with
    | none => exact nodes
    | some tx =>
      have txs : TrieSteps (fun r => r = h) d₁ (cleanupDepthFirst getTx deleteTx (Database.calls d₁ + 1) d₁ tx) := by
        rw [cleanupDepthFirst_of_isEmpty _ _ _ _ (log'.txRoot root)]
        split
        · exact WritesOnly.refl d₁
        · exact WritesOnly.write (.dropTx _) d₁
      exact (nodes.trans txs).trans (WritesOnly.write (.dropRoot h rfl) _)

end TrustNet
