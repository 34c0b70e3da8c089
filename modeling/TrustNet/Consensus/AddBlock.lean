import TrustNet.Consensus.Commit
import TrustNet.Consensus.Reorganise

/-!
# Adding a block

`AddResult` lists the ways in which `addValidatedBlock` ends, with the writes
made up to there. All invariants of the engine are read off it.
-/

namespace TrustNet
set_option autoImplicit false
open WriteLog (WritesOnly Wrote)

variable [Sha512]

/-- The block is new, brings no duplicate transaction, and its parent's node is stored. -/
structure Admitted (d : Disk) (child : Block) (h : Byte64) (pn : ChainNode) : Prop where
  hash : child.hash = some h
  fresh : getChainNode d h = none
  clean : child.txs.any (isDuplicateTx d child) = false
  parent : getChainNode d child.phash = some pn

/-- The block is stored and its parent lists it. -/
def linkParent (d : Disk) (child : Block) (h : Byte64) (pn : ChainNode) : Disk :=
  (putBlock d child).1.write (.chainNode pn.hash) (some (.chainNode (pn.addChild h)))

/-- The link, and the tip record of the new tip. -/
def moveDagTip (d : Disk) (child : Block) (h : Byte64) (pn : ChainNode) : Disk :=
  (linkParent d child h pn).write .dagTip (some (.hash h))

/-- The ways in which `addValidatedBlock` ends. -/
inductive AddResult (c : BlockChainConsensus) (d : Disk) (child : Block) :
    BlockChainConsensus → Disk → Outcome → Prop where
  | unhashed (hash : child.hash = none) : AddResult c d child c d .panic
  | duplicateBlock (h : Byte64) (hash : child.hash = some h) (stored : (getChainNode d h).isSome) :
      AddResult c d child c d (.error (.core .duplicateBlock "duplicate block"))
  | duplicateTx (h : Byte64) (hash : child.hash = some h) (fresh : getChainNode d h = none)
      (duplicate : child.txs.any (isDuplicateTx d child) = true) :
      AddResult c d child c d (.error (.core .duplicateTx "duplicate transaction"))
  | noParent (h : Byte64) (hash : child.hash = some h) (fresh : getChainNode d h = none)
      (missing : getChainNode d child.phash = none) :
      AddResult c d child c (putBlock d child).1 (.error (.core .dbCorrupted "missing chain node"))
  | side (h : Byte64) (pn : ChainNode) (admitted : Admitted d child h pn) (lighter : beatsTip c child = false) :
      AddResult c d child c
        ((linkParent d child h pn).write (.chainNode h) (some (.chainNode (newChainNode child.toBlockSpec h)))) .ok
  | rebaseFailed (h : Byte64) (pn : ChainNode) (msg : String) (admitted : Admitted d child h pn)
      (better : beatsTip c child = true) (missing : ¬ Available (moveDagTip d child h pn) child.state) :
      AddResult c d child { c with weight := child.wt, tip := child } (moveDagTip d child h pn)
        (.error (.core .notFound msg))
  | moved (h : Byte64) (pn : ChainNode) (d₁ d' : Disk) (state : MptWorldState) (outcome : Outcome)
      (admitted : Admitted d child h pn) (better : beatsTip c child = true)
      (rebased : Rebased (moveDagTip d child h pn) child.state d₁ state)
      (switched : switchMainList (registerTransactions d₁ h child.txs).1 (newChainNode child.toBlockSpec h)
        (pn.addChild h) = (d', outcome)) :
      AddResult c d child { c with weight := child.wt, tip := child, state } d' outcome

omit [Sha512] in
/-- The keys that storing a block touches. -/
theorem putBlock_writes (d : Disk) (child : Block) {h : Byte64} (hash : child.hash = some h) :
    WritesOnly (fun w => w = (.block h, some (.block child.toBlockSpec))) d (putBlock d child).1 := by
  unfold putBlock
  split
  · exact WritesOnly.refl d
  · rw [hash]
    exact WritesOnly.write (P := fun w => w = (Key.block h, some (Value.block child.toBlockSpec))) rfl d

omit [Sha512] in
theorem linkParent_writes (d : Disk) (child : Block) {h : Byte64} (pn : ChainNode) (hash : child.hash = some h) :
    WritesOnly (fun w => w = (.block h, some (.block child.toBlockSpec)) ∨
      w = (.chainNode pn.hash, some (.chainNode (pn.addChild h)))) d (linkParent d child h pn) :=
  ((putBlock_writes d child hash).mono fun _ => Or.inl).trans (WritesOnly.write (Or.inr rfl) _)

omit [Sha512] in
theorem moveDagTip_writes (d : Disk) (child : Block) {h : Byte64} (pn : ChainNode) (hash : child.hash = some h) :
    WritesOnly (fun w => w = (.block h, some (.block child.toBlockSpec)) ∨
      w = (.chainNode pn.hash, some (.chainNode (pn.addChild h))) ∨ w = (.dagTip, some (.hash h))) d
      (moveDagTip d child h pn) :=
  ((linkParent_writes d child pn hash).mono fun _ h => h.imp_right Or.inl).trans
    (WritesOnly.write (Or.inr (Or.inr rfl)) _)

theorem TrieLog.moveDagTip {d : Disk} (log : TrieLog d) {child : Block} {h : Byte64} (pn : ChainNode)
    (hash : child.hash = some h) : TrieLog (moveDagTip d child h pn) := by
  refine log.writes (moveDagTip_writes d child pn hash) ?_
  rintro w (rfl | rfl | rfl) trie
  · cases trie
  · cases trie
  · cases trie

section MoveTip

variable {c : BlockChainConsensus} {d d₁ : Disk} {child : Block} {childNode pn : ChainNode} {state : MptWorldState}

theorem moveTip_of_failed {e : Err}
    (rebase : c.state.rebase (d.write .dagTip (some (.hash childNode.hash))) child.state = (d₁, state, some e)) :
    moveTip c d child childNode pn = ({ c with weight := childNode.weight, tip := child }, d₁, .error e) := by
  simp only [moveTip, Disk.put_eq, rebase]

theorem moveTip_of_rebased (hasState : child.worldState.isSome)
    (rebase : c.state.rebase (d.write .dagTip (some (.hash childNode.hash))) child.state = (d₁, state, none)) :
    moveTip c d child childNode pn =
      ({ c with weight := childNode.weight, tip := child, state },
        switchMainList (registerTransactions d₁ childNode.hash child.txs).1 childNode pn) := by
  have fine := (registerTransactions_writes d₁ childNode.hash child.txs).1
  simp only [moveTip, Disk.put_eq, rebase, hasState, if_true]
  generalize registerTransactions d₁ childNode.hash child.txs = result at fine ⊢
  obtain ⟨d₂, e⟩ := result
  cases fine
  rfl

end MoveTip

theorem addValidatedBlock_result {d : Disk} {c : BlockChainConsensus} (child : Block) (log : TrieLog d)
    (ready : c.state.Ready) (hasState : child.worldState.isSome) :
    AddResult c d child (addValidatedBlock c d child child.phash).1 (addValidatedBlock c d child child.phash).2.1
      (addValidatedBlock c d child child.phash).2.2 := by
  unfold addValidatedBlock
  cases hash : child.hash with
  | none => exact .unhashed hash
  | some h =>
    simp only
    split
    · rename_i stored
      exact .duplicateBlock h hash stored
    · rename_i fresh
      rw [Bool.not_eq_true, Option.isSome_eq_false_iff, Option.isNone_iff_eq_none] at fresh
      split
      · rename_i duplicate
        exact .duplicateTx h hash fresh duplicate
      · rename_i clean
        rw [Bool.not_eq_true] at clean
        have parentEq : getChainNode (putBlock d child).1 child.phash = getChainNode d child.phash :=
          getChainNode_of_writes (putBlock_writes d child hash) (by simp)
        rw [parentEq]
        cases parent : getChainNode d child.phash with
        | none => exact .noParent h hash fresh parent
        | some pn =>
          have admitted : Admitted d child h pn := ⟨hash, fresh, clean, parent⟩
          simp only
          split
          · rename_i better
            rcases rebase_cases (log.moveDagTip pn hash) c.state ready.txNode child.state with
              ⟨missing, msg, eq⟩ | ⟨d₁, state, eq, rebased⟩
            · rw [moveTip_of_failed eq]
              exact .rebaseFailed h pn msg admitted better missing
            · rw [moveTip_of_rebased hasState eq]
              exact .moved h pn d₁ _ state _ admitted better rebased rfl
          · rename_i lighter
            rw [Bool.not_eq_true] at lighter
            exact .side h pn admitted lighter

/-! ## The writes of an addition -/

/-- The block itself, records of the other tables of the engine, and trie writes without deletions. -/
def AddWrite (child : Block) (w : Key × Option Value) : Prop :=
  (∃ h, child.hash = some h ∧ w = (.block h, some (.block child.toBlockSpec))) ∨
    (∃ h, w = (.dagTip, some (.hash h))) ∨ SwitchWrite w ∨ TrieWrite (fun _ => False) w

section Writes

variable {c c' : BlockChainConsensus} {d d' : Disk} {child : Block} {outcome : Outcome} {h : Byte64} {pn : ChainNode}

theorem moveDagTip_addWrites (hash : child.hash = some h) :
    WritesOnly (AddWrite child) d (moveDagTip d child h pn) := by
  refine (moveDagTip_writes d child pn hash).mono ?_
  rintro w (rfl | rfl | rfl)
  · exact Or.inl ⟨h, hash, rfl⟩
  · exact Or.inr (Or.inr (Or.inl (Or.inl ⟨_, _, rfl⟩)))
  · exact Or.inr (Or.inl ⟨h, rfl⟩)

theorem linkParent_addWrites (hash : child.hash = some h) :
    WritesOnly (AddWrite child) d (linkParent d child h pn) := by
  refine (linkParent_writes d child pn hash).mono ?_
  rintro w (rfl | rfl)
  · exact Or.inl ⟨h, hash, rfl⟩
  · exact Or.inr (Or.inr (Or.inl (Or.inl ⟨_, _, rfl⟩)))

theorem register_addWrites (d : Disk) (h : Byte64) (txs : List Transaction) :
    WritesOnly (AddWrite child) d (registerTransactions d h txs).1 := by
  refine (registerTransactions_writes d h txs).2.1.mono ?_
  rintro w ⟨tx, -, rfl⟩
  exact Or.inr (Or.inr (Or.inl (Or.inr ⟨_, _, rfl⟩)))

theorem AddResult.writes (result : AddResult c d child c' d' outcome) : WritesOnly (AddWrite child) d d' := by
  cases result with
  | unhashed hash => exact WritesOnly.refl d
  | duplicateBlock h hash stored => exact WritesOnly.refl d
  | duplicateTx h hash fresh duplicate => exact WritesOnly.refl d
  | noParent h hash fresh missing =>
    exact (putBlock_writes d child hash).mono fun w eq => Or.inl ⟨h, hash, eq⟩
  | side h pn admitted lighter =>
    exact (linkParent_addWrites admitted.hash).trans (WritesOnly.write (Or.inr (Or.inr (Or.inl (Or.inl ⟨_, _, rfl⟩)))) _)
  | rebaseFailed h pn msg admitted better missing => exact moveDagTip_addWrites admitted.hash
  | moved h pn d₁ _ state _ admitted better rebased switched =>
    have last := switchMainList_writes (registerTransactions d₁ h child.txs).1 (newChainNode child.toBlockSpec h)
      (pn.addChild h)
    rw [switched] at last
    exact (((moveDagTip_addWrites admitted.hash).trans (rebased.steps.mono fun w write =>
      Or.inr (Or.inr (Or.inr write)))).trans (register_addWrites d₁ h child.txs)).trans
      (last.mono fun w write => Or.inr (Or.inr (Or.inl write)))

theorem AddResult.trieLog (result : AddResult c d child c' d' outcome) (log : TrieLog d) : TrieLog d' := by
  refine log.writes result.writes ?_
  rintro w (⟨h, -, rfl⟩ | ⟨h, rfl⟩ | (⟨h, n, rfl⟩ | ⟨id, h, rfl⟩) | write) trie
  · cases trie
  · cases trie
  · cases trie
  · cases trie
  · exact write.mono fun _ hit => hit.elim

theorem AddResult.dagTip_isSome (result : AddResult c d child c' d' outcome) (tip : (getDagTip d).isSome) :
    (getDagTip d').isSome := by
  rcases result.writes.get_cases .dagTip with same | ⟨h, -, eq⟩ | ⟨h, eq⟩ | (⟨h, n, eq⟩ | ⟨id, h, eq⟩) | write
  · simp only [getDagTip, Disk.get_eq, same] at tip ⊢
    exact tip
  · cases eq
  · simp only [Prod.mk.injEq, true_and] at eq
    simp [getDagTip, eq]
  · cases eq
  · cases eq
  · cases write.isTrie

/-- The stored blocks after an addition. -/
theorem AddResult.getSpec_cases (result : AddResult c d child c' d' outcome) (h : Byte64) :
    getSpec d' h = getSpec d h ∨ (child.hash = some h ∧ getSpec d' h = some child.toBlockSpec) := by
  rcases result.writes.get_cases (.block h) with same | ⟨h', hash, eq⟩ | ⟨h', eq⟩ | (⟨h', n, eq⟩ | ⟨id, h', eq⟩) | write
  · left
    simp only [getSpec, Disk.get_eq, same]
  · simp only [Prod.mk.injEq, Key.block.injEq] at eq
    obtain ⟨rfl, value⟩ := eq
    right
    simp [getSpec, value, hash]
  · cases eq
  · cases eq
  · cases eq
  · cases write.isTrie

/-- The engine after an addition is in working order. -/
theorem AddResult.engine_ready (result : AddResult c d child c' d' outcome) (alive : outcome ≠ .panic)
    (ready : c.state.Ready) (tip : c.tip.hash.isSome) (state : child.state ≠ null) :
    c'.state.Ready ∧ c'.tip.hash.isSome := by
  cases result with
  | unhashed hash => exact absurd rfl alive
  | duplicateBlock h hash stored => exact ⟨ready, tip⟩
  | duplicateTx h hash fresh duplicate => exact ⟨ready, tip⟩
  | noParent h hash fresh missing => exact ⟨ready, tip⟩
  | side h pn admitted lighter => exact ⟨ready, tip⟩
  | rebaseFailed h pn msg admitted better missing => exact ⟨ready, by simp [admitted.hash]⟩
  | moved h pn d₁ _ t _ admitted better rebased switched =>
    exact ⟨⟨rebased.txNode, by rw [rebased.rootHash]; exact state⟩, by simp [admitted.hash]⟩

end Writes

end TrustNet
