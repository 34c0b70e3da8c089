import TrustNet.Consensus.MainList

/-!
# Children come after their parents

A chain node gets its children when blocks are added, and a block is added once its
parent is there. The order of the chain nodes that this gives does not depend on the main
list or on the tip, so it also holds after a `Rebase` that failed half-way through an
addition and left a child without its node: that child can be added again, and then comes
later.
-/

namespace TrustNet
set_option autoImplicit false

/-- The children of the node come after it. -/
def ChainNode.Before (rank : Byte64 → Nat) (n : ChainNode) : Prop := ∀ c ∈ n.children, rank n.hash < rank c

/-- The chain nodes are stored under their hashes, and come before their children. -/
structure Lineage (rank : Byte64 → Nat) (d : Disk) : Prop where
  keyed : ∀ {h n}, getChainNode d h = some n → n.hash = h
  before : ∀ {h n}, getChainNode d h = some n → n.Before rank

section Walks

variable {rank : Byte64 → Nat} {d d' : Disk}

theorem Lineage.of_nodes (lineage : Lineage rank d) (same : ∀ h, getChainNode d' h = getChainNode d h) :
    Lineage rank d' :=
  ⟨fun {h _} found => lineage.keyed ((same h).symm.trans found),
    fun {h _} found => lineage.before ((same h).symm.trans found)⟩

/-- A chain node is written. -/
theorem Lineage.write (lineage : Lineage rank d) (n : ChainNode) (before : n.Before rank) :
    Lineage rank (d.write (.chainNode n.hash) (some (.chainNode n))) := by
  have cases : ∀ {h n'}, getChainNode (d.write (.chainNode n.hash) (some (.chainNode n))) h = some n' →
      (h = n.hash ∧ n' = n) ∨ getChainNode d h = some n' := by
    intro h n' found
    by_cases eq : h = n.hash
    · subst eq
      rw [getChainNode_write_self] at found
      exact Or.inl ⟨rfl, (Option.some.inj found).symm⟩
    · rw [getChainNode_write_of_ne _ d (by simpa using Ne.symm eq)] at found
      exact Or.inr found
  refine ⟨fun found => ?_, fun found => ?_⟩
  · rcases cases found with ⟨rfl, rfl⟩ | old
    · rfl
    · exact lineage.keyed old
  · rcases cases found with ⟨-, rfl⟩ | old
    · exact before
    · exact lineage.before old

theorem findMainListChild_found {parent cn : ChainNode} {skip : Option ChainNode}
    (child : findMainListChild d parent skip = some cn) : ∃ h ∈ parent.children, getChainNode d h = some cn := by
  obtain ⟨h, listed, found⟩ := List.exists_of_findSome?_eq_some child
  refine ⟨h, listed, ?_⟩
  split at found
  · cases found
  · rename_i node stored
    split at found
    · cases found
      exact stored
    · cases found

/-- The child comes after the node. -/
theorem Lineage.child_after (lineage : Lineage rank d) {n cn : ChainNode} {skip : Option ChainNode} (before : n.Before rank)
    (child : findMainListChild d n skip = some cn) : rank n.hash < rank cn.hash ∧ cn.Before rank := by
  obtain ⟨h, listed, found⟩ := findMainListChild_found child
  rw [lineage.keyed found]
  exact ⟨before h listed, lineage.before found⟩

theorem Lineage.resetMainListDown (lineage : Lineage rank d) (fuel : Nat) {cn : Option ChainNode}
    (before : ∀ n, cn = some n → n.Before rank) : Lineage rank (resetMainListDown d fuel cn) := by
  induction fuel generalizing d cn with
  | zero =>
    cases cn with
    | none => exact lineage
    | some cn => exact lineage
  | succ fuel ih =>
    cases cn with
    | none => exact lineage
    | some cn =>
      have kept : (cn.setMainList false).Before rank := before cn rfl
      have written := lineage.write (cn.setMainList false) kept
      exact ih written fun n child => (written.child_after kept child).2

variable [Sha512]

theorem Lineage.markUp (lineage : Lineage rank d) {pn : ChainNode} (before : pn.Before rank) :
    Lineage rank (markUp d pn) := by
  have written := lineage.write (pn.setMainList true) before
  unfold TrustNet.markUp
  simp only
  split
  · rename_i b _
    exact written.of_nodes fun h => getChainNode_of_writes (registerTransactions_writes _ pn.hash b.txs).2.1 (by simp)
  · exact written

theorem Lineage.setMainListUp (lineage : Lineage rank d) (fuel : Nat) {pn : ChainNode} (below : ChainNode)
    (before : pn.Before rank) :
    Lineage rank (setMainListUp d fuel pn below).1 ∧
      ∀ met last, (TrustNet.setMainListUp d fuel pn below).2 = some (met, last) → met.Before rank := by
  induction fuel generalizing d pn below with
  | zero => exact ⟨lineage, by simp [TrustNet.setMainListUp]⟩
  | succ fuel ih =>
    have marked := lineage.markUp before
    rw [setMainListUp_succ]
    split
    · refine ⟨lineage, fun met last eq => ?_⟩
      cases eq
      exact before
    · split
      · exact ⟨marked, by simp⟩
      · rename_i next found
        exact ih marked _ (marked.before found)

/-- A switch of the main list. -/
theorem Lineage.switchMainList (lineage : Lineage rank d) {n pn : ChainNode} (beforeN : n.Before rank)
    (before : pn.Before rank) : Lineage rank (switchMainList d n pn).1 := by
  obtain ⟨up, met⟩ := lineage.setMainListUp (Database.calls d + 1) (n.setMainList true) before
  unfold TrustNet.switchMainList
  simp only
  generalize TrustNet.setMainListUp d (Database.calls d + 1) pn (n.setMainList true) = result at up met ⊢
  obtain ⟨d₁, found⟩ := result
  cases found with
  | none => exact up
  | some found =>
    have written := up.write (n.setMainList true) beforeN
    exact written.resetMainListDown _ fun cn child => (written.child_after (met found.1 found.2 rfl) child).2

end Walks

/-! ## Whole runs -/

section Run

variable [Sha512] {rank : Byte64 → Nat} {d d' : Disk} {child : Block} {h : Byte64} {pn : ChainNode}

/-- A new child comes after its parent, and after the parents that have listed it already. -/
theorem Lineage.linkParent (lineage : Lineage rank d) (admitted : Admitted d child h pn) :
    ∃ rank', Lineage rank' (linkParent d child h pn) ∧ (pn.addChild h).Before rank' := by
  let rank' := Function.update rank h (max (rank h) (rank pn.hash + 1))
  have above : ∀ q, rank q ≤ rank' q := by
    intro q
    by_cases eq : q = h
    · subst eq
      simp [rank']
    · simp [rank', eq]
  have stored : ∀ {q n}, getChainNode d q = some n → rank' n.hash = rank n.hash := by
    intro q n found
    have ne : n.hash ≠ h := by
      intro eq
      rw [lineage.keyed found] at eq
      rw [eq, admitted.fresh] at found
      cases found
    simp [rank', ne]
  have raised : Lineage rank' d :=
    ⟨lineage.keyed, fun found c listed => stored found ▸ (lineage.before found c listed).trans_le (above c)⟩
  have added : (pn.addChild h).Before rank' := by
    intro c listed
    rcases List.mem_append.mp listed with old | new
    · exact raised.before admitted.parent c old
    · rw [List.mem_singleton.mp new]
      show rank' pn.hash < rank' h
      rw [stored admitted.parent]
      simp [rank']
  have put : Lineage rank' (putBlock d child).1 := raised.of_nodes fun q =>
    getChainNode_of_writes (putBlock_writes d child admitted.hash) (by simp)
  exact ⟨rank', put.write (pn.addChild h) added, added⟩

theorem AddResult.lineage {c c' : BlockChainConsensus} {outcome : Outcome} (result : AddResult c d child c' d' outcome)
    (lineage : Lineage rank d) : ∃ rank', Lineage rank' d' := by
  cases result with
  | unhashed hash => exact ⟨rank, lineage⟩
  | duplicateBlock h hash stored => exact ⟨rank, lineage⟩
  | duplicateTx h hash fresh duplicate => exact ⟨rank, lineage⟩
  | noParent h hash fresh missing =>
    exact ⟨rank, lineage.of_nodes fun q => getChainNode_of_writes (putBlock_writes d child hash) (by simp)⟩
  | side h pn admitted lighter =>
    obtain ⟨rank', linked, -⟩ := lineage.linkParent admitted
    exact ⟨rank', linked.write (newChainNode child.toBlockSpec h) fun c listed => by cases listed⟩
  | rebaseFailed h pn msg admitted better missing =>
    obtain ⟨rank', linked, -⟩ := lineage.linkParent admitted
    exact ⟨rank', linked.of_nodes fun q => moveDagTip_nodes q⟩
  | moved h pn d₁ _ state _ admitted better rebased switched =>
    obtain ⟨rank', linked, added⟩ := lineage.linkParent admitted
    have registered := linked.of_nodes (registered_nodes rebased)
    have done := registered.switchMainList (n := newChainNode child.toBlockSpec h) (fun c listed => by cases listed) added
    rw [switched] at done
    exact ⟨rank', done⟩

theorem StepResult.lineage {s s' : System} {a : Action} {o : Option Outcome} (result : StepResult s a s' o)
    (lineage : Lineage rank s.db) : ∃ rank', Lineage rank' s'.db := by
  have steps : TrieSteps (fun _ => False) s.db (freshDisk s.db) := freshDisk_steps s.db
  have fresh := lineage.of_nodes (SameRecords.of_steps steps).chainNode
  cases result with
  | quiet s' o steps engine blocks contents => exact ⟨rank, lineage.of_nodes (SameRecords.of_steps steps).chainNode⟩
  | added i c c' b child ws₀ ws order parent d₁ d' outcome submits target engine block state cleaned valid hashed root
      result =>
    rw [submitted_db]
    exact result.lineage (lineage.of_nodes hashed.records.chainNode)
  | stopped => exact ⟨rank, fresh⟩
  | restarted h spec d' t gn minerId restarts tip found rebased =>
    exact ⟨rank, fresh.of_nodes (SameRecords.of_steps rebased.steps).chainNode⟩

/-- **Children come after their parents, in every state of every run.** -/
theorem Reached.lineage {P : System → Action → Prop} {g : Byte64} {s : System} (reached : Reached P g s) :
    ∃ rank, Lineage rank s.db := by
  refine (reached.invariant (fun s => ∃ rank, Lineage rank s.db) (fun genesisTime now minerId started genesis => ?_)
    (fun s a ready inv _ => ?_)).2
  · rw [(boot_of_started started).2]
    refine ⟨fun _ => 0, fun {h n} found => ?_, fun {h n} found => ?_⟩
    · rw [bootDisk_getChainNode] at found
      split at found
      · rename_i eq
        cases found
        exact eq.symm
      · cases found
    · rw [bootDisk_getChainNode] at found
      split at found
      · cases found
        exact fun c listed => by cases listed
      · cases found
  · obtain ⟨rank, lineage⟩ := inv
    exact (step_result ready a).lineage lineage

end Run

end TrustNet
