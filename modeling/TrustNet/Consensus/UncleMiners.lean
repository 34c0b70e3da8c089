import TrustNet.Consensus.Calls

/-!
# The miners of the uncles

A candidate takes the miners of its uncles from the search that finds them; a decoded
block gets them while its uncles are validated. Both are the miners of the stored uncle
blocks, in the order of the uncles.
-/

namespace TrustNet
set_option autoImplicit false

/-- The miner of a stored block. -/
def minerAt (d : Disk) (hash : Byte64) : Bytes := ((getSpec d hash).map BlockSpec.miner).getD []

section Found

variable {d d' : Disk} {b b' : Block}

theorem minerAt_of_getBlock {h : Byte64} (found : getBlock d h = some b) : b.miner = minerAt d h := by
  unfold getBlock at found
  obtain ⟨spec, stored, rfl⟩ := Option.map_eq_some_iff.mp found
  simp [minerAt, stored, BlockSpec.toBlock]

theorem findNonDirectAncestors_miner (maxDepth : UInt64) (distance : Nat) (node : Byte64) :
    ∀ u ∈ findNonDirectAncestors d maxDepth distance node, u.miner = minerAt d u.hash := by
  induction distance generalizing node with
  | zero => simp [findNonDirectAncestors]
  | succ distance ih =>
    intro u member
    rw [findNonDirectAncestors] at member
    split at member
    · cases member
    · obtain ⟨child, -, member⟩ := List.mem_flatMap.mp member
      split at member
      · cases member
      · rename_i b found
        split at member
        · rcases List.mem_cons.mp member with rfl | deeper
          · exact minerAt_of_getBlock found
          · exact ih child u deeper
        · cases member

theorem findUncles_miner (maxDepth : UInt64) (distance : Nat) (grandParent parent : Byte64) :
    ∀ u ∈ findUncles d maxDepth distance grandParent parent, u.miner = minerAt d u.hash := by
  induction distance generalizing grandParent parent with
  | zero => simp [findUncles]
  | succ distance ih =>
    intro u member
    rw [findUncles] at member
    split at member
    · cases member
    · split at member
      · cases member
      · rename_i node _
        rcases List.mem_append.mp member with beside | above
        · obtain ⟨child, -, member⟩ := List.mem_flatMap.mp beside
          split at member
          · cases member
          · split at member
            · cases member
            · rename_i b found
              rcases List.mem_cons.mp member with rfl | deeper
              · exact minerAt_of_getBlock found
              · exact findNonDirectAncestors_miner maxDepth distance child u deeper
        · exact ih node.parent node.hash u above

theorem addUncles_uncles (uncles : List Uncle) (b : Block) :
    (uncles.foldl Block.addUncle b).uncles = b.uncles ++ uncles.map Uncle.hash ∧
      (uncles.foldl Block.addUncle b).uncleMiners = b.uncleMiners ++ uncles.map Uncle.miner := by
  induction uncles generalizing b with
  | nil => simp
  | cons u uncles ih =>
    obtain ⟨hashes, miners⟩ := ih (b.addUncle u)
    rw [List.foldl_cons, hashes, miners]
    simp [Block.addUncle]

theorem isUncleValid_miner {u : Byte64} (valid : isUncleValid d b u = (b', true)) :
    b' = { b with uncleMiners := b.uncleMiners ++ [minerAt d u] } := by
  unfold isUncleValid at valid
  split at valid
  · split at valid
    · cases valid
    · rename_i block found
      cases valid
      rw [minerAt_of_getBlock found]
  · cases valid

theorem validateUncles_miners {uncles : List Byte64} {weight weight' : UInt64}
    (valid : validateUncles d uncles b weight = (b', some weight')) :
    b' = { b with uncleMiners := b.uncleMiners ++ uncles.map (minerAt d) } := by
  induction uncles generalizing b weight with
  | nil =>
    cases valid
    simp
  | cons u uncles ih =>
    rw [validateUncles] at valid
    split at valid
    · cases valid
    · rename_i b₁ first
      rw [ih valid, isUncleValid_miner first]
      simp

/-- A block that passes has the miners of its uncles appended. -/
theorem validateBlock_miners {parent : Block} (valid : validateBlock d b = (b', .ok parent)) :
    b' = { b with uncleMiners := b.uncleMiners ++ b.uncles.map (minerAt d) } := by
  unfold validateBlock at valid
  split at valid
  · cases valid
  · split at valid
    · cases valid
    · split at valid
      · cases valid
      · rename_i b₁ weight uncles
        split at valid
        · cases valid
        · cases valid
          exact validateUncles_miners uncles

variable [Sha512]

/-- A candidate has the miners of its uncles. -/
theorem newCandidateBlock_miners {c : BlockChainConsensus} {now : UInt64}
    (made : newCandidateBlock c d now = (d', some b)) : b.uncleMiners = b.uncles.map (minerAt d') := by
  unfold newCandidateBlock at made
  split at made
  · cases made
  · split at made
    · cases made
    · cases made
    · rename_i tipHash _ _
      cases made
      obtain ⟨hashes, miners⟩ := addUncles_uncles
        (findUncles d' c.tip.depth maxUncleDistance.toNat c.tip.phash tipHash)
        (newBlock tipHash (c.tip.wt + 1) (c.tip.depth + 1) now (now - c.tip.ts) c.minerId _ now)
      rw [hashes, miners]
      simp only [newBlock, List.nil_append, List.map_map]
      exact List.map_congr_left (findUncles_miner _ _ _ _)

/-- So has a decoded block. -/
theorem decodeNetworkBlockSpec_miners {spec : BlockSpec} (decoded : decodeNetworkBlockSpec d spec = (d', .ok b)) :
    b.uncleMiners = spec.uncles.map (minerAt d) := by
  unfold decodeNetworkBlockSpec at decoded
  split at decoded
  · cases decoded
  · rename_i b₁ parent valid
    have miners := validateBlock_miners valid
    split at decoded
    · cases decoded
    · split at decoded
      · cases decoded
      · cases decoded
        simp [miners, BlockSpec.toBlock]

end Found

end TrustNet
