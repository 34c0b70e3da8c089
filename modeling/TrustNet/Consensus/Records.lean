import TrustNet.Consensus.Engine
import TrustNet.Trie.Writes

/-!
# Reading the engine's records

Frame lemmas for the four tables of the engine, and what `putBlock` and
`registerTransactions` write.
-/

namespace TrustNet
set_option autoImplicit false
open WriteLog (WritesOnly Wrote)

section Frame

variable {P : Key × Option Value → Prop} {d d' : Disk} {h : Byte64}

theorem getChainNode_of_writes (writes : WritesOnly P d d') (untouched : ∀ v, ¬ P (.chainNode h, v)) :
    getChainNode d' h = getChainNode d h := by
  simp only [getChainNode, Disk.get_eq, writes.get_eq untouched]

theorem getSpec_of_writes (writes : WritesOnly P d d') (untouched : ∀ v, ¬ P (.block h, v)) :
    getSpec d' h = getSpec d h := by
  simp only [getSpec, Disk.get_eq, writes.get_eq untouched]

theorem getDagTip_of_writes (writes : WritesOnly P d d') (untouched : ∀ v, ¬ P (.dagTip, v)) :
    getDagTip d' = getDagTip d := by
  simp only [getDagTip, Disk.get_eq, writes.get_eq untouched]

theorem hasTransaction_of_writes (writes : WritesOnly P d d') (untouched : ∀ v, ¬ P (.flatTx h, v)) :
    hasTransaction d' h = hasTransaction d h := by
  simp only [hasTransaction, Disk.get_eq, writes.get_eq untouched]

theorem getNode_of_writes {k : Key} (writes : WritesOnly P d d') (untouched : ∀ v, ¬ P (k, v)) :
    getNode d' k = getNode d k := by
  simp only [getNode, Disk.get_eq, writes.get_eq untouched]

variable {k : Key} (v : Option Value)

theorem getChainNode_write_of_ne (d : Disk) (ne : k ≠ .chainNode h) :
    getChainNode (d.write k v) h = getChainNode d h := by
  simp only [getChainNode, Disk.get_eq, WriteLog.get_write_of_ne d v ne]

theorem getSpec_write_of_ne (d : Disk) (ne : k ≠ .block h) : getSpec (d.write k v) h = getSpec d h := by
  simp only [getSpec, Disk.get_eq, WriteLog.get_write_of_ne d v ne]

theorem getDagTip_write_of_ne (d : Disk) (ne : k ≠ .dagTip) : getDagTip (d.write k v) = getDagTip d := by
  simp only [getDagTip, Disk.get_eq, WriteLog.get_write_of_ne d v ne]

theorem hasTransaction_write_of_ne (d : Disk) (ne : k ≠ .flatTx h) :
    hasTransaction (d.write k v) h = hasTransaction d h := by
  simp only [hasTransaction, Disk.get_eq, WriteLog.get_write_of_ne d v ne]

@[simp] theorem getChainNode_write_self (d : Disk) (h : Byte64) (n : ChainNode) :
    getChainNode (d.write (.chainNode h) (some (.chainNode n))) h = some n := by
  simp [getChainNode]

@[simp] theorem getSpec_write_self (d : Disk) (h : Byte64) (spec : BlockSpec) :
    getSpec (d.write (.block h) (some (.block spec))) h = some spec := by
  simp [getSpec]

@[simp] theorem getDagTip_write_self (d : Disk) (h : Byte64) :
    getDagTip (d.write .dagTip (some (.hash h))) = some h := by
  simp [getDagTip]

end Frame

/-! ## The order of acceptance -/

/-- The block that a write stores. -/
def storedBlock : Key × Option Value → Option (Byte64 × BlockSpec)
  | (.block h, some (.block spec)) => some (h, spec)
  | _ => none

/-- The stored blocks in the order in which the engine accepted them. -/
def acceptedBlocks (d : Disk) : List (Byte64 × BlockSpec) := d.log.reverse.filterMap storedBlock

theorem storedBlock_eq_some {w : Key × Option Value} {b : Byte64 × BlockSpec} :
    storedBlock w = some b ↔ w = (.block b.1, some (.block b.2)) := by
  constructor
  · intro stored
    unfold storedBlock at stored
    split at stored
    · cases stored
      rfl
    · cases stored
  · rintro rfl
    rfl

theorem acceptedBlocks_of_writes {P : Key × Option Value → Prop} {d d' : Disk} (writes : WritesOnly P d d')
    (untouched : ∀ h v, ¬ P (.block h, v)) : acceptedBlocks d' = acceptedBlocks d := by
  obtain ⟨ws, eq, all⟩ := writes
  have skip : ws.reverse.filterMap storedBlock = [] := by
    refine List.filterMap_eq_nil_iff.mpr fun w member => ?_
    cases stored : storedBlock w with
    | none => rfl
    | some b =>
      have hit := all w (List.mem_reverse.mp member)
      rw [storedBlock_eq_some.mp stored] at hit
      exact absurd hit (untouched _ _)
  simp only [acceptedBlocks, eq, List.reverse_append, List.filterMap_append, skip, List.append_nil]

theorem acceptedBlocks_length_le (d : Disk) : (acceptedBlocks d).length ≤ d.log.length := by
  have le := List.length_filterMap_le storedBlock d.log.reverse
  rwa [List.length_reverse] at le

theorem acceptedBlocks_write (d : Disk) (h : Byte64) (spec : BlockSpec) :
    acceptedBlocks (d.write (.block h) (some (.block spec))) = acceptedBlocks d ++ [(h, spec)] := by
  simp [acceptedBlocks, WriteLog.write, storedBlock]

theorem acceptedBlocks_write_of_ne (d : Disk) {k : Key} (v : Option Value) (ne : ∀ h, k ≠ .block h) :
    acceptedBlocks (d.write k v) = acceptedBlocks d :=
  acceptedBlocks_of_writes (WritesOnly.write (P := fun w => w = (k, v)) rfl d)
    (fun h _ eq => ne h (congrArg Prod.fst eq).symm)

/-- A block that is read was accepted. -/
theorem mem_acceptedBlocks {d : Disk} {h : Byte64} {spec : BlockSpec} (found : getSpec d h = some spec) :
    (h, spec) ∈ acceptedBlocks d := by
  have read : WriteLog.get d (.block h) = some (.block spec) := by
    simp only [getSpec, Disk.get_eq] at found
    split at found
    · rename_i b eq
      cases found
      exact eq
    · cases found
  exact List.mem_filterMap.mpr ⟨_, List.mem_reverse.mpr (WriteLog.mem_of_get read), rfl⟩

/-- The records of the engine do not change in trie writes. -/
structure SameRecords (d d' : Disk) : Prop where
  accepted : acceptedBlocks d' = acceptedBlocks d
  chainNode : ∀ h, getChainNode d' h = getChainNode d h
  spec : ∀ h, getSpec d' h = getSpec d h
  dagTip : getDagTip d' = getDagTip d
  index : ∀ id, hasTransaction d' id = hasTransaction d id

theorem SameRecords.of_writes {P : Key × Option Value → Prop} {d d' : Disk} (writes : WritesOnly P d d')
    (trie : ∀ w, P w → w.1.isTrie = true) : SameRecords d d' where
  accepted := acceptedBlocks_of_writes writes fun _ _ write => by cases trie _ write
  chainNode h := getChainNode_of_writes writes fun _ write => by cases trie _ write
  spec h := getSpec_of_writes writes fun _ write => by cases trie _ write
  dagTip := getDagTip_of_writes writes fun _ write => by cases trie _ write
  index h := hasTransaction_of_writes writes fun _ write => by cases trie _ write

theorem SameRecords.refl (d : Disk) : SameRecords d d := ⟨rfl, fun _ => rfl, fun _ => rfl, rfl, fun _ => rfl⟩

theorem SameRecords.trans {d d' d'' : Disk} (first : SameRecords d d') (second : SameRecords d' d'') :
    SameRecords d d'' :=
  ⟨second.accepted.trans first.accepted, fun h => (second.chainNode h).trans (first.chainNode h), fun h => (second.spec h).trans (first.spec h),
    second.dagTip.trans first.dagTip, fun h => (second.index h).trans (first.index h)⟩

variable [Sha512]

theorem SameRecords.of_steps {cleaned : Byte64 → Prop} {d d' : Disk} (steps : TrieSteps cleaned d d') :
    SameRecords d d' :=
  SameRecords.of_writes steps fun _ write => write.isTrie

omit [Sha512] in
/-- `putBlock` writes the wire fields of a block whose state is in order. -/
theorem putBlock_eq {d : Disk} {b : Block} {ws : MptWorldState} {h : Byte64} (state : b.state ≠ null)
    (open_ : b.worldState = some ws) (root : ws.rootHash = b.state) (hash : b.hash = some h) :
    (putBlock d b).1 = d.write (.block h) (some (.block b.toBlockSpec)) := by
  simp [putBlock, state, open_, root, hash]

/-- The index entries of a block's transactions. -/
theorem registerTransactions_writes (d : Disk) (h : Byte64) (txs : List Transaction) :
    (registerTransactions d h txs).2 = none ∧
      WritesOnly (fun w => ∃ tx ∈ txs, w = (.flatTx tx.id, some (.hash h))) d (registerTransactions d h txs).1 ∧
      ∀ tx ∈ txs, Wrote d (registerTransactions d h txs).1 (.flatTx tx.id, some (.hash h)) := by
  induction txs generalizing d with
  | nil => exact ⟨rfl, WritesOnly.refl d, by simp⟩
  | cons tx txs ih =>
    obtain ⟨fine, writes, wrote⟩ := ih (d.write (.flatTx tx.id) (some (.hash h)))
    have first := WritesOnly.write (P := fun w => ∃ t ∈ tx :: txs, w = (.flatTx t.id, some (.hash h)))
      ⟨tx, List.mem_cons_self, rfl⟩ d
    have rest := writes.mono (Q := fun w => ∃ t ∈ tx :: txs, w = (.flatTx t.id, some (.hash h)))
      fun w ⟨t, member, eq⟩ => ⟨t, List.mem_cons_of_mem _ member, eq⟩
    refine ⟨fine, first.trans rest, fun t member => ?_⟩
    rcases List.mem_cons.mp member with rfl | member
    · exact (Wrote.write d _ _).after rest
    · exact (wrote t member).before first

end TrustNet
