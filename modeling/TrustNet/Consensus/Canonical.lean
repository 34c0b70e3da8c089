import Mathlib.Data.List.MinMax
import Mathlib.Data.Prod.Lex
import TrustNet.Consensus.Extend
import TrustNet.Consensus.Steps

/-!
# The canonical chain

`Canonical d g m` is the invariant of the database in runs in which the engine
could always rebase to its new tip: the main list is the branch of `m`, the tip
record names `m`, and `m` is the first of the best blocks in the order of their
acceptance. `Synced` ties the fields that the engine keeps in memory to it.
-/

namespace TrustNet
set_option autoImplicit false
open ParentTree (Anc)
open OrderDual (toDual)

/-- The place of a block in the fork choice: the heavier block comes first, and of two equally heavy
blocks the one with the smaller `Numeric`. -/
def forkRank (wt : UInt64) (h : Byte64) : ℕᵒᵈ ×ₗ ℕ := toLex (toDual wt.toNat, (numeric h).toNat)

theorem forkRank_lt {wt wt' : UInt64} {h h' : Byte64} :
    forkRank wt h < forkRank wt' h' ↔ wt' < wt ∨ (wt' = wt ∧ numeric h < numeric h') := by
  simp only [forkRank, Prod.Lex.toLex_lt_toLex, OrderDual.toDual_lt_toDual, EmbeddingLike.apply_eq_iff_eq,
    UInt64.lt_iff_toNat_lt, UInt64.toNat_inj, eq_comm]

theorem forkRank_le {wt wt' : UInt64} {h h' : Byte64} :
    forkRank wt h ≤ forkRank wt' h' ↔ wt' < wt ∨ (wt' = wt ∧ numeric h ≤ numeric h') := by
  simp only [forkRank, Prod.Lex.toLex_le_toLex, OrderDual.toDual_lt_toDual, EmbeddingLike.apply_eq_iff_eq,
    UInt64.lt_iff_toNat_lt, UInt64.le_iff_toNat_le, UInt64.toNat_inj, eq_comm]

theorem weight_le_of_forkRank {wt wt' : UInt64} {h h' : Byte64} (le : forkRank wt h ≤ forkRank wt' h') : wt' ≤ wt := by
  rcases forkRank_le.mp le with below | ⟨rfl, -⟩
  · exact UInt64.le_of_lt below
  · exact UInt64.le_refl _

/-- The first of the best blocks. -/
def firstBest (blocks : List (Byte64 × BlockSpec)) : Option (Byte64 × BlockSpec) :=
  blocks.argmin fun b => forkRank b.2.wt b.1

/-- A block that comes later wins only if it ranks before all others. -/
theorem firstBest_concat {blocks : List (Byte64 × BlockSpec)} {b : Byte64 × BlockSpec} (b' : Byte64 × BlockSpec)
    (best : firstBest blocks = some b) :
    firstBest (blocks ++ [b']) = if forkRank b'.2.wt b'.1 < forkRank b.2.wt b.1 then some b' else some b := by
  unfold firstBest at best ⊢
  rw [List.argmin_concat, best]

/-- The tip comparison is the order of the ranks. -/
theorem beatsTip_iff {c : BlockChainConsensus} {child : Block} {m h : Byte64} (tip : c.tip.hash = some m)
    (hash : child.hash = some h) : beatsTip c child = true ↔ forkRank child.wt h < forkRank c.weight m := by
  simp [forkRank_lt, beatsTip, Block.numeric, tip, hash]

/-- The database of a node whose main list ends at `m`. -/
structure Canonical (d : Disk) (g m : Byte64) : Prop where
  chain : ChainInv d g m
  complete : ∀ {p pn h}, getChainNode d p = some pn → h ∈ pn.children → (getChainNode d h).isSome
  tip : getDagTip d = some m
  headers : ∀ h, nodeHeader d h = (getSpec d h).map BlockSpec.header
  recorded : ∀ {b}, b ∈ acceptedBlocks d → getSpec d b.1 = some b.2
  first : ∀ {tip}, getSpec d m = some tip → firstBest (acceptedBlocks d) = some (m, tip)

/-- The engine works on the tip that is stored. -/
structure Synced (c : BlockChainConsensus) (d : Disk) (m : Byte64) : Prop where
  hash : c.tip.hash = some m
  spec : getSpec d m = some c.tip.toBlockSpec
  weight : c.weight = c.tip.wt
  root : c.state.rootHash = c.tip.state

variable {d d' : Disk} {g m h : Byte64}

theorem Canonical.stored_iff (inv : Canonical d g m) : (getChainNode d h).isSome = (getSpec d h).isSome := by
  rw [← nodeHeader_isSome, inv.headers, Option.isSome_map]

theorem Canonical.noSpec (inv : Canonical d g m) (fresh : getChainNode d h = none) : getSpec d h = none := by
  have stored := inv.stored_iff (h := h)
  rw [fresh, Option.isSome_none] at stored
  exact Option.isNone_iff_eq_none.mp (by simpa using stored.symm)

theorem Canonical.noNode (inv : Canonical d g m) (fresh : getSpec d h = none) : getChainNode d h = none := by
  have stored := inv.stored_iff (h := h)
  rw [fresh, Option.isSome_none] at stored
  exact Option.isNone_iff_eq_none.mp (by simpa using stored)

/-- The node of a stored block. -/
theorem Canonical.node (inv : Canonical d g m) {spec : BlockSpec} (found : getSpec d h = some spec) :
    ∃ n, getChainNode d h = some n ∧ n.parent = spec.phash ∧ n.depth = spec.depth := by
  have eq := inv.headers h
  rw [nodeHeader, found] at eq
  obtain ⟨n, node, header⟩ := Option.map_eq_some_iff.mp eq
  simp only [BlockSpec.header, ChainNode.header, Prod.mk.injEq] at header
  exact ⟨n, node, header.1, header.2.1⟩

/-- No stored block ranks before the tip. -/
theorem Canonical.best (inv : Canonical d g m) {spec tip : BlockSpec} (foundTip : getSpec d m = some tip)
    (found : getSpec d h = some spec) : forkRank tip.wt m ≤ forkRank spec.wt h :=
  List.le_of_mem_argmin (mem_acceptedBlocks found) (inv.first foundTip)

theorem Canonical.of_records (inv : Canonical d g m) (same : SameRecords d d') (grow : d.log.length ≤ d'.log.length) :
    Canonical d' g m where
  chain := inv.chain.of_nodes same.chainNode grow
  complete := by
    intro p pn h found listed
    rw [same.chainNode] at found ⊢
    exact inv.complete found listed
  tip := same.dagTip.trans inv.tip
  headers h := by rw [nodeHeader, same.chainNode, same.spec]; exact inv.headers h
  recorded member := by
    rw [same.accepted] at member
    exact (same.spec _).trans (inv.recorded member)
  first found := by
    rw [same.spec] at found
    rw [same.accepted]
    exact inv.first found

theorem Synced.of_records {c : BlockChainConsensus} (synced : Synced c d m) (same : SameRecords d d') :
    Synced c d' m :=
  ⟨synced.hash, (same.spec m).trans synced.spec, synced.weight, synced.root⟩

/-- A block that is not stored is listed nowhere. -/
theorem Canonical.only (inv : Canonical d g m) (fresh : getChainNode d h = none) (p : Byte64) : OnlyChildOf d h p := by
  intro q qn found listed
  have stored := inv.complete found listed
  rw [fresh] at stored
  cases stored

section Extended

variable {child : Block}

theorem Extended.complete (inv : Canonical d g m) (extended : Extended d child h d') {p k : Byte64} {pn : ChainNode}
    (found : getChainNode d' p = some pn) (listed : k ∈ pn.children) : (getChainNode d' k).isSome := by
  rw [extended.isSome]
  rcases extended.children found listed with ⟨-, eq⟩ | ⟨pn₀, old, listed⟩
  · exact Or.inl eq
  · exact Or.inr (inv.complete old listed)

theorem Extended.headers (inv : Canonical d g m) (extended : Extended d child h d') (q : Byte64) :
    nodeHeader d' q = (getSpec d' q).map BlockSpec.header := by
  rw [extended.header, extended.spec]
  split
  · rfl
  · exact inv.headers q

theorem Extended.recorded (inv : Canonical d g m) (extended : Extended d child h d') (fresh : getSpec d h = none)
    {b : Byte64 × BlockSpec} (member : b ∈ acceptedBlocks d') : getSpec d' b.1 = some b.2 := by
  rw [extended.order, List.mem_append, List.mem_singleton] at member
  rw [extended.spec]
  rcases member with old | rfl
  · have found := inv.recorded old
    rw [if_neg, found]
    intro eq
    rw [eq, fresh] at found
    cases found
  · rw [if_pos rfl]

/-- The old tip stays if the new block does not rank before it. -/
theorem Extended.canonical_side {tip : BlockSpec} (inv : Canonical d g m) (extended : Extended d child h d')
    (chain : ChainInv d' g m) (dagTip : getDagTip d' = getDagTip d) (fresh : getSpec d h = none)
    (stored : getSpec d m = some tip) (worse : forkRank tip.wt m ≤ forkRank child.wt h) : Canonical d' g m where
  chain := chain
  complete := extended.complete inv
  tip := dagTip.trans inv.tip
  headers := extended.headers inv
  recorded := extended.recorded inv fresh
  first found := by
    have ne : m ≠ h := by
      rintro rfl
      rw [fresh] at stored
      cases stored
    rw [extended.spec, if_neg ne, stored] at found
    cases found
    rw [extended.order, firstBest_concat _ (inv.first stored), if_neg worse.not_gt]

/-- The new block is the best one if it ranks before the old tip. -/
theorem Extended.canonical_moved {tip : BlockSpec} (inv : Canonical d g m) (extended : Extended d child h d')
    (chain : ChainInv d' g h) (dagTip : getDagTip d' = some h) (fresh : getSpec d h = none)
    (stored : getSpec d m = some tip) (better : forkRank child.wt h < forkRank tip.wt m) : Canonical d' g h where
  chain := chain
  complete := extended.complete inv
  tip := dagTip
  headers := extended.headers inv
  recorded := extended.recorded inv fresh
  first found := by
    rw [extended.spec, if_pos rfl] at found
    cases found
    rw [extended.order, firstBest_concat _ (inv.first stored), if_pos better]

end Extended

/-! ## One addition -/

variable [Sha512] {c c' : BlockChainConsensus} {child : Block} {outcome : Outcome}

/-- What an addition does to a canonical database: `m` is the tip before, the last argument the tip
after it. -/
inductive Addition (c : BlockChainConsensus) (d : Disk) (m : Byte64) (child : Block) :
    BlockChainConsensus → Disk → Outcome → Byte64 → Prop where
  | refused (outcome : Outcome) (failed : outcome ≠ .ok) : Addition c d m child c d outcome m
  | side (h : Byte64) (d' : Disk) (hash : child.hash = some h) (fresh : getSpec d h = none)
      (extended : Extended d child h d') (worse : forkRank c.weight m ≤ forkRank child.wt h) :
      Addition c d m child c d' .ok m
  | moved (h : Byte64) (c' : BlockChainConsensus) (d' : Disk) (hash : child.hash = some h) (fresh : getSpec d h = none)
      (extended : Extended d child h d') (better : forkRank child.wt h < forkRank c.weight m) :
      Addition c d m child c' d' .ok h

theorem AddResult.canonical (result : AddResult c d child c' d' outcome) (inv : Canonical d g m) (synced : Synced c d m)
    (stored : ∀ h, child.hash = some h → (putBlock d child).1 = d.write (.block h) (some (.block child.toBlockSpec)))
    (parent : (getSpec d child.phash).isSome) (fine : ∀ msg, outcome ≠ .error (.core .notFound msg)) :
    ∃ m', Addition c d m child c' d' outcome m' ∧ Canonical d' g m' ∧ Synced c' d' m' := by
  cases result with
  | unhashed hash => exact ⟨m, .refused _ (by simp), inv, synced⟩
  | duplicateBlock h hash found => exact ⟨m, .refused _ (by simp), inv, synced⟩
  | duplicateTx h hash fresh duplicate => exact ⟨m, .refused _ (by simp), inv, synced⟩
  | noParent h hash fresh missing =>
    rw [inv.noSpec missing] at parent
    cases parent
  | side h pn admitted lighter =>
    have extended := side_extended inv.chain admitted (stored h admitted.hash)
    have worse : forkRank c.weight m ≤ forkRank child.wt h := by
      rw [← not_lt, ← beatsTip_iff synced.hash admitted.hash, lighter]
      simp
    have dagTip : getDagTip ((linkParent d child h pn).write (.chainNode h)
        (some (.chainNode (newChainNode child.toBlockSpec h)))) = getDagTip d := by
      rw [getDagTip_write_of_ne _ _ (by simp)]
      exact getDagTip_of_writes (linkParent_writes d child pn admitted.hash) (by simp)
    have fresh := inv.noSpec admitted.fresh
    refine ⟨m, .side h _ admitted.hash fresh extended worse, ?_, synced.hash, ?_, synced.weight, synced.root⟩
    · exact extended.canonical_side inv (side_inv inv.chain admitted (inv.only admitted.fresh _)) dagTip fresh
        synced.spec (by rw [← synced.weight]; exact worse)
    · rw [extended.spec, if_neg, synced.spec]
      rintro rfl
      rw [synced.spec] at fresh
      cases fresh
  | rebaseFailed h pn msg admitted better missing => exact absurd rfl (fine msg)
  | moved h pn d₁ _ state _ admitted better rebased switched =>
    obtain ⟨rfl, d₂, qn, last, done⟩ := moved_switched inv.chain admitted (inv.only admitted.fresh _) rebased switched
    have extended := moved_extended inv.chain admitted (stored h admitted.hash) rebased done
    have better := (beatsTip_iff synced.hash admitted.hash).mp better
    refine ⟨h, .moved h _ _ admitted.hash (inv.noSpec admitted.fresh) extended better, ?_, admitted.hash, ?_, rfl,
      rebased.rootHash⟩
    · exact extended.canonical_moved inv ⟨done.tree, done.main⟩ (moved_dagTip rebased done)
        (inv.noSpec admitted.fresh) synced.spec
        (by rw [← synced.weight]; exact better)
    · rw [extended.spec, if_pos rfl]

/-- How the addition of a hashed block to a stored parent ends, if it does not fail in `Rebase`: the block is stored, or
it is a duplicate. -/
theorem AddResult.ends (result : AddResult c d child c' d' outcome) (inv : Canonical d g m) (hash : child.hash = some h)
    (parent : (getSpec d child.phash).isSome) (fine : ∀ msg, outcome ≠ .error (.core .notFound msg)) :
    outcome = .ok ∨ (outcome = .error (.core .duplicateBlock "duplicate block") ∧ (getSpec d h).isSome) ∨
      (outcome = .error (.core .duplicateTx "duplicate transaction") ∧ child.txs.any (isDuplicateTx d child) = true) := by
  cases result with
  | unhashed none' =>
    rw [none'] at hash
    cases hash
  | duplicateBlock h' hash' found =>
    rw [hash, Option.some.injEq] at hash'
    subst hash'
    exact Or.inr (Or.inl ⟨rfl, by rw [← inv.stored_iff]; exact found⟩)
  | duplicateTx h' hash' fresh duplicate => exact Or.inr (Or.inr ⟨rfl, duplicate⟩)
  | noParent h' hash' fresh missing =>
    rw [← inv.stored_iff, missing] at parent
    cases parent
  | side h' pn admitted lighter => exact Or.inl rfl
  | rebaseFailed h' pn msg admitted better missing => exact absurd rfl (fine msg)
  | moved h' pn d₁ _ state _ admitted better rebased switched =>
    exact Or.inl (moved_switched inv.chain admitted (inv.only admitted.fresh _) rebased switched).1

end TrustNet
