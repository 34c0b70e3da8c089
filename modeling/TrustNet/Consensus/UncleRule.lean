import TrustNet.Consensus.Uncles

/-!
# The uncle rule

`isUncleValid` climbs from the parent and from the uncle with three loops that share one
distance. In a well-formed chain DAG they end, and the distance is that of the deeper
block to the lowest common ancestor, so the rule that the code checks is: the uncle is
stored, it and the parent are on different branches, and neither is more than five blocks
below the block where these part.
-/

namespace TrustNet
set_option autoImplicit false
open ParentTree (Anc Leveled Lowest)

/-- A well-formed chain DAG: the blocks have their chain nodes, genesis has depth 0, and the parent of every other node
is stored and one less deep. -/
structure ChainDag (d : Disk) (g : Byte64) : Prop where
  keyed : ∀ {h n}, getChainNode d h = some n → n.hash = h
  blocks : ∀ h, (getChainNode d h).isSome = (getSpec d h).isSome
  genesis : ∃ n, getChainNode d g = some n ∧ n.depth = 0
  parent : ∀ {h n}, getChainNode d h = some n → h ≠ g →
    ∃ p, getChainNode d n.parent = some p ∧ n.depth.toNat = p.depth.toNat + 1

/-- The depth of a stored block. -/
def depthAt (d : Disk) (h : Byte64) : Nat := ((getChainNode d h).map fun n => n.depth.toNat).getD 0

/-- `isUncleValid`, if none of its loops tests its condition more than `fuel` times. -/
def isUncleValidWithin (fuel : Nat) (d : Disk) (child : Block) (uHash : Byte64) : Option (Block × Bool) :=
  match getChainNode d uHash with
  | none => some (child, false)
  | some uncle =>
    (While.loop (deeperThan uncle.depth) (climb d) fuel (getChainNode d child.phash, 0)).bind fun first =>
    (While.loop (fun s => first.1.any fun p => deeperThan p.depth s) (climb d) fuel (some uncle, first.2)).bind fun second =>
    match first.1, second.1 with
    | some parent, some uncle =>
      if parent.hash = uncle.hash then some (child, false)
      else
        (While.loop apart (climbPair d) fuel (some parent, some uncle, second.2)).map fun last =>
          if last.1.isSome ∧ last.2.1.isSome ∧ last.2.2 ≤ maxUncleDistance then
            match getBlock d uHash with
            | none => (child, false)
            | some uncleBlock => ({ child with uncleMiners := child.uncleMiners ++ [uncleBlock.miner] }, true)
          else (child, false)
    | _, _ => some (child, false)

section Within

variable {d : Disk} {child : Block} {u : Byte64} {result : Block × Bool}

/-- The bounded climbs of the engine's model are enough where the loops end. -/
theorem isUncleValid_of_within (ends : isUncleValidWithin (Database.calls d + 1) d child u = some result) :
    isUncleValid d child u = result := by
  unfold isUncleValidWithin at ends
  unfold isUncleValid uncleInReach
  cases stored : getChainNode d u with
  | none =>
    simp only [stored] at ends
    cases ends
    rfl
  | some uncle =>
    simp only [stored] at ends
    obtain ⟨⟨parent, distance⟩, first, ends⟩ := Option.bind_eq_some_iff.mp ends
    obtain ⟨⟨uncle', distance'⟩, second, ends⟩ := Option.bind_eq_some_iff.mp ends
    simp only [climbParent_of_loop first]
    cases parent with
    | none =>
      cases ends
      rfl
    | some p =>
      simp only [Option.any_some] at second
      simp only [climbUncle_of_loop (s := (some uncle, distance)) second]
      cases uncle' with
      | none =>
        cases ends
        rfl
      | some k =>
        simp only at ends ⊢
        split at ends
        · rename_i same
          cases ends
          simp [same]
        · rename_i differ
          obtain ⟨⟨p', k', total⟩, third, ends⟩ := Option.map_eq_some_iff.mp ends
          simp only [if_neg differ, climbBoth_of_loop third]
          cases p' with
          | none => simpa using ends
          | some p' =>
            cases k' with
            | none => simpa using ends
            | some k' =>
              cases block : getBlock d u with
              | none => simpa [block] using ends
              | some b => simpa [block] using ends

end Within

/-! ## Climbing a well-formed DAG -/

section Dag

variable {d : Disk} {g : Byte64}

theorem depthAt_of_found {h : Byte64} {n : ChainNode} (found : getChainNode d h = some n) : depthAt d h = n.depth.toNat := by
  simp [depthAt, found]

theorem depthAt_lt (d : Disk) (h : Byte64) : depthAt d h < 2 ^ 64 := by
  unfold depthAt
  cases getChainNode d h with
  | none => simp
  | some n => exact n.depth.toNat_lt

theorem ChainDag.climbs (dag : ChainDag d g) : Climbs d g (depthAt d) := by
  have up : ∀ {x p}, parentOf d g x = some p →
      ∃ n pn, getChainNode d x = some n ∧ getChainNode d p = some pn ∧ n.depth.toNat = pn.depth.toNat + 1 := by
    intro x p edge
    unfold parentOf at edge
    split at edge
    · cases edge
    · rename_i ne
      obtain ⟨n, found, rfl⟩ := Option.map_eq_some_iff.mp edge
      obtain ⟨pn, stored, depth⟩ := dag.parent found ne
      exact ⟨n, pn, found, stored, depth⟩
  refine ⟨fun {x} stored => ?_, fun x p edge => ?_, fun {x p} edge => ?_⟩
  · obtain ⟨n, found⟩ := Option.isSome_iff_exists.mp stored
    refine ⟨n, found, dag.keyed found, ?_⟩
    rw [depthAt_of_found found, UInt64.ofNat_toNat]
  · obtain ⟨n, pn, found, stored, depth⟩ := up edge
    rw [depthAt_of_found found, depthAt_of_found stored, depth]
  · obtain ⟨n, pn, -, stored, -⟩ := up edge
    rw [stored]
    rfl

/-- Every stored block descends from genesis. -/
theorem ChainDag.anc_genesis (dag : ChainDag d g) {h : Byte64} (stored : (getChainNode d h).isSome) :
    Anc (parentOf d g) h g := by
  induction depth : depthAt d h generalizing h with
  | zero =>
    obtain ⟨n, found⟩ := Option.isSome_iff_exists.mp stored
    by_cases root : h = g
    · rw [root]
      exact Anc.refl
    · obtain ⟨p, -, deeper⟩ := dag.parent found root
      rw [depthAt_of_found found] at depth
      omega
  | succ depth' ih =>
    obtain ⟨n, found⟩ := Option.isSome_iff_exists.mp stored
    by_cases root : h = g
    · rw [root]
      exact Anc.refl
    · obtain ⟨p, storedP, deeper⟩ := dag.parent found root
      rw [depthAt_of_found found] at depth
      refine Anc.head (parentOf_of_found found root) (ih (by rw [storedP]; rfl) ?_)
      rw [depthAt_of_found storedP]
      omega

/-- A block has no more ancestors than the database has records. -/
theorem ChainDag.depthAt_lt_log (dag : ChainDag d g) {h : Byte64} (stored : (getChainNode d h).isSome) :
    depthAt d h < d.log.length := by
  have climbs := dag.climbs
  obtain ⟨n, found, depth⟩ := dag.genesis
  obtain ⟨branch, nodup, length, above⟩ := (dag.anc_genesis stored).exists_branch climbs.edge
  have root : depthAt d g = 0 := by
    rw [depthAt_of_found found, depth]
    rfl
  have logged : ∀ k ∈ branch.map Key.chainNode, k ∈ d.log.map Prod.fst := by
    intro k member
    obtain ⟨x, listed, rfl⟩ := List.mem_map.mp member
    obtain ⟨n, found⟩ := Option.isSome_iff_exists.mp (climbs.anc_stored stored (above x listed))
    unfold getChainNode at found
    split at found
    · rename_i read
      exact List.mem_map.mpr ⟨_, WriteLog.mem_of_get read, rfl⟩
    · cases found
  have fits := ((nodup.map fun x y eq => Key.chainNode.inj eq).subperm logged).length_le
  rw [List.length_map, List.length_map, length, root] at fits
  omega

/-- The two climbs to one level: the blocks that they reach, and the distances. -/
structure Leveling (d : Disk) (g p u x y : Byte64) : Prop where
  left : Anc (parentOf d g) p x
  right : Anc (parentOf d g) u y
  atLeft : depthAt d x = min (depthAt d p) (depthAt d u)
  atRight : depthAt d y = min (depthAt d p) (depthAt d u)

theorem ChainDag.exists_leveling (dag : ChainDag d g) {p u : Byte64} (stored : (getChainNode d p).isSome)
    (storedU : (getChainNode d u).isSome) : ∃ x y, Leveling d g p u x y := by
  obtain ⟨n, found, depth⟩ := dag.genesis
  have root : depthAt d g = 0 := by
    rw [depthAt_of_found found, depth]
    rfl
  obtain ⟨x, px, -, atX⟩ := (dag.anc_genesis stored).at_level dag.climbs.edge (l := min (depthAt d p) (depthAt d u))
    (by omega) (by omega)
  obtain ⟨y, uy, -, atY⟩ := (dag.anc_genesis storedU).at_level dag.climbs.edge (l := min (depthAt d p) (depthAt d u))
    (by omega) (by omega)
  exact ⟨x, y, px, uy, atX, atY⟩

/-- The climbs meet before the third loop exactly if one of the blocks is an ancestor of the other. -/
theorem Leveling.meet_iff {p u x y : Byte64} (leveling : Leveling d g p u x y) (leveled : Leveled (parentOf d g) (depthAt d)) :
    x = y ↔ Anc (parentOf d g) p u ∨ Anc (parentOf d g) u p := by
  obtain ⟨px, uy, atX, atY⟩ := leveling
  constructor
  · rintro rfl
    rcases Nat.le_total (depthAt d p) (depthAt d u) with le | le
    · rw [min_eq_left le] at atX
      rw [px.eq_of_level leveled atX.symm]
      exact Or.inr uy
    · rw [min_eq_right le] at atX
      rw [uy.eq_of_level leveled atX.symm]
      exact Or.inl px
  · rintro (pu | up)
    · have le := pu.rank_le leveled.ranked
      rw [min_eq_right le] at atX atY
      have here : u = y := uy.eq_of_level leveled atY.symm
      rw [← here] at atY ⊢
      exact (px.of_level_le leveled pu (by omega)).eq_of_level leveled (by omega)
    · have le := up.rank_le leveled.ranked
      rw [min_eq_left le] at atX atY
      have here : p = x := px.eq_of_level leveled atX.symm
      rw [← here] at atX ⊢
      exact ((uy.of_level_le leveled up (by omega)).eq_of_level leveled (by omega)).symm

/-- The third loop starts below the lowest common ancestor. -/
theorem Leveling.lowest {p u x y q : Byte64} (leveling : Leveling d g p u x y)
    (leveled : Leveled (parentOf d g) (depthAt d)) (lowest : Lowest (parentOf d g) p u q) : Lowest (parentOf d g) x y q := by
  have leP := lowest.left.rank_le leveled.ranked
  have leU := lowest.right.rank_le leveled.ranked
  have xq := leveling.left.of_level_le leveled lowest.left (by rw [leveling.atLeft]; omega)
  have yq := leveling.right.of_level_le leveled lowest.right (by rw [leveling.atRight]; omega)
  exact ((lowest.of_anc leveling.left xq).symm.of_anc leveling.right yq).symm

/-- The first loop. -/
theorem ChainDag.first_loop (dag : ChainDag d g) {p u x y : Byte64} (leveling : Leveling d g p u x y)
    (stored : (getChainNode d p).isSome) {fuel : Nat} (enough : d.log.length < fuel) :
    While.loop (deeperThan (UInt64.ofNat (depthAt d u))) (climb d) fuel (getChainNode d p, 0) =
      some (getChainNode d x, UInt64.ofNat (depthAt d p - depthAt d x)) := by
  have climbs := dag.climbs
  have short := dag.depthAt_lt_log stored
  rcases Nat.le_total (depthAt d u) (depthAt d p) with le | le
  · have atX := leveling.atLeft
    rw [min_eq_right le] at atX
    rw [← atX, climbs.up leveling.left stored (depthAt_lt d p) (by omega) 0, UInt64.zero_add]
  · -- the uncle is as deep as the parent, and the loop stops at once
    have atX := leveling.atLeft
    rw [min_eq_left le] at atX
    obtain ⟨fuel, rfl⟩ : ∃ k, fuel = k + 1 := ⟨fuel - 1, by omega⟩
    obtain ⟨n, found, -, depth⟩ := climbs.view stored
    rw [← leveling.left.eq_of_level climbs.edge atX.symm, Nat.sub_self, While.loop_stop]
    · rfl
    · simp only [deeperThan, found, Option.any_some, depth, gt_iff_lt, decide_eq_false_iff_not, UInt64.not_lt,
        UInt64.le_iff_toNat_le, UInt64.toNat_ofNat']
      rw [Nat.mod_eq_of_lt (depthAt_lt d p), Nat.mod_eq_of_lt (depthAt_lt d u)]
      exact le

/-- What `isUncleValid` returns for a stored uncle. -/
def uncleResult (d : Disk) (child : Block) (u : Byte64) (near : Bool) : Block × Bool :=
  match near, getBlock d u with
  | true, some b => ({ child with uncleMiners := child.uncleMiners ++ [b.miner] }, true)
  | _, _ => (child, false)

theorem uncleResult_snd (child : Block) {u : Byte64} {b : Block} (found : getBlock d u = some b) (near : Bool) :
    (uncleResult d child u near).2 = near := by
  cases near with
  | false => rfl
  | true => simp [uncleResult, found]

/-- The loops end, and count the distance of the deeper block to the lowest common ancestor. -/
theorem ChainDag.within_eq (dag : ChainDag d g) {child : Block} {u x y q : Byte64} (leveling : Leveling d g child.phash u x y)
    (lowest : Lowest (parentOf d g) child.phash u q) (stored : (getChainNode d child.phash).isSome)
    (storedU : (getChainNode d u).isSome) {fuel : Nat} (enough : d.log.length < fuel) :
    isUncleValidWithin fuel d child u = some (uncleResult d child u
      (decide (x ≠ y ∧ max (depthAt d child.phash) (depthAt d u) - depthAt d q ≤ 5))) := by
  have climbs := dag.climbs
  have below := leveling.lowest climbs.edge lowest
  have storedX := climbs.anc_stored stored leveling.left
  have storedY := climbs.anc_stored storedU leveling.right
  obtain ⟨un, foundU, -, depthU⟩ := climbs.view storedU
  obtain ⟨xn, foundX, hashX, depthX⟩ := climbs.view storedX
  obtain ⟨yn, foundY, hashY, -⟩ := climbs.view storedY
  obtain ⟨qn, foundQ, -, -⟩ := climbs.view (climbs.anc_stored stored lowest.left)
  have shortU := dag.depthAt_lt_log storedU
  have shortX := dag.depthAt_lt_log storedX
  have level : depthAt d x = depthAt d y := leveling.atLeft.trans leveling.atRight.symm
  have first := dag.first_loop leveling stored enough
  have second := climbs.up leveling.right storedU (depthAt_lt d u)
    (show depthAt d u - depthAt d y < fuel by omega) (UInt64.ofNat (depthAt d child.phash - depthAt d x))
  have third := climbs.up_both below storedX storedY level (show depthAt d x - depthAt d q < fuel by omega)
    (UInt64.ofNat (depthAt d child.phash - depthAt d x) + UInt64.ofNat (depthAt d u - depthAt d y))
  have deepQ := below.left.rank_le climbs.edge.ranked
  have small := depthAt_lt d child.phash
  have smallU := depthAt_lt d u
  have total : depthAt d child.phash - depthAt d y + (depthAt d u - depthAt d y) + (depthAt d y - depthAt d q) =
      max (depthAt d child.phash) (depthAt d u) - depthAt d q := by
    have atX := leveling.atLeft
    have atY := leveling.atRight
    omega
  have count : UInt64.ofNat (max (depthAt d child.phash) (depthAt d u) - depthAt d q) ≤ maxUncleDistance ↔
      max (depthAt d child.phash) (depthAt d u) - depthAt d q ≤ 5 := by
    rw [UInt64.le_iff_toNat_le, UInt64.toNat_ofNat', Nat.mod_eq_of_lt (by omega)]
    rfl
  rw [level, ← UInt64.ofNat_add, ← UInt64.ofNat_add, total, foundX, foundY, foundQ] at third
  rw [← level] at second
  unfold isUncleValidWithin
  rw [foundU]
  simp only [depthU, first, Option.bind_some, foundX, Option.any_some, depthX]
  rw [← foundU, second, level, foundY]
  simp only [Option.bind_some, hashX, hashY]
  by_cases same : x = y
  · simp [same, uncleResult]
  · rw [if_neg same, ← UInt64.ofNat_add, third]
    simp only [Option.map_some, Option.isSome_some, true_and, count, ne_eq, same, not_false_eq_true]
    by_cases near : max (depthAt d child.phash) (depthAt d u) - depthAt d q ≤ 5
    · cases block : getBlock d u with
      | none => simp [near, block, uncleResult]
      | some b => simp [near, block, uncleResult]
    · simp [near, uncleResult]

/-- **Uncle validation is exact.** In a well-formed chain DAG the loops of `isUncleValid` end, for every block on a
stored parent and every hash. The result is true exactly if the uncle is stored, it and the parent are on different
branches, and the deeper of them is at most five blocks below their lowest common ancestor. -/
theorem uncle_validation_exact (dag : ChainDag d g) (child : Block) (stored : (getSpec d child.phash).isSome) (u : Byte64) :
    (∀ fuel, d.log.length < fuel → isUncleValidWithin fuel d child u = some (isUncleValid d child u)) ∧
      ((isUncleValid d child u).2 = true ↔ (getSpec d u).isSome ∧ ¬ Anc (parentOf d g) child.phash u ∧
        ¬ Anc (parentOf d g) u child.phash ∧ ∃ q, Lowest (parentOf d g) child.phash u q ∧
          max (depthAt d child.phash) (depthAt d u) - depthAt d q ≤ 5) := by
  rw [← dag.blocks] at stored ⊢
  cases foundU : getChainNode d u with
  | none =>
    have within : ∀ fuel, isUncleValidWithin fuel d child u = some (child, false) := by
      intro fuel
      simp [isUncleValidWithin, foundU]
    rw [isUncleValid_of_within (within _)]
    exact ⟨fun fuel _ => within fuel, by simp⟩
  | some un =>
    have storedU : (getChainNode d u).isSome := by
      rw [foundU]
      rfl
    have leveled := dag.climbs.edge
    obtain ⟨x, y, leveling⟩ := dag.exists_leveling stored storedU
    obtain ⟨q, lowest⟩ := (dag.anc_genesis stored).exists_lowest (dag.anc_genesis storedU)
    have within := fun {fuel : Nat} (enough : d.log.length < fuel) =>
      dag.within_eq leveling lowest stored storedU enough
    have result := isUncleValid_of_within (within (Nat.lt_succ_self _))
    refine ⟨fun fuel enough => by rw [within enough, result], ?_⟩
    have block : (getBlock d u).isSome := by
      rw [getBlock_eq, Option.isSome_map, ← dag.blocks]
      exact storedU
    obtain ⟨b, found⟩ := Option.isSome_iff_exists.mp block
    have verdict : (isUncleValid d child u).2 =
        decide (x ≠ y ∧ max (depthAt d child.phash) (depthAt d u) - depthAt d q ≤ 5) := by
      rw [result]
      exact uncleResult_snd child found _
    rw [verdict, decide_eq_true_eq, ne_eq, leveling.meet_iff leveled, not_or]
    constructor
    · rintro ⟨⟨notUp, notDown⟩, near⟩
      exact ⟨rfl, notUp, notDown, q, lowest, near⟩
    · rintro ⟨-, notUp, notDown, q', lowest', near⟩
      rw [lowest.unique leveled.ranked lowest']
      exact ⟨⟨notUp, notDown⟩, near⟩

end Dag

/-! ## The DAG of a node -/

section Reached

variable [Sha512] {g : Byte64} {s : System}

/-- The chain DAG of a node is well-formed, as long as its depths fit into 64 bits. -/
theorem Reached.chainDag (reached : Reached RebaseOk g s) (room : (acceptedBlocks s.db).length ≤ 2 ^ 64) :
    ChainDag s.db g := by
  obtain ⟨m, inv, -⟩ := reached.onTip
  obtain ⟨level, levels⟩ := reached.dag.levels
  have climbs := levels.climbs inv
  have depth : ∀ {h n}, getChainNode s.db h = some n → n.depth.toNat = level h := by
    intro h n found
    obtain ⟨n', found', -, depth⟩ := climbs.view (by rw [found]; rfl)
    rw [found] at found'
    cases found'
    have stored : (getSpec s.db h).isSome := by
      rw [← inv.stored_iff, found]
      rfl
    obtain ⟨spec, foundSpec⟩ := Option.isSome_iff_exists.mp stored
    rw [depth, UInt64.toNat_ofNat', Nat.mod_eq_of_lt ((levels.bound foundSpec).trans_le room)]
  refine ⟨inv.chain.tree.keyed, fun h => inv.stored_iff, ?_, fun {h n} found ne => ?_⟩
  · obtain ⟨n, found, -, zero⟩ := climbs.view inv.chain.tree.genesis
    exact ⟨n, found, by rw [zero, levels.genesis]; rfl⟩
  · have edge := parentOf_of_found found ne
    obtain ⟨p, foundP⟩ := Option.isSome_iff_exists.mp (climbs.stored edge)
    exact ⟨p, foundP, by rw [depth found, depth foundP, levels.edge h n.parent edge]⟩

end Reached

section Worked

attribute [local instance] workedSha512

theorem uncle_validation_exact_rivals :
    let s := (System.boot 1 1 [7]).run Worked.leftFirst
    (isUncleValidWithin (s.db.log.length + 1) s.db Worked.nephew.toBlock (digest rightDigest)).map
        (fun result => (result.1.uncleMiners, result.2)) = some ([[2]], true) ∧
      ¬ Anc (parentOf s.db (genesisHash 1 1)) (digest leftDigest) (digest rightDigest) := by
  intro s
  have run : (acceptedBlocks s.db).length = 3 ∧ (getSpec s.db Worked.nephew.phash).isSome = true ∧
      (isUncleValid s.db Worked.nephew.toBlock (digest rightDigest)).2 = true ∧
      (isUncleValid s.db Worked.nephew.toBlock (digest rightDigest)).1.uncleMiners = [[2]] := by decide +kernel
  obtain ⟨count, stored, valid, miners⟩ := run
  have room : (acceptedBlocks s.db).length ≤ 2 ^ 64 := by
    rw [count]
    decide
  have reached : Reached RebaseOk (genesisHash 1 1) s := Worked.rivals_reached.1
  obtain ⟨ends, exact⟩ := uncle_validation_exact (reached.chainDag room) Worked.nephew.toBlock stored (digest rightDigest)
  obtain ⟨-, apart, -⟩ := exact.mp valid
  refine ⟨?_, apart⟩
  rw [ends _ (Nat.lt_succ_self _), Option.map_some, miners, valid]

end Worked

end TrustNet
