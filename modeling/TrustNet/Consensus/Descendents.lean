import TrustNet.Consensus.Dag
import TrustNet.Consensus.Transactions

/-!
# Batches of descendents

`Descendents` follows the main list from a block on it and lists every block after
its uncles, the uncles of the first block included. A block whose uncles do not fit
into what is left of the batch ends it. The batch is therefore the uncles of the first
block, followed by consecutive blocks of the main list with their uncles; it comes to
the next block of the main list if the uncles of the two fit together.
-/

namespace TrustNet
set_option autoImplicit false
open ParentTree (Anc Ranked)

/-! ## Uncles -/

/-- The uncles of a stored block, as blocks. -/
def uncleBlocks (d : Disk) (h : Byte64) : List Block :=
  match getSpec d h with
  | some spec => spec.uncles.filterMap (getBlock d)
  | none => []

/-- How many uncles a stored block lists. -/
def uncleCount (d : Disk) (h : Byte64) : Nat := ((getSpec d h).map (·.uncles.length)).getD 0

/-- A block of the main list as it comes in a batch, after its uncles. -/
def served (d : Disk) (h : Byte64) : List Block := uncleBlocks d h ++ (getBlock d h).toList

/-- The uncles of a block are stored, and do not descend from it. -/
def UnclesBefore (d : Disk) (g : Byte64) : Prop :=
  ∀ ⦃h spec u⦄, getSpec d h = some spec → u ∈ spec.uncles → (getSpec d u).isSome ∧ ¬ Anc (parentOf d g) u h

section Uncles

variable {d d' : Disk} {g m h : Byte64}

theorem UnclesBefore.of_records (before : UnclesBefore d g) (same : SameRecords d d') : UnclesBefore d' g := by
  intro h spec u found listed
  rw [same.spec] at found
  rw [same.spec, (SameNodes.of_eq same.chainNode).parentOf_eq]
  exact before found listed

/-- The uncles of a new block are older than it. -/
theorem UnclesBefore.extended {child : Block} {parent : BlockSpec} (before : UnclesBefore d g) (inv : Canonical d g m)
    (fresh : getSpec d h = none) (valid : Valid d child.toBlockSpec parent) (extended : Extended d child h d') :
    UnclesBefore d' g := by
  have freshNode := inv.noNode fresh
  have old : ∀ {u}, (getSpec d u).isSome →
      (getSpec d' u).isSome ∧ ∀ {q}, Anc (parentOf d' g) u q ↔ Anc (parentOf d g) u q := by
    intro u stored
    have ne : u ≠ h := by
      rintro rfl
      rw [fresh] at stored
      cases stored
    rw [extended.spec, if_neg ne]
    exact ⟨stored, extended.anc_old inv.chain.tree freshNode ne⟩
  intro q spec u found listed
  rw [extended.spec] at found
  split at found
  · rename_i eq
    cases found
    have stored := (valid.uncles u listed).2
    refine ⟨(old stored).1, fun up => ?_⟩
    rw [eq, (old stored).2] at up
    have storedH := inv.chain.tree.anc_stored (by rw [inv.stored_iff]; exact stored) up
    rw [freshNode] at storedH
    cases storedH
  · obtain ⟨stored, apart⟩ := before found listed
    exact ⟨(old stored).1, fun up => apart ((old stored).2.mp up)⟩

variable [Sha512]

theorem Reached.unclesBefore {s : System} (reached : Reached RebaseOk g s) : UnclesBefore s.db g := by
  refine (reached.invariant (fun s => OnTip g s ∧ UnclesBefore s.db g) (fun genesisTime now minerId started genesis => ?_)
    (fun s a ready inv fine => ?_)).2.2
  · refine ⟨genesis ▸ onTip_boot started, fun h spec u found listed => ?_⟩
    rw [(boot_of_started started).2, bootDisk_getSpec] at found
    split at found
    · cases found
      cases listed
    · cases found
  · refine ⟨onTip_next ready inv.1 fine, ?_⟩
    cases growth_next ready inv.1 fine with
    | same records => exact inv.2.of_records records
    | stored i b child h parent submits target block body hash fresh valid extended children =>
      obtain ⟨m, canonical, -⟩ := inv.1
      exact inv.2.extended canonical fresh valid extended

end Uncles

/-! ## The loop -/

/-- Consecutive blocks of the main list of `m`, the first one a child of `p`. -/
inductive MainPath (d : Disk) (g m : Byte64) : Byte64 → List Byte64 → Prop where
  | nil (p : Byte64) : MainPath d g m p []
  | cons {p c : Byte64} {rest : List Byte64} (edge : parentOf d g c = some p) (main : Anc (parentOf d g) m c)
      (path : MainPath d g m c rest) : MainPath d g m p (c :: rest)

section Loop

variable {d : Disk} {g m p : Byte64}

/-- All blocks of a path are on the main list, strictly below where it starts. -/
theorem MainPath.descends {rank : Byte64 → Nat} (ranked : Ranked (parentOf d g) rank) {hs : List Byte64}
    (path : MainPath d g m p hs) {h : Byte64} (member : h ∈ hs) :
    Anc (parentOf d g) m h ∧ Anc (parentOf d g) h p ∧ h ≠ p := by
  induction path with
  | nil => cases member
  | @cons p c rest edge main path ih =>
    rcases List.mem_cons.mp member with rfl | later
    · refine ⟨main, Anc.single edge, ?_⟩
      rintro rfl
      exact ranked.not_anc_child edge Anc.refl
    · obtain ⟨mainH, up, -⟩ := ih later
      refine ⟨mainH, up.trans (Anc.single edge), ?_⟩
      rintro rfl
      exact ranked.not_anc_child edge up

theorem mapM_getBlock {us : List Byte64} (stored : ∀ u ∈ us, (getSpec d u).isSome) :
    us.mapM (getBlock d) = some (us.filterMap (getBlock d)) ∧ (us.filterMap (getBlock d)).length = us.length := by
  induction us with
  | nil => exact ⟨rfl, rfl⟩
  | cons u us ih =>
    obtain ⟨spec, found⟩ := Option.isSome_iff_exists.mp (stored u (by simp))
    obtain ⟨eq, length⟩ := ih fun u member => stored u (by simp [member])
    have block : getBlock d u = some { spec.toBlock with hash := some u } := by rw [getBlock, found]; rfl
    simp [List.mapM_cons, block, eq, length]

/-- The flagged child of a block of the main list. -/
theorem ChainInv.mainListChild (chain : ChainInv d g m) {n : ChainNode} (stored : getChainNode d p = some n)
    (main : Anc (parentOf d g) m p) :
    (m = p ∧ findMainListChild d n none = none) ∨
      ∃ cn, findMainListChild d n none = some cn ∧ getChainNode d cn.hash = some cn ∧
        Anc (parentOf d g) m cn.hash ∧ parentOf d g cn.hash = some p := by
  have key := chain.tree.keyed stored
  subst key
  refine findMainListChild_eq n none chain.tree rfl stored main (fun h cn _ found mark _ => ?_) fun h up _ => ⟨?_, by simp⟩
  · exact (chain.main.2 h).mp ⟨cn, found, mark⟩
  · exact (chain.main.2 h).mpr up

section Block

variable {n : ChainNode} {spec : BlockSpec} {parent : Byte64} {max fuel count : Nat} {found : List Block}
  (stored : getSpec d n.hash = some spec)

include stored in
/-- The uncles of the block do not fit. -/
theorem descendentsFrom_stop (enough : max ≤ fuel + count) (full : max ≤ count + uncleCount d n.hash) :
    descendentsFrom d parent max fuel (some n) found count = some (found, none) := by
  unfold descendentsFrom
  split
  · rfl
  · cases fuel with
    | zero => omega
    | succ fuel =>
      simp only [uncleCount, stored, Option.map_some, Option.getD_some] at full
      simp [getBlock, stored, BlockSpec.toBlock, full]

include stored in
/-- The block is listed after its uncles, unless it is the one that the list starts from. -/
theorem descendentsFrom_next (uncles : ∀ u ∈ spec.uncles, (getSpec d u).isSome)
    (room : count + uncleCount d n.hash < max) :
    descendentsFrom d parent max (fuel + 1) (some n) found count =
      descendentsFrom d parent max fuel (findMainListChild d n none)
        (found ++ if n.hash = parent then uncleBlocks d n.hash else served d n.hash)
        (count + uncleCount d n.hash + if n.hash = parent then 0 else 1) := by
  obtain ⟨eq, length⟩ := mapM_getBlock uncles
  have block : getBlock d n.hash = some { spec.toBlock with hash := some n.hash } := by rw [getBlock, stored]; rfl
  have count' : uncleCount d n.hash = spec.uncles.length := by simp [uncleCount, stored]
  rw [count'] at room ⊢
  rw [descendentsFrom, if_neg (by omega), block]
  simp only [BlockSpec.toBlock, if_neg (Nat.not_le.mpr room), eq, length, Option.some.injEq]
  by_cases start : n.hash = parent
  · subst start
    simp [uncleBlocks, stored]
  · simp [start, served, uncleBlocks, stored, block, BlockSpec.toBlock]

end Block

/-- What the loop lists below a block of the main list. It lists the child if its uncles fit. -/
theorem descendentsFrom_child (inv : Canonical d g m) (before : UnclesBefore d g) {parent : Byte64} (max fuel : Nat)
    {n : ChainNode} (stored : getChainNode d p = some n) (main : Anc (parentOf d g) m p)
    (up : Anc (parentOf d g) p parent) (found : List Block) (count : Nat) (enough : max ≤ fuel + count) :
    ∃ hs, MainPath d g m p hs ∧
      descendentsFrom d parent max fuel (findMainListChild d n none) found count =
        some (found ++ hs.flatMap (served d), none) ∧
      (hs ≠ [] ↔ ∃ c, Anc (parentOf d g) m c ∧ parentOf d g c = some p ∧ count + uncleCount d c < max) := by
  obtain ⟨rank, ranked, -⟩ := inv.chain.tree.ranked
  induction fuel generalizing p n found count with
  | zero =>
    refine ⟨[], .nil p, ?_, by simp; omega⟩
    cases findMainListChild d n none with
    | none => simp [descendentsFrom]
    | some cn =>
      have full : max ≤ count := by omega
      simp [descendentsFrom, full]
  | succ fuel ih =>
    rcases inv.chain.mainListChild stored main with ⟨rfl, last⟩ | ⟨cn, child, storedC, mainC, edge⟩
    · refine ⟨[], .nil m, by simp [last, descendentsFrom], ?_⟩
      simp only [ne_eq, not_true_eq_false, false_iff, not_exists, not_and]
      exact fun c up edge => absurd up (ranked.not_anc_child edge)
    · have exists' := inv.stored_iff (h := cn.hash)
      rw [storedC, Option.isSome_some] at exists'
      obtain ⟨spec, storedSpec⟩ := Option.isSome_iff_exists.mp exists'.symm
      have only : ∀ {c}, Anc (parentOf d g) m c → parentOf d g c = some p → c = cn.hash :=
        fun mainC' edge' => mainC'.child_unique ranked mainC edge' edge
      rw [child]
      by_cases room : count + uncleCount d cn.hash < max
      · have apart : cn.hash ≠ parent := by
          rintro rfl
          exact ranked.not_anc_child edge up
        obtain ⟨hs, path, eq, -⟩ := ih storedC mainC ((Anc.single edge).trans up) (found ++ served d cn.hash)
          (count + uncleCount d cn.hash + 1) (by omega)
        refine ⟨cn.hash :: hs, .cons edge mainC path, ?_, by simp; exact ⟨cn.hash, mainC, edge, room⟩⟩
        rw [descendentsFrom_next storedSpec (fun u listed => (before storedSpec listed).1) room, if_neg apart,
          if_neg apart, eq]
        simp
      · refine ⟨[], .nil p, ?_, ?_⟩
        · rw [descendentsFrom_stop storedSpec (by omega) (by omega)]
          simp
        · simp only [ne_eq, not_true_eq_false, false_iff, not_exists, not_and]
          intro c mainC' edge'
          rw [only mainC' edge']
          exact room

end Loop

/-! ## A batch -/

section Batch

variable {d : Disk} {g m p : Byte64}

/-- **What `Descendents` returns** for a block of the main list: the uncles of the block and blocks of the main
list below it, each after its uncles. The next block of the main list is there if both blocks' uncles fit. -/
theorem descendents_spec (inv : Canonical d g m) (before : UnclesBefore d g) (main : Flagged d p) (max : Int)
    (positive : 0 ≤ max) :
    ∃ own hs, descendents d p max = some (own ++ hs.flatMap (served d), none) ∧ MainPath d g m p hs ∧
      (own = [] ∨ own = uncleBlocks d p) ∧ (hs ≠ [] → own = uncleBlocks d p) ∧
      (hs ≠ [] ↔ ∃ c, Anc (parentOf d g) m c ∧ parentOf d g c = some p ∧
        uncleCount d p + uncleCount d c < (min max maxBlocks).toNat) := by
  obtain ⟨n, stored, mark⟩ := main
  have up := (inv.chain.main.2 p).mp ⟨n, stored, mark⟩
  have key := inv.chain.tree.keyed stored
  have exists' := inv.stored_iff (h := p)
  rw [stored, Option.isSome_some] at exists'
  obtain ⟨spec, storedSpec⟩ := Option.isSome_iff_exists.mp exists'.symm
  have storedN : getSpec d n.hash = some spec := by rw [key]; exact storedSpec
  have start : descendents d p max = descendentsFrom d p (min max maxBlocks).toNat ((min max maxBlocks).toNat + 1)
      (some n) [] 0 := by
    have capacity : ¬ min max maxBlocks < 0 := by simp [maxBlocks]; omega
    simp [descendents, capacity, stored, mark]
  rw [start]
  generalize (min max maxBlocks).toNat = limit
  by_cases room : uncleCount d p < limit
  · obtain ⟨hs, path, eq, next⟩ := descendentsFrom_child inv before limit limit stored up Anc.refl (uncleBlocks d p)
      (uncleCount d p) (by omega)
    refine ⟨uncleBlocks d p, hs, ?_, path, Or.inr rfl, fun _ => rfl, next⟩
    rw [descendentsFrom_next storedN (fun u listed => (before storedN listed).1) (by rw [key]; omega), key, if_pos rfl,
      if_pos rfl, ← eq]
    simp
  · refine ⟨[], [], ?_, .nil p, Or.inl rfl, by simp, ?_⟩
    · rw [descendentsFrom_stop storedN (by omega) (by rw [key]; omega)]
      rfl
    · simp only [ne_eq, not_true_eq_false, false_iff, not_exists, not_and]
      omega

end Batch

/-! ## A batch that ends in an uncle -/

namespace Worked

attribute [local instance] workedSha512

/-- The rivals of `left` and `right`. -/
def rivals : List BlockSpec :=
  [{ left with miner := [3] }, { left with miner := [4] }, { left with miner := [5] }, { left with miner := [6] }]

/-- The hashes of the blocks beside `left`. -/
def beside : List Byte64 :=
  [rightDigest, thirdDigest, fourthDigest, fifthDigest, sixthDigest].map digest

/-- A child of `left` with the five blocks beside it as uncles. -/
def crowded : BlockSpec := { left with phash := digest leftDigest, depth := 2, wt := 7, uncles := beside }

/-- Its child, with the same uncles. -/
def crowdedChild : BlockSpec := { left with phash := digest crowdedDigest, depth := 3, wt := 13, uncles := beside }

/-- All are accepted. -/
def crowd : List Action := ([left, right] ++ rivals ++ [crowded, crowdedChild]).flatMap deliver

/-- The batch below `crowded` is its five uncles, none of them on the main list. -/
theorem crowd_batch :
    let s := (System.boot 1 1 [7]).run crowd
    Reached RebaseOk (genesisHash 1 1) s ∧ Flagged s.db (digest crowdedDigest) ∧
      s.engine.map (·.tip.hash) = some (some (digest crowdedChildDigest)) ∧
      (descendents s.db (digest crowdedDigest) 10).map (fun r => r.1.map (·.hash)) = some (beside.map some) ∧
      ∀ h ∈ beside, (getChainNode s.db h).map (·.isMainList) = some false := by
  have run : let s := (System.boot 1 1 [7]).run crowd
      System.Along RebaseOk (System.boot 1 1 [7]) crowd ∧
        (getChainNode s.db (digest crowdedDigest)).map (·.isMainList) = some true ∧
        s.engine.map (·.tip.hash) = some (some (digest crowdedChildDigest)) ∧
        (descendents s.db (digest crowdedDigest) 10).map (fun r => r.1.map (·.hash)) = some (beside.map some) ∧
        ∀ h ∈ beside, (getChainNode s.db h).map (·.isMainList) = some false := by decide +kernel
  obtain ⟨fine, mark, rest⟩ := run
  exact ⟨⟨1, 1, [7], crowd, started, rfl, fine, rfl⟩, Option.map_eq_some_iff.mp mark, rest⟩

end Worked

/-! ## Progress -/

/-- The batch ends in a block of the main list that descends from `p`. -/
def Advances (d : Disk) (g p : Byte64) (batch : List Block) : Prop :=
  ∃ last h, batch.getLast? = some last ∧ last.hash = some h ∧ Flagged d h ∧ Anc (parentOf d g) h p ∧ h ≠ p

section Progress

variable {d : Disk} {g m p : Byte64}

theorem getBlock_isSome {h : Byte64} (stored : (getSpec d h).isSome) : ∃ b, getBlock d h = some b ∧ b.hash = some h := by
  obtain ⟨spec, found⟩ := Option.isSome_iff_exists.mp stored
  exact ⟨{ spec.toBlock with hash := some h }, by rw [getBlock, found]; rfl, rfl⟩

/-- Blocks of the main list come last in what is listed for them. -/
theorem advances_of_path (inv : Canonical d g m) {hs : List Byte64} (path : MainPath d g m p hs) (some' : hs ≠ [])
    (own : List Block) : Advances d g p (own ++ hs.flatMap (served d)) := by
  obtain ⟨rank, ranked, -⟩ := inv.chain.tree.ranked
  obtain ⟨main, up, ne⟩ := path.descends ranked (List.getLast_mem some')
  have stored := inv.chain.tree.anc_stored inv.chain.main.1 main
  rw [inv.stored_iff] at stored
  obtain ⟨b, block, hash⟩ := getBlock_isSome stored
  refine ⟨b, hs.getLast some', ?_, hash, (inv.chain.main.2 _).mpr main, up, ne⟩
  conv_lhs => rw [← List.dropLast_append_getLast some']
  simp [served, block]

/-- An uncle of the first block does not descend from it. -/
theorem not_advances_uncles (before : UnclesBefore d g) {own : List Block} (uncles : own = [] ∨ own = uncleBlocks d p) :
    ¬ Advances d g p own := by
  rintro ⟨last, h, ends, hash, -, up, -⟩
  have member := List.mem_of_getLast? ends
  rcases uncles with rfl | rfl
  · cases member
  · unfold uncleBlocks at member
    split at member
    · rename_i spec found
      obtain ⟨u, listed, block⟩ := List.mem_filterMap.mp member
      rw [getBlock_hash block, Option.some.injEq] at hash
      subst hash
      exact (before found listed).2 up
    · cases member

variable [Sha512] {s : System}

/-- **A batch of ten makes progress exactly when the uncles fit**: those of the block that it starts from and
those of the next block of the main list are fewer than ten. -/
theorem descendents_advance_iff (reached : Reached RebaseOk g s) (main : Flagged s.db p) :
    (∃ batch, descendents s.db p 10 = some (batch, none) ∧ Advances s.db g p batch) ↔
      ∃ c, Flagged s.db c ∧ parentOf s.db g c = some p ∧ uncleCount s.db p + uncleCount s.db c < 10 := by
  obtain ⟨m, inv, -⟩ := reached.onTip
  have before := reached.unclesBefore
  obtain ⟨own, hs, eq, path, uncles, -, next⟩ := descendents_spec inv before main 10 (by decide)
  have child : hs ≠ [] ↔
      ∃ c, Flagged s.db c ∧ parentOf s.db g c = some p ∧ uncleCount s.db p + uncleCount s.db c < 10 := by
    rw [next]
    simp only [inv.chain.main.2]
    rfl
  rw [← child]
  constructor
  · rintro ⟨batch, found, advances⟩ rfl
    rw [eq, Option.some.injEq, Prod.mk.injEq] at found
    rw [← found.1, List.flatMap_nil, List.append_nil] at advances
    exact not_advances_uncles before uncles advances
  · exact fun some' => ⟨own ++ hs.flatMap (served s.db), eq, advances_of_path inv path some' own⟩

end Progress

section Worked

attribute [local instance] workedSha512

theorem descendents_advance_once :
    let s := (System.boot 1 1 [7]).run (Worked.deliver Worked.once)
    ∃ batch, descendents s.db (genesisHash 1 1) 10 = some (batch, none) ∧ Advances s.db (genesisHash 1 1) (genesisHash 1 1) batch := by
  intro s
  have run : System.Along RebaseOk (System.boot 1 1 [7]) (Worked.deliver Worked.once) ∧
      (getChainNode s.db (genesisHash 1 1)).map (·.isMainList) = some true ∧
      (getChainNode s.db (digest onceDigest)).map (·.isMainList) = some true ∧
      parentOf s.db (genesisHash 1 1) (digest onceDigest) = some (genesisHash 1 1) ∧
      uncleCount s.db (genesisHash 1 1) + uncleCount s.db (digest onceDigest) < 10 := by decide +kernel
  obtain ⟨fine, mark, markChild, edge, room⟩ := run
  have reached : Reached RebaseOk (genesisHash 1 1) s :=
    ⟨1, 1, [7], Worked.deliver Worked.once, Worked.started, rfl, fine, rfl⟩
  exact (descendents_advance_iff reached (Option.map_eq_some_iff.mp mark)).mpr
    ⟨digest onceDigest, Option.map_eq_some_iff.mp markChild, edge, room⟩

end Worked

end TrustNet
