import TrustNet.Consensus.ForkChoice

/-!
# Validity is decided by the ancestors

`isUncleValid` climbs from the parent and from the uncle to their meeting point.
What it reads of a chain node is its hash, its parent and its depth, and it stops
at genesis at the latest. So two nodes of the network that store the parent and the
uncles of a block come to the same decision, whatever else they store.
-/

namespace TrustNet
set_option autoImplicit false
open ParentTree (Ranked)

/-- What the climbs read of a chain node. -/
def SameView (n n' : ChainNode) : Prop := n.hash = n'.hash ∧ n.parent = n'.parent ∧ n.depth = n'.depth

/-- A set of hashes, closed under parents, on which two databases agree; the ranks bound the climbs. -/
structure Shared (d d' : Disk) (S : Byte64 → Prop) (rank rank' : Byte64 → Nat) : Prop where
  views : ∀ {x}, S x → (getChainNode d x = none ∧ getChainNode d' x = none) ∨
    ∃ n n', getChainNode d x = some n ∧ getChainNode d' x = some n' ∧ SameView n n' ∧ S n.parent
  falls : ∀ {x n}, S x → getChainNode d x = some n → (getChainNode d n.parent).isSome → rank n.parent < rank x
  falls' : ∀ {x n}, S x → getChainNode d' x = some n → (getChainNode d' n.parent).isSome → rank' n.parent < rank' x
  bound : ∀ {x}, (getChainNode d x).isSome → rank x < d.log.length
  bound' : ∀ {x}, (getChainNode d' x).isSome → rank' x < d'.log.length

/-- The two climbs are at the same place. -/
inductive Twin (d d' : Disk) (S : Byte64 → Prop) : Option ChainNode → Option ChainNode → Prop where
  | none : Twin d d' S none none
  | some (x : Byte64) (n n' : ChainNode) (shared : S x) (found : getChainNode d x = some n)
      (found' : getChainNode d' x = some n') (view : SameView n n') : Twin d d' S (some n) (some n')

section Climbs

variable {d d' : Disk} {S : Byte64 → Prop} {rank rank' : Byte64 → Nat} (shared : Shared d d' S rank rank')
include shared

theorem Shared.twin {x : Byte64} (member : S x) : Twin d d' S (getChainNode d x) (getChainNode d' x) := by
  rcases shared.views member with ⟨eq, eq'⟩ | ⟨n, n', found, found', view, -⟩
  · rw [eq, eq']
    exact .none
  · have twin : Twin d d' S (some n) (some n') := .some x n n' member found found' view
    rw [← found, ← found'] at twin
    exact twin

/-- One round of a climb. -/
theorem Shared.parent {x : Byte64} {n n' : ChainNode} (member : S x) (found : getChainNode d x = some n)
    (found' : getChainNode d' x = some n') :
    S n.parent ∧ n'.parent = n.parent ∧ ((getChainNode d n.parent).isSome → rank n.parent < rank x) ∧
      ((getChainNode d' n.parent).isSome → rank' n.parent < rank' x) := by
  rcases shared.views member with ⟨eq, -⟩ | ⟨m, m', foundM, foundM', view, closed⟩
  · rw [eq] at found
    cases found
  · rw [found] at foundM
    rw [found'] at foundM'
    cases foundM
    cases foundM'
    refine ⟨closed, view.2.1.symm, shared.falls member found, fun stored => ?_⟩
    rw [view.2.1] at stored ⊢
    exact shared.falls' member found' stored

theorem Shared.climbParent (depth : UInt64) (fuel fuel' : Nat) {x : Byte64} {n n' : ChainNode} (member : S x)
    (found : getChainNode d x = some n) (found' : getChainNode d' x = some n') (view : SameView n n')
    (enough : rank x < fuel) (enough' : rank' x < fuel') (distance : UInt64) :
    ∃ o o' distance', TrustNet.climbParent d depth fuel (some n) distance = (o, distance') ∧
      TrustNet.climbParent d' depth fuel' (some n') distance = (o', distance') ∧ Twin d d' S o o' := by
  induction fuel generalizing fuel' x n n' distance with
  | zero => omega
  | succ fuel ih =>
    obtain ⟨fuel', rfl⟩ : ∃ k, fuel' = k + 1 := ⟨fuel' - 1, by omega⟩
    simp only [TrustNet.climbParent, ← view.2.2]
    split
    · obtain ⟨closed, sameParent, falls, falls'⟩ := shared.parent member found found'
      rw [sameParent]
      rcases shared.views closed with ⟨eq, eq'⟩ | ⟨p, p', foundP, foundP', viewP, -⟩
      · rw [eq, eq']
        exact ⟨none, none, distance + 1, by cases fuel <;> rfl, by cases fuel' <;> rfl, .none⟩
      · have lower := falls (by rw [foundP]; rfl)
        have lower' := falls' (by rw [foundP']; rfl)
        rw [foundP, foundP']
        exact ih fuel' closed foundP foundP' viewP (by omega) (by omega) (distance + 1)
    · exact ⟨some n, some n', distance, rfl, rfl, .some x n n' member found found' view⟩

theorem Shared.climbUncle {p p' : ChainNode} (viewP : SameView p p') (fuel fuel' : Nat) {x : Byte64} {n n' : ChainNode}
    (member : S x) (found : getChainNode d x = some n) (found' : getChainNode d' x = some n') (view : SameView n n')
    (enough : rank x < fuel) (enough' : rank' x < fuel') (distance : UInt64) :
    ∃ o o' distance', TrustNet.climbUncle d (some p) fuel (some n) distance = (o, distance') ∧
      TrustNet.climbUncle d' (some p') fuel' (some n') distance = (o', distance') ∧ Twin d d' S o o' := by
  induction fuel generalizing fuel' x n n' distance with
  | zero => omega
  | succ fuel ih =>
    obtain ⟨fuel', rfl⟩ : ∃ k, fuel' = k + 1 := ⟨fuel' - 1, by omega⟩
    simp only [TrustNet.climbUncle, ← view.2.2, ← viewP.2.2]
    split
    · obtain ⟨closed, sameParent, falls, falls'⟩ := shared.parent member found found'
      rw [sameParent]
      rcases shared.views closed with ⟨eq, eq'⟩ | ⟨q, q', foundQ, foundQ', viewQ, -⟩
      · rw [eq, eq']
        exact ⟨none, none, distance + 1, by cases fuel <;> rfl, by cases fuel' <;> rfl, .none⟩
      · have lower := falls (by rw [foundQ]; rfl)
        have lower' := falls' (by rw [foundQ']; rfl)
        rw [foundQ, foundQ']
        exact ih fuel' closed foundQ foundQ' viewQ (by omega) (by omega) (distance + 1)
    · exact ⟨some n, some n', distance, rfl, rfl, .some x n n' member found found' view⟩

theorem Shared.climbBoth (fuel fuel' : Nat) {x y : Byte64} {n n' k k' : ChainNode} (member : S x)
    (found : getChainNode d x = some n) (found' : getChainNode d' x = some n') (view : SameView n n') (memberY : S y)
    (foundY : getChainNode d y = some k) (foundY' : getChainNode d' y = some k') (viewY : SameView k k')
    (enough : rank x < fuel) (enough' : rank' x < fuel') (distance : UInt64) :
    ∃ o o' u u' distance', TrustNet.climbBoth d fuel (some n) (some k) distance = (o, u, distance') ∧
      TrustNet.climbBoth d' fuel' (some n') (some k') distance = (o', u', distance') ∧ Twin d d' S o o' ∧
      Twin d d' S u u' := by
  induction fuel generalizing fuel' x y n n' k k' distance with
  | zero => omega
  | succ fuel ih =>
    obtain ⟨fuel', rfl⟩ : ∃ k, fuel' = k + 1 := ⟨fuel' - 1, by omega⟩
    simp only [TrustNet.climbBoth, ← view.1, ← viewY.1]
    split
    · obtain ⟨closed, sameParent, falls, falls'⟩ := shared.parent member found found'
      obtain ⟨closedY, sameParentY, -, -⟩ := shared.parent memberY foundY foundY'
      rw [sameParent, sameParentY]
      have twinY := shared.twin closedY
      rcases shared.views closed with ⟨eq, eq'⟩ | ⟨q, q', foundQ, foundQ', viewQ, -⟩
      · rw [eq, eq']
        exact ⟨none, none, _, _, distance + 1, by cases fuel <;> rfl, by cases fuel' <;> rfl, .none, twinY⟩
      · have lower := falls (by rw [foundQ]; rfl)
        have lower' := falls' (by rw [foundQ']; rfl)
        have twinQ : Twin d d' S (some q) (some q') := .some _ q q' closed foundQ foundQ' viewQ
        rw [foundQ, foundQ']
        rcases shared.views closedY with ⟨eq, eq'⟩ | ⟨r, r', foundR, foundR', viewR, -⟩
        · rw [eq, eq']
          exact ⟨_, _, none, none, distance + 1, by cases fuel <;> rfl, by cases fuel' <;> rfl, twinQ, .none⟩
        · rw [foundR, foundR']
          exact ih fuel' closed foundQ foundQ' viewQ closedY foundR foundR' viewR (by omega) (by omega) (distance + 1)
    · exact ⟨_, _, _, _, distance, rfl, rfl, .some x n n' member found found' view,
        .some y k k' memberY foundY foundY' viewY⟩

/-- **The decision on an uncle** is the same for both. -/
theorem Shared.uncleInReach {phash uHash : Byte64} (parent : S phash) (uncle : S uHash) :
    TrustNet.uncleInReach d phash uHash = TrustNet.uncleInReach d' phash uHash := by
  unfold TrustNet.uncleInReach
  rcases shared.views uncle with ⟨eq, eq'⟩ | ⟨u, u', foundU, foundU', viewU, -⟩
  · rw [eq, eq']
  · rw [foundU, foundU']
    simp only
    rcases shared.views parent with ⟨eq, eq'⟩ | ⟨p, p', foundP, foundP', viewP, -⟩
    · rw [eq, eq']
      rfl
    · have fuel : ∀ {x}, (getChainNode d x).isSome → rank x < Database.calls d + 1 :=
        fun stored => Nat.lt_succ_of_lt (shared.bound stored)
      have fuel' : ∀ {x}, (getChainNode d' x).isSome → rank' x < Database.calls d' + 1 :=
        fun stored => Nat.lt_succ_of_lt (shared.bound' stored)
      rw [foundP, foundP', ← viewU.2.2]
      obtain ⟨o, o', distance, run, run', twin⟩ := shared.climbParent u.depth _ _ parent foundP foundP' viewP
        (fuel (by rw [foundP]; rfl)) (fuel' (by rw [foundP']; rfl)) 0
      rw [run, run']
      cases twin with
      | none => rfl
      | some x n n' member found found' view =>
        obtain ⟨w, w', distance₁, run₁, run₁', twin₁⟩ := shared.climbUncle view _ _ uncle foundU foundU' viewU
          (fuel (by rw [foundU]; rfl)) (fuel' (by rw [foundU']; rfl)) distance
        simp only [run₁, run₁']
        cases twin₁ with
        | none => rfl
        | some y k k' memberY foundY foundY' viewY =>
          simp only [← view.1, ← viewY.1]
          split
          · rfl
          · obtain ⟨a, a', b, b', distance₂, run₂, run₂', twinA, twinB⟩ := shared.climbBoth _ _ member found found' view
              memberY foundY foundY' viewY (fuel (by rw [found]; rfl)) (fuel' (by rw [found']; rfl)) distance₁
            rw [run₂, run₂']
            cases twinA with
            | none => rfl
            | some _ _ _ _ _ _ _ => cases twinB with
              | none => rfl
              | some _ _ _ _ _ _ _ => rfl

/-- A block that is valid for one is valid for the other, if it has the same parent and all uncles. -/
theorem Shared.valid {spec parent : BlockSpec} (valid : Valid d spec parent) (member : S spec.phash)
    (stored : getSpec d' spec.phash = some parent) (uncles : ∀ u ∈ spec.uncles, S u ∧ (getSpec d' u).isSome) :
    Valid d' spec parent := by
  refine ⟨stored, valid.depth, fun u listed => ⟨?_, (uncles u listed).2⟩, valid.weight⟩
  rw [← shared.uncleInReach member (uncles u listed).1]
  exact (valid.uncles u listed).1

end Climbs

end TrustNet
