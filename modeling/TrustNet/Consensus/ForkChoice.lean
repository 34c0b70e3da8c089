import TrustNet.Consensus.MainList

/-!
# Agreement on the tip

The engine keeps the first of the best blocks, in the order in which it accepted
them. So two nodes that accepted the same blocks agree if and only if the first
of the best blocks is the same in both orders. `Numeric` is the sum of the bytes
of the hash: it does not tell all blocks apart, and two equally heavy blocks with
the same byte sum leave each node with the one that came first.
-/

namespace TrustNet
set_option autoImplicit false
open ParentTree (Anc)

section Agreement

variable {d d₁ d₂ : Disk} {g m m₁ m₂ : Byte64}

/-- The accepted blocks are the stored ones. -/
theorem Canonical.mem_acceptedBlocks_iff (inv : Canonical d g m) {h : Byte64} {spec : BlockSpec} :
    (h, spec) ∈ acceptedBlocks d ↔ getSpec d h = some spec :=
  ⟨fun member => inv.recorded member, mem_acceptedBlocks⟩

theorem getSpec_eq_of_accepted (first : Canonical d₁ g m₁) (second : Canonical d₂ g m₂)
    (same : ∀ b, b ∈ acceptedBlocks d₁ ↔ b ∈ acceptedBlocks d₂) (h : Byte64) : getSpec d₁ h = getSpec d₂ h := by
  refine Option.ext fun spec => ?_
  rw [← first.mem_acceptedBlocks_iff, same, second.mem_acceptedBlocks_iff]

/-- The tree is a function of the stored blocks. -/
theorem Canonical.parentOf_eq (inv : Canonical d g m) (h : Byte64) :
    parentOf d g h = if h = g then none else (getSpec d h).map (·.phash) := by
  rw [parentOf_eq_header, inv.headers, Option.map_map]
  rfl

theorem parentOf_eq_of_specs (first : Canonical d₁ g m₁) (second : Canonical d₂ g m₂)
    (specs : ∀ h, getSpec d₁ h = getSpec d₂ h) : parentOf d₁ g = parentOf d₂ g := by
  funext h
  rw [first.parentOf_eq, second.parentOf_eq, specs]

theorem Canonical.tip_stored (inv : Canonical d g m) : ∃ tip, getSpec d m = some tip := by
  have stored := inv.chain.main.1
  rw [inv.stored_iff] at stored
  exact Option.isSome_iff_exists.mp stored

/-- The first of the best blocks has the hash of the tip. -/
theorem tips_eq_iff (first : Canonical d₁ g m₁) (second : Canonical d₂ g m₂)
    (specs : ∀ h, getSpec d₁ h = getSpec d₂ h) :
    firstBest (acceptedBlocks d₁) = firstBest (acceptedBlocks d₂) ↔ m₁ = m₂ := by
  obtain ⟨tip₁, found₁⟩ := first.tip_stored
  obtain ⟨tip₂, found₂⟩ := second.tip_stored
  rw [first.first found₁, second.first found₂, Option.some.injEq, Prod.mk.injEq]
  refine ⟨And.left, ?_⟩
  rintro rfl
  rw [specs, found₂] at found₁
  exact ⟨rfl, (Option.some.inj found₁).symm⟩

end Agreement

/-! ## Rivals with the same byte sum -/

namespace Worked

attribute [local instance] workedSha512

/-- `left` before `right`. -/
def leftFirst : List Action := [.decode 0 left, .accept 0 [] 1, .decode 0 right, .accept 0 [] 1]

/-- A child of `left` with the rival of `left` for its uncle. -/
def nephew : BlockSpec := { left with phash := digest leftDigest, depth := 2, wt := 3, uncles := [digest rightDigest] }

/-- The child after both. -/
def joined : List Action := leftFirst ++ [.decode 0 nephew, .accept 0 [] 1]

/-- `right` before `left`. -/
def rightFirst : List Action := [.decode 0 right, .accept 0 [] 1, .decode 0 left, .accept 0 [] 1]

theorem rivals_run :
    let s₁ := (System.boot 1 1 [7]).run leftFirst
    let s₂ := (System.boot 1 1 [7]).run rightFirst
    System.Along RebaseOk (System.boot 1 1 [7]) leftFirst ∧ System.Along RebaseOk (System.boot 1 1 [7]) rightFirst ∧
      (acceptedBlocks s₁.db).Perm (acceptedBlocks s₂.db) ∧
      s₁.engine.map (·.tip.hash) = some (some (digest leftDigest)) ∧
      s₂.engine.map (·.tip.hash) = some (some (digest rightDigest)) := by decide +kernel

theorem rivals_reached :
    let s₁ := (System.boot 1 1 [7]).run leftFirst
    let s₂ := (System.boot 1 1 [7]).run rightFirst
    Reached RebaseOk (genesisHash 1 1) s₁ ∧ Reached RebaseOk (genesisHash 1 1) s₂ ∧
      ∀ b, b ∈ acceptedBlocks s₁.db ↔ b ∈ acceptedBlocks s₂.db := by
  obtain ⟨fine₁, fine₂, accepted, -⟩ := rivals_run
  exact ⟨⟨1, 1, [7], leftFirst, started, rfl, fine₁, rfl⟩, ⟨1, 1, [7], rightFirst, started, rfl, fine₂, rfl⟩,
    fun b => accepted.mem_iff⟩

/-- The two nodes accepted the same blocks and have different tips. -/
theorem rivals_disagree :
    let s₁ := (System.boot 1 1 [7]).run leftFirst
    let s₂ := (System.boot 1 1 [7]).run rightFirst
    Reached RebaseOk (genesisHash 1 1) s₁ ∧ Reached RebaseOk (genesisHash 1 1) s₂ ∧
      (∀ b, b ∈ acceptedBlocks s₁.db ↔ b ∈ acceptedBlocks s₂.db) ∧
      ∃ c₁ c₂, s₁.engine = some c₁ ∧ s₂.engine = some c₂ ∧ c₁.tip.hash ≠ c₂.tip.hash := by
  obtain ⟨reached₁, reached₂, same⟩ := rivals_reached
  obtain ⟨-, -, -, tip₁, tip₂⟩ := rivals_run
  obtain ⟨c₁, engine₁, hash₁⟩ := Option.map_eq_some_iff.mp tip₁
  obtain ⟨c₂, engine₂, hash₂⟩ := Option.map_eq_some_iff.mp tip₂
  refine ⟨reached₁, reached₂, same, c₁, c₂, engine₁, engine₂, ?_⟩
  rw [hash₁, hash₂]
  decide

end Worked

/-! ## Two nodes -/

section Nodes

variable [Sha512] {g : Byte64} {s₁ s₂ : System} {c₁ c₂ : BlockChainConsensus}

/-- **Agreement on the tip.** Two nodes that accepted the same blocks have the same tip, weight and main
list if and only if the first of the best blocks is the same in both orders of acceptance. -/
theorem agreement_iff_firstBest (reached₁ : Reached RebaseOk g s₁) (reached₂ : Reached RebaseOk g s₂)
    (engine₁ : s₁.engine = some c₁) (engine₂ : s₂.engine = some c₂)
    (same : ∀ b, b ∈ acceptedBlocks s₁.db ↔ b ∈ acceptedBlocks s₂.db) :
    (c₁.tip.hash = c₂.tip.hash ∧ c₁.weight = c₂.weight ∧ ∀ h, Flagged s₁.db h ↔ Flagged s₂.db h) ↔
      firstBest (acceptedBlocks s₁.db) = firstBest (acceptedBlocks s₂.db) := by
  obtain ⟨m₁, canonical₁, synced₁⟩ := reached₁.onTip
  obtain ⟨m₂, canonical₂, synced₂⟩ := reached₂.onTip
  obtain ⟨hash₁, spec₁, weight₁, -⟩ := synced₁ c₁ engine₁
  obtain ⟨hash₂, spec₂, weight₂, -⟩ := synced₂ c₂ engine₂
  have specs := getSpec_eq_of_accepted canonical₁ canonical₂ same
  rw [tips_eq_iff canonical₁ canonical₂ specs, hash₁, hash₂, Option.some.injEq]
  refine ⟨And.left, ?_⟩
  rintro rfl
  rw [specs, spec₂] at spec₁
  refine ⟨rfl, ?_, fun h => ?_⟩
  · rw [weight₁, weight₂]
    exact (congrArg BlockSpec.wt (Option.some.inj spec₁)).symm
  · rw [canonical₁.chain.main.2, canonical₂.chain.main.2, parentOf_eq_of_specs canonical₁ canonical₂ specs]

end Nodes

section Worked

attribute [local instance] workedSha512

theorem agreement_iff_firstBest_rivals :
    let s₁ := (System.boot 1 1 [7]).run Worked.leftFirst
    let s₂ := (System.boot 1 1 [7]).run Worked.rightFirst
    ∃ c₁ c₂, s₁.engine = some c₁ ∧ s₂.engine = some c₂ ∧
      ((c₁.tip.hash = c₂.tip.hash ∧ c₁.weight = c₂.weight ∧ ∀ h, Flagged s₁.db h ↔ Flagged s₂.db h) ↔
        firstBest (acceptedBlocks s₁.db) = firstBest (acceptedBlocks s₂.db)) := by
  obtain ⟨reached₁, reached₂, same⟩ := Worked.rivals_reached
  obtain ⟨-, -, -, tip₁, tip₂⟩ := Worked.rivals_run
  obtain ⟨c₁, engine₁, -⟩ := Option.map_eq_some_iff.mp tip₁
  obtain ⟨c₂, engine₂, -⟩ := Option.map_eq_some_iff.mp tip₂
  exact ⟨c₁, c₂, engine₁, engine₂, agreement_iff_firstBest reached₁ reached₂ engine₁ engine₂ same⟩

end Worked

end TrustNet
