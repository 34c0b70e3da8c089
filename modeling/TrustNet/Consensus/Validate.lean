import TrustNet.Consensus.Records

/-!
# Valid blocks

`Valid` says what `validateBlock` checks, without the uncle miners that it
collects on the way.
-/

namespace TrustNet
set_option autoImplicit false

/-- The uncle is stored and close enough to the parent's branch. -/
def UncleOk (d : Disk) (phash uncle : Byte64) : Prop := uncleInReach d phash uncle = true ∧ (getSpec d uncle).isSome

/-- The parent is stored, and depth, uncles and weight are in order. -/
structure Valid (d : Disk) (spec parent : BlockSpec) : Prop where
  stored : getSpec d spec.phash = some parent
  depth : spec.depth = parent.depth + 1
  uncles : ∀ u ∈ spec.uncles, UncleOk d spec.phash u
  weight : spec.wt = parent.wt + 1 + UInt64.ofNat spec.uncles.length

theorem getBlock_eq (d : Disk) (h : Byte64) :
    getBlock d h = (getSpec d h).map fun spec => { spec.toBlock with hash := some h } := rfl

theorem isUncleValid_true {d : Disk} {child child' : Block} {u : Byte64}
    (valid : isUncleValid d child u = (child', true)) :
    UncleOk d child.phash u ∧ ∃ miners, child' = { child with uncleMiners := miners } := by
  unfold isUncleValid at valid
  split at valid
  · rename_i reach
    split at valid
    · cases valid
    · rename_i block found
      cases valid
      rw [getBlock_eq] at found
      obtain ⟨spec, stored, -⟩ := Option.map_eq_some_iff.mp found
      exact ⟨⟨reach, by rw [stored]; rfl⟩, _, rfl⟩
  · cases valid

theorem isUncleValid_of_ok {d : Disk} {child : Block} {u : Byte64} (ok : UncleOk d child.phash u) :
    ∃ miners, isUncleValid d child u = ({ child with uncleMiners := miners }, true) := by
  obtain ⟨reach, stored⟩ := ok
  obtain ⟨spec, found⟩ := Option.isSome_iff_exists.mp stored
  refine ⟨child.uncleMiners ++ [spec.miner], ?_⟩
  simp [isUncleValid, reach, getBlock_eq, found, BlockSpec.toBlock]

theorem validateUncles_some {d : Disk} {uncles : List Byte64} {b b' : Block} {weight weight' : UInt64}
    (valid : validateUncles d uncles b weight = (b', some weight')) :
    (∀ u ∈ uncles, UncleOk d b.phash u) ∧ weight' = weight + UInt64.ofNat uncles.length ∧
      ∃ miners, b' = { b with uncleMiners := miners } := by
  induction uncles generalizing b weight with
  | nil =>
    simp only [validateUncles, Prod.mk.injEq, Option.some.injEq] at valid
    exact ⟨by simp, by simp [valid.2], b.uncleMiners, valid.1.symm⟩
  | cons u uncles ih =>
    rw [validateUncles] at valid
    split at valid
    · simp at valid
    · rename_i b₁ first
      obtain ⟨ok, miners, eq⟩ := isUncleValid_true first
      obtain ⟨rest, total, miners', eq'⟩ := ih valid
      subst eq
      refine ⟨?_, ?_, miners', by rw [eq']⟩
      · intro v member
        rcases List.mem_cons.mp member with rfl | member
        · exact ok
        · exact rest v member
      · rw [total, List.length_cons, UInt64.ofNat_add, UInt64.add_assoc, UInt64.add_comm (UInt64.ofNat uncles.length)]
        rfl

theorem validateUncles_of_ok {d : Disk} {uncles : List Byte64} {b : Block} (weight : UInt64)
    (ok : ∀ u ∈ uncles, UncleOk d b.phash u) :
    ∃ miners, validateUncles d uncles b weight =
      ({ b with uncleMiners := miners }, some (weight + UInt64.ofNat uncles.length)) := by
  induction uncles generalizing b weight with
  | nil => exact ⟨b.uncleMiners, by simp [validateUncles]⟩
  | cons u uncles ih =>
    obtain ⟨miners, first⟩ := isUncleValid_of_ok (ok u List.mem_cons_self)
    obtain ⟨miners', rest⟩ := ih (b := { b with uncleMiners := miners }) (weight + 1)
      fun v member => ok v (List.mem_cons_of_mem _ member)
    refine ⟨miners', ?_⟩
    rw [validateUncles, first]
    simp only
    rw [rest, List.length_cons, UInt64.ofNat_add, UInt64.add_assoc, UInt64.add_comm (UInt64.ofNat uncles.length)]
    rfl

/-- What `validateBlock` has checked when it succeeds. -/
theorem validateBlock_ok {d : Disk} {b b' parent : Block} (valid : validateBlock d b = (b', .ok parent)) :
    ∃ spec miners, Valid d b.toBlockSpec spec ∧ parent = { spec.toBlock with hash := some b.phash } ∧
      b' = { b with uncleMiners := miners } := by
  unfold validateBlock at valid
  rw [getBlock_eq] at valid
  cases found : getSpec d b.phash with
  | none => simp [found] at valid
  | some spec =>
    rw [found] at valid
    simp only [Option.map_some] at valid
    split at valid
    · simp at valid
    · rename_i depth
      split at valid
      · simp at valid
      · rename_i b₁ weight uncles
        obtain ⟨ok, total, miners, eq⟩ := validateUncles_some uncles
        split at valid
        · simp at valid
        · rename_i sum
          simp only [Prod.mk.injEq, Except.ok.injEq] at valid
          obtain ⟨rfl, rfl⟩ := valid
          rw [not_not] at depth sum
          refine ⟨spec, miners, ⟨found, depth, ok, ?_⟩, rfl, eq⟩
          rw [eq] at sum
          exact sum.trans total

theorem validateBlock_of_valid {d : Disk} {b : Block} {spec : BlockSpec} (valid : Valid d b.toBlockSpec spec) :
    ∃ miners, validateBlock d b =
      ({ b with uncleMiners := miners }, .ok { spec.toBlock with hash := some b.phash }) := by
  obtain ⟨miners, uncles⟩ := validateUncles_of_ok (b := b) (spec.wt + 1) valid.uncles
  refine ⟨miners, ?_⟩
  have depth : b.depth = spec.depth + 1 := valid.depth
  have weight : b.wt = spec.wt + 1 + UInt64.ofNat b.uncles.length := valid.weight
  unfold validateBlock
  rw [getBlock_eq, valid.stored]
  simp only [Option.map_some, BlockSpec.toBlock, depth, ne_eq, not_true, if_false]
  rw [uncles]
  simp [weight]

/-- An invalid block is an orphan, or fails one of the checks. -/
theorem validateBlock_error {d : Disk} {b b' : Block} {e : Err} (failed : validateBlock d b = (b', .error e)) :
    (∃ msg, e = .core .blockOrphan msg) ∨ ∃ msg, e = .core .blockValidation msg := by
  unfold validateBlock at failed
  split at failed
  · cases failed
    exact Or.inl ⟨_, rfl⟩
  · right
    split at failed
    · cases failed
      exact ⟨_, rfl⟩
    · split at failed
      · cases failed
        exact ⟨_, rfl⟩
      · split at failed
        · cases failed
          exact ⟨_, rfl⟩
        · cases failed

/-- The error of a check, not that of a `Rebase` that finds no root. -/
def Err.Refusal (e : Err) : Prop := ∀ msg, e ≠ .core .notFound msg

theorem validateBlock_refusal {d : Disk} {b b' : Block} {e : Err} (failed : validateBlock d b = (b', .error e)) :
    e.Refusal := by
  intro msg
  rcases validateBlock_error failed with ⟨_, rfl⟩ | ⟨_, rfl⟩
  · simp
  · simp

theorem isUncleValid_block (d : Disk) (child : Block) (u : Byte64) :
    ∃ miners, (isUncleValid d child u).1 = { child with uncleMiners := miners } := by
  unfold isUncleValid
  split
  · split
    · exact ⟨child.uncleMiners, rfl⟩
    · exact ⟨_, rfl⟩
  · exact ⟨child.uncleMiners, rfl⟩

theorem validateUncles_block (d : Disk) (uncles : List Byte64) (b : Block) (weight : UInt64) :
    ∃ miners, (validateUncles d uncles b weight).1 = { b with uncleMiners := miners } := by
  induction uncles generalizing b weight with
  | nil => exact ⟨b.uncleMiners, rfl⟩
  | cons u uncles ih =>
    obtain ⟨miners, first⟩ := isUncleValid_block d b u
    rw [validateUncles]
    generalize isUncleValid d b u = result at first ⊢
    obtain ⟨b₁, ok⟩ := result
    subst first
    cases ok with
    | false => exact ⟨miners, rfl⟩
    | true =>
      obtain ⟨miners', rest⟩ := ih { b with uncleMiners := miners } (weight + 1)
      exact ⟨miners', rest⟩

/-- Validation changes nothing but the uncle miners. -/
theorem validateBlock_block (d : Disk) (b : Block) :
    ∃ miners, (validateBlock d b).1 = { b with uncleMiners := miners } := by
  unfold validateBlock
  split
  · exact ⟨b.uncleMiners, rfl⟩
  · rename_i parent _
    split
    · exact ⟨b.uncleMiners, rfl⟩
    · obtain ⟨miners, eq⟩ := validateUncles_block d b.uncles b (parent.wt + 1)
      generalize validateUncles d b.uncles b (parent.wt + 1) = result at eq ⊢
      obtain ⟨b₁, weight⟩ := result
      subst eq
      cases weight with
      | none => exact ⟨miners, rfl⟩
      | some weight =>
        simp only
        split
        · exact ⟨miners, rfl⟩
        · exact ⟨miners, rfl⟩

end TrustNet
