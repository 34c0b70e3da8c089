import Mathlib.Algebra.BigOperators.Finprod
import Mathlib.Data.UInt
import TrustNet.Network.Callback
import TrustNet.Network.Reward

/-!
# The supply of a state

The supply of a world state is the sum of the balances of all accounts, in 64 bits. A
state has finitely many keys, so all but finitely many accounts have the balance zero. A
credit raises the supply by its amount, whoever gets it, so the rewards of a block raise
it by an amount that only depends on the number of its uncles.
-/

namespace TrustNet
set_option autoImplicit false

/-- The keys of accounts. -/
def IsAccount (key : Bytes) : Prop := ∃ address, key = bytesToHexString address

/-- The sum of the balances of all accounts. -/
noncomputable def total (version : Version) : UInt64 := ∑ᶠ address : Bytes, balance version (bytesToHexString address)

/-- The accounts with a balance. -/
def funded (version : Version) : Set Bytes := Function.support fun address => balance version (bytesToHexString address)

/-- What a block with so many uncles adds to the supply. -/
def rewards (uncles : Nat) : UInt64 := 1000000 + 200000 * UInt64.ofNat uncles

section Total

variable {version version' : Version} {vars : Variables}

theorem total_congr (same : ∀ address, balance version (bytesToHexString address) =
    balance version' (bytesToHexString address)) : total version = total version' :=
  finsum_congr same

theorem balance_update (version : Version) (miner address : Bytes) (amount : UInt64) :
    balance (Function.update version (bytesToHexString miner) (some (uint64Bytes amount))) (bytesToHexString address) =
      if address = miner then amount else balance version (bytesToHexString address) := by
  unfold balance
  by_cases own : address = miner
  · rw [if_pos own, own, Function.update_self, Option.getD_some, bytesToUint64_uint64Bytes]
  · rw [if_neg own, Function.update_of_ne fun same => own (bytesToHexString_injective same)]

/-- A credit touches one account. -/
theorem balance_credited (version : Version) (vars : Variables) (miner address : Bytes) (delta : UInt64) :
    balance (effective version (creditVars version vars (bytesToHexString miner) delta)) (bytesToHexString address) =
      balance (effective version vars) (bytesToHexString address) + if address = miner then delta else 0 := by
  rw [effective_creditVars, balance_update]
  by_cases own : address = miner
  · rw [if_pos own, if_pos own, own]
  · rw [if_neg own, if_neg own, add_zero]

theorem funded_credited (finite : (funded (effective version vars)).Finite) (miner : Bytes) (delta : UInt64) :
    (funded (effective version (creditVars version vars (bytesToHexString miner) delta))).Finite := by
  refine (finite.union (Set.finite_singleton miner)).subset fun address has => ?_
  by_cases own : address = miner
  · exact Or.inr own
  · left
    simp only [funded, Function.mem_support, balance_credited, if_neg own, add_zero] at has ⊢
    exact has

/-- **A credit raises the supply by its amount.** -/
theorem total_credited (finite : (funded (effective version vars)).Finite) (miner : Bytes) (delta : UInt64) :
    total (effective version (creditVars version vars (bytesToHexString miner) delta)) =
      total (effective version vars) + delta := by
  have one : (Function.support fun address => if address = miner then delta else 0).Finite := by
    refine (Set.finite_singleton miner).subset fun address has => ?_
    by_contra other
    exact has (if_neg other)
  have split : total (effective version (creditVars version vars (bytesToHexString miner) delta)) =
      ∑ᶠ address, (balance (effective version vars) (bytesToHexString address) + if address = miner then delta else 0) :=
    finsum_congr fun address => balance_credited version vars miner address delta
  rw [split, finsum_add_distrib finite one]
  congr 1
  rw [finsum_eq_single _ miner fun address other => if_neg other, if_pos rfl]

theorem total_uncleVars (finite : (funded (effective version vars)).Finite) (uncles : List Bytes) :
    total (effective version (uncleVars version vars uncles)) =
      total (effective version vars) + 200000 * UInt64.ofNat uncles.length := by
  induction uncles generalizing vars with
  | nil => simp [uncleVars]
  | cons uncle uncles ih =>
    have rest := ih (funded_credited finite uncle 200000)
    rw [total_credited finite] at rest
    rw [uncleVars, List.foldl_cons]
    refine rest.trans ?_
    have one : UInt64.ofNat 1 = 1 := rfl
    rw [List.length_cons, UInt64.ofNat_add, one, mul_add, mul_one, add_assoc, add_comm (200000 * _)]

/-- **The rewards of a block.** -/
theorem total_rewardVars (finite : (funded version).Finite) (miner : Bytes) (uncles : List Bytes) :
    total (effective version (rewardVars version ∅ miner uncles)) = total version + rewards uncles.length := by
  have start : (funded (effective version ∅)).Finite := by
    rw [effective_empty]
    exact finite
  rw [rewardVars, total_uncleVars (funded_credited start miner 1000000) uncles, total_credited start, effective_empty,
    rewards, add_assoc]

end Total

/-! ## Stored states -/

section Stored

variable [Sha512] {known : Node → Prop} {n : Node} {d : Disk} {ws : MptWorldState} {T : Contents}

/-- A trie has finitely many nodes. -/
theorem Rep.finite (rep : Rep known n T) : {path | T path ≠ none}.Finite := by
  induction rep with
  | node n T child value absent present _ ih =>
    have branches : ∀ k, (List.cons k '' {path | T.below k path ≠ none}).Finite := by
      intro k
      by_cases has : T [k] = none
      · have nothing : {path | T.below k path ≠ none} = ∅ := by
          rw [(absent k has).2]
          exact Set.eq_empty_of_forall_notMem fun path hit => hit rfl
        rw [nothing]
        exact Set.finite_empty.image _
      · exact (ih k has).image _
    refine ((Set.finite_singleton []).union (Set.finite_iUnion branches)).subset fun path has => ?_
    cases path with
    | nil => exact Or.inl rfl
    | cons k path => exact Or.inr (Set.mem_iUnion.mpr ⟨k, path, has, rfl⟩)

theorem Holds.funded_finite (holds : Holds d ws T) : (funded (versionOf T)).Finite := by
  have injective : Set.InjOn (fun address => makeHex (bytesToHexString address))
      (Set.preimage (fun address => makeHex (bytesToHexString address)) {path | T path ≠ none}) :=
    fun a _ b _ same => bytesToHexString_injective (makeHex_injective same)
  refine (holds.rep.finite.preimage injective).subset fun address has missing => has ?_
  change balance (versionOf T) (bytesToHexString address) = 0
  have blank : versionOf T (bytesToHexString address) = none := by
    unfold versionOf
    rw [show T (makeHex (bytesToHexString address)) = none from missing]
    rfl
  rw [balance, blank, Option.getD_none, bytesToUint64_nil]

/-- The world state with the root `h`. A root that is not stored is the empty one. -/
def stateAt (d : Disk) (h : Byte64) : MptWorldState := ⟨h, (getState d h).getD emptyNode, emptyNode⟩

/-- The balance that a state has for the key of an account. -/
def balanceAt (d : Disk) (h : Byte64) (account : Bytes) : UInt64 :=
  match (stateAt d h).lookup d account with
  | .ok bytes => bytesToUint64 bytes
  | .error _ => bytesToUint64 []

/-- The sum of the balances of all accounts in the state with the root `h`. -/
noncomputable def supply (d : Disk) (h : Byte64) : UInt64 := ∑ᶠ address : Bytes, balanceAt d h (bytesToHexString address)

/-- The state with the root of a world state has its contents. -/
theorem Holds.stateAt (log : TrieLog d) (sound : HashSound (Known d)) (holds : Holds d ws T) :
    Holds d (TrustNet.stateAt d ws.rootHash) T := by
  unfold TrustNet.stateAt
  rw [holds.hash]
  cases found : getState d ws.rootNode.hash with
  | some m =>
    obtain ⟨hash, stored⟩ := inLog_of_getState log found
    have same := sound.same (Or.inr stored) holds.known hash.symm
    exact ⟨holds.rep.congr same, hash, Or.inr stored⟩
  | none =>
    have empty : ws.rootNode.IsEmpty := by
      by_contra full
      obtain ⟨m, stored, -⟩ := getState_of_inLog log sound (holds.known.resolve_left full) full
      rw [found] at stored
      cases stored
    have same : emptyNode.Same ws.rootNode := by
      obtain ⟨idxs, value⟩ := empty
      exact ⟨idxs.symm, value.symm⟩
    exact ⟨holds.rep.congr same, (Node.hash_congr same.1 same.2).symm, Or.inl emptyNode_isEmpty⟩

theorem Holds.balanceAt (log : TrieLog d) (sound : HashSound (Known d)) (holds : Holds d ws T) (account : Bytes) :
    TrustNet.balanceAt d ws.rootHash account = balance (versionOf T) account := by
  unfold TrustNet.balanceAt balance
  rw [(holds.stateAt log sound).lookup log sound account, Version.answer]
  cases versionOf T account with
  | none => rfl
  | some value => rfl

theorem Holds.supply (log : TrieLog d) (sound : HashSound (Known d)) (holds : Holds d ws T) :
    TrustNet.supply d ws.rootHash = total (versionOf T) :=
  finsum_congr fun address => holds.balanceAt log sound (bytesToHexString address)

end Stored

end TrustNet
