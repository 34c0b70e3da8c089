import TrustNet.Consensus.UncleMiners
import TrustNet.Consensus.UncleRule
import TrustNet.Network.Plain

/-!
# Validating a block again

`validateBlock` appends the miners of the uncles that it finds valid to the block that it
checks, also when it then fails. A network block starts with an empty list and a candidate
with a full one, and both are validated again when they are submitted. After any
validations the list is what it was, followed by what each of them appended. The reward is
checked against this list.
-/

namespace TrustNet
set_option autoImplicit false

/-- The uncles that `validateBlock` comes to and finds valid: none if the parent is missing or the depth is wrong, and
otherwise those before the first one that is out of reach. -/
def validatedUncles (d : Disk) (b : Block) : List Byte64 :=
  match getBlock d b.phash with
  | none => []
  | some parent =>
    if b.depth ≠ parent.depth + 1 then []
    else b.uncles.takeWhile fun uncle => uncleInReach d b.phash uncle && (getBlock d uncle).isSome

section Validations

variable [Sha512]

/-- Validations of a block, each after other calls of the node: the state and the block after the last one. -/
def System.validations (s : System) (b : Block) : List (List Action) → System × Block
  | [] => (s, b)
  | calls :: rest => System.validations (s.run calls) (validateBlock (s.run calls).db b).1 rest

/-- The miners that these validations append. -/
def System.appendedMiners (s : System) (b : Block) : List (List Action) → List Bytes
  | [] => []
  | calls :: rest =>
    (validatedUncles (s.run calls).db b).map (minerAt (s.run calls).db) ++ System.appendedMiners (s.run calls) b rest

/-- The block has the miners of its uncles after these validations. -/
def System.MinersRight (s : System) (b : Block) (rounds : List (List Action)) : Prop :=
  (s.validations b rounds).2.uncleMiners = (s.validations b rounds).2.uncles.map (minerAt (s.validations b rounds).1.db)

omit [Sha512] in
theorem isUncleValid_eq (d : Disk) (b : Block) (uncle : Byte64) :
    isUncleValid d b uncle =
      if uncleInReach d b.phash uncle && (getBlock d uncle).isSome then
        ({ b with uncleMiners := b.uncleMiners ++ [minerAt d uncle] }, true)
      else (b, false) := by
  unfold isUncleValid
  cases uncleInReach d b.phash uncle with
  | false => rfl
  | true =>
    cases found : getBlock d uncle with
    | none => rfl
    | some block =>
      rw [← minerAt_of_getBlock found]
      rfl

omit [Sha512] in
/-- The loop appends the miners of the uncles before the first that fails. -/
theorem validateUncles_fst (d : Disk) (uncles : List Byte64) (b : Block) (weight : UInt64) :
    (validateUncles d uncles b weight).1 =
      { b with uncleMiners := b.uncleMiners ++
          (uncles.takeWhile fun uncle => uncleInReach d b.phash uncle && (getBlock d uncle).isSome).map (minerAt d) } := by
  induction uncles generalizing b weight with
  | nil => simp [validateUncles]
  | cons uncle uncles ih =>
    rw [validateUncles, isUncleValid_eq, List.takeWhile_cons]
    by_cases valid : (uncleInReach d b.phash uncle && (getBlock d uncle).isSome) = true
    · rw [if_pos valid, if_pos valid]
      simp only [ih, List.map_cons, List.append_assoc, List.singleton_append]
    · rw [if_neg valid, if_neg valid, List.map_nil, List.append_nil]

omit [Sha512] in
/-- One validation, whatever it returns. -/
theorem validateBlock_fst (d : Disk) (b : Block) :
    (validateBlock d b).1 = { b with uncleMiners := b.uncleMiners ++ (validatedUncles d b).map (minerAt d) } := by
  unfold validateBlock validatedUncles
  cases getBlock d b.phash with
  | none => simp
  | some parent =>
    by_cases depth : b.depth ≠ parent.depth + 1
    · simp [depth]
    · have appended := validateUncles_fst d b.uncles b (parent.wt + 1)
      simp only [if_neg depth]
      generalize validateUncles d b.uncles b (parent.wt + 1) = result at appended ⊢
      obtain ⟨b', _ | weight⟩ := result
      · exact appended
      · simp only at appended ⊢
        split
        · exact appended
        · exact appended

/-- What is found valid does not depend on the list. -/
theorem System.appendedMiners_congr (s : System) (b : Block) (miners : List Bytes) (rounds : List (List Action)) :
    s.appendedMiners { b with uncleMiners := miners } rounds = s.appendedMiners b rounds := by
  induction rounds generalizing s with
  | nil => rfl
  | cons calls rounds ih =>
    rw [System.appendedMiners, System.appendedMiners, ih]
    rfl

/-- **The block after any validations.** -/
theorem System.validations_eq (s : System) (b : Block) (rounds : List (List Action)) :
    s.validations b rounds =
      (s.run rounds.flatten, { b with uncleMiners := b.uncleMiners ++ s.appendedMiners b rounds }) := by
  induction rounds generalizing s b with
  | nil => simp [System.validations, System.appendedMiners, System.run, Transition.run]
  | cons calls rounds ih =>
    rw [System.validations, ih, validateBlock_fst, System.appendedMiners_congr, System.appendedMiners,
      List.flatten_cons, System.run, System.run, System.run, Transition.run_append, List.append_assoc]

theorem System.minersRight_iff (s : System) (b : Block) (rounds : List (List Action)) :
    s.MinersRight b rounds ↔
      b.uncleMiners ++ s.appendedMiners b rounds = b.uncles.map (minerAt (s.run rounds.flatten).db) := by
  rw [System.MinersRight, System.validations_eq]

/-- **When validation is repeatable.** After any validations the list of miners is the first one, followed by the miners
that each of them appended. It is right for a network block exactly if these are the miners of the uncles, and for a
candidate exactly if nothing was appended and the stored miners are the same. The reward is verified alike after any
two sequences that leave it right with the same stored miners. -/
theorem validation_repeatable [Outside] (s : System) (rounds : List (List Action)) :
    (∀ b, (s.validations b rounds).2 = { b with uncleMiners := b.uncleMiners ++ s.appendedMiners b rounds }) ∧
      (∀ spec : BlockSpec, s.MinersRight spec.toBlock rounds ↔
        s.appendedMiners spec.toBlock rounds = spec.uncles.map (minerAt (s.run rounds.flatten).db)) ∧
      (∀ c d now b, newCandidateBlock c d now = (s.db, some b) → (s.MinersRight b rounds ↔
        s.appendedMiners b rounds = [] ∧ ∀ u ∈ b.uncles, minerAt (s.run rounds.flatten).db u = minerAt s.db u)) ∧
      ∀ b rounds', s.MinersRight b rounds → s.MinersRight b rounds' →
        (∀ u ∈ b.uncles, minerAt (s.run rounds'.flatten).db u = minerAt (s.run rounds.flatten).db u) →
        ∀ d : Disk, verifyMiningRewardTx d (s.validations b rounds').2 = verifyMiningRewardTx d (s.validations b rounds).2 := by
  refine ⟨fun b => by rw [System.validations_eq], fun spec => ?_, fun c d now b made => ?_,
    fun b rounds' right right' same d => ?_⟩
  · rw [System.minersRight_iff]
    exact Iff.rfl
  · rw [System.minersRight_iff, newCandidateBlock_miners made]
    constructor
    · intro eq
      have length := congrArg List.length eq
      rw [List.length_append, List.length_map, List.length_map] at length
      have none : s.appendedMiners b rounds = [] := List.length_eq_zero_iff.mp (by omega)
      rw [none, List.append_nil] at eq
      exact ⟨none, fun u member => (List.map_inj_left.mp eq u member).symm⟩
    · rintro ⟨none, same⟩
      rw [none, List.append_nil]
      exact (List.map_congr_left same).symm
  · rw [System.minersRight_iff] at right right'
    rw [System.validations_eq, System.validations_eq, right, right', List.map_congr_left same]

end Validations

/-! ## A second validation -/

namespace Worked

/-- The payload of the reward of node 7 with an uncle of node 2. -/
def nephewPayloadDigest : Nat :=
  0x4b3730ec59bd4efd027046b8e984ebc580f4540b6457d5058721df72f834b7824e4f16e5f9ba763b3e0a258cada816f391a6b86dd3c2e2b604da5338d95e0f16

/-- That reward, signed. -/
def nephewRewardDigest : Nat :=
  0x29185a60c486ce8e6ab38cd71d96e42a65d84b074e5276fedd56c68f82cf6d0ccef2dc93f1c3044d944bf861a3541c963bf8987f0f9a7d4f8a7a9947f3db529b

/-- SHA-512 on the inputs of the run. -/
@[reducible] def nephewSha512 : Sha512 :=
  Sha512.ofRows ((1039314729995711662, nephewPayloadDigest) :: (1683025162022508551, nephewRewardDigest) :: digestRows)

end Worked

section Worked

attribute [local instance] workedSha512 Plain.outside

/-- The block comes before its parent and is validated again when the parent and the uncle are stored: its list is right.
After another validation it is not. -/
theorem validation_repeatable_nephew :
    let s := System.boot 1 1 [7]
    s.MinersRight Worked.nephew.toBlock [[], Worked.leftFirst] ∧
      ¬s.MinersRight Worked.nephew.toBlock [[], Worked.leftFirst, []] := by
  intro s
  have run : s.appendedMiners Worked.nephew.toBlock [[], Worked.leftFirst] = [[2]] ∧
      s.appendedMiners Worked.nephew.toBlock [[], Worked.leftFirst, []] = [[2], [2]] ∧
      Worked.nephew.uncles.map (minerAt (s.run Worked.leftFirst).db) = [[2]] := by decide +kernel
  obtain ⟨twice, thrice, miners⟩ := run
  obtain ⟨-, right, -⟩ := validation_repeatable s [[], Worked.leftFirst]
  obtain ⟨-, wrong, -⟩ := validation_repeatable s [[], Worked.leftFirst, []]
  refine ⟨(right Worked.nephew).mpr (twice.trans miners.symm), fun list => ?_⟩
  have eq := (wrong Worked.nephew).mp list
  rw [thrice, show ([[], Worked.leftFirst, []] : List (List Action)).flatten = Worked.leftFirst from rfl, miners] at eq
  cases eq

end Worked

section Worked

attribute [local instance] Worked.nephewSha512 Plain.outside

/-- A candidate with the rival of its parent for its uncle, and with its reward. -/
def Worked.rewardedNephew : List Action :=
  Worked.leftFirst ++ .candidate 0 2 ::
    (((Plain.config 7).trustee.rewardTx 0 0 2 [[2]]).map fun tx => Action.addTransaction 0 tx).toList

/-- The reward of the candidate passes. The candidate passes its first validation, and then has the miner of its uncle
twice, and its reward fails. -/
theorem Worked.second_list_fails :
    let s := (System.boot 1 1 [7]).run Worked.rewardedNephew
    Reached (fun _ _ => True) (genesisHash 1 1) s ∧ ∃ b, s.blocks 0 = some b ∧
      b.uncleMiners = b.uncles.map (minerAt s.db) ∧ (verifyMiningRewardTx s.db b).map Prod.snd = some true ∧
      ((validateBlock s.db b).2.toOption).isSome ∧ (s.validations b [[]]).2.uncleMiners = [[2], [2]] ∧
      b.uncles.map (minerAt s.db) = [[2]] ∧ (verifyMiningRewardTx s.db (s.validations b [[]]).2).map Prod.snd = some false := by
  intro s
  have run : (System.boot 1 1 [7]).engine.isSome = true ∧ ((s.blocks 0).any fun b : Block => decide (
      b.uncleMiners = b.uncles.map (minerAt s.db) ∧ (verifyMiningRewardTx s.db b).map Prod.snd = some true ∧
      ((validateBlock s.db b).2.toOption).isSome ∧ (s.validations b [[]]).2.uncleMiners = [[2], [2]] ∧
      b.uncles.map (minerAt s.db) = [[2]] ∧
      (verifyMiningRewardTx s.db (s.validations b [[]]).2).map Prod.snd = some false)) = true := by decide +kernel
  obtain ⟨started, found⟩ := run
  obtain ⟨b, block, found⟩ := (Option.any_eq_true _ _).mp found
  have reached : Reached (fun _ _ => True) (genesisHash 1 1) s :=
    ⟨1, 1, [7], Worked.rewardedNephew, started, rfl, Transition.along_true _ _, rfl⟩
  exact ⟨reached, b, block, of_decide_eq_true found⟩

end Worked

end TrustNet
