import Mathlib.Data.UInt
import TrustNet.Consensus.Committed
import TrustNet.Network.Plain
import TrustNet.Network.Reward

/-!
# What `VerifyMiningRewardTx` accepts

The parameters of an operation are a Go map, which `process` visits in any order with a
flag and two accumulators. The flag goes down at the first parameter that does not
belong, and the accumulators tell that both parameters were there, so an operation is
paid exactly if its map is the one that the miner builds. The verdict of the whole is
exact for the same reason, and the credits that were made on the way add up by account.
-/

namespace TrustNet
set_option autoImplicit false

/-- The parameters of the operation are the award and the account that it goes to. -/
def Op.Rewards (op : Op) (key owner award : Bytes) : Prop := op.params.entries.Perm [⟨paramAward, award⟩, ⟨key, owner⟩]

/-- The operations of a reward: one for the miner, and one for each uncle, in order. -/
def RewardOps (miner : Bytes) (uncles : List Bytes) (ops : List Op) : Prop :=
  ∃ op rest, ops = op :: rest ∧ op.Rewards paramMiner (bytesToHexString miner) minerAward ∧
    List.Forall₂ (fun op uncle => uncle ≠ [] ∧ op.Rewards paramUncle (bytesToHexString uncle) uncleAward) rest uncles

/-- The credits of a reward, by account. -/
def rewardCredits (miner : Bytes) (uncles : List Bytes) : List (Bytes × UInt64) :=
  (bytesToHexString miner, 1000000) :: uncles.map fun uncle => (bytesToHexString uncle, 200000)

/-- What an account gets of the credits. -/
def creditTotal (credits : List (Bytes × UInt64)) (account : Bytes) : UInt64 :=
  ((credits.filter fun credit => credit.1 = account).map Prod.snd).sum

/-! ## The parameters -/

section Award

variable {key owner award : Bytes}

/-- The parameter is one of the two. -/
def Fits (key owner award : Bytes) (param : Sigma fun _ : Bytes => Bytes) : Prop :=
  param = ⟨key, owner⟩ ∨ param = ⟨paramAward, award⟩

/-- One parameter: it lowers the flag unless it is one of the two, and leaves its mark. -/
theorem visit_cases {amount : UInt64} (parsed : parseUint award = some amount) (ne : paramAward ≠ key) (found : Award)
    (param : Sigma fun _ : Bytes => Bytes) :
    (¬ Fits key owner award param ∧ found.visit key owner award param = { found with validOp := false }) ∨
      (param = ⟨key, owner⟩ ∧ found.visit key owner award param = { found with account := owner }) ∨
      (param = ⟨paramAward, award⟩ ∧ found.visit key owner award param = { found with amount }) := by
  obtain ⟨name, value⟩ := param
  unfold Award.visit
  by_cases account : name = key
  · subst account
    by_cases owned : value = owner
    · subst owned
      exact Or.inr (Or.inl ⟨rfl, by simp⟩)
    · refine Or.inl ⟨?_, by simp [owned]⟩
      rintro (eq | eq)
      · cases eq
        exact owned rfl
      · cases eq
        exact ne rfl
  · by_cases named : name = paramAward
    · subst named
      by_cases awarded : value = award
      · subst awarded
        exact Or.inr (Or.inr ⟨rfl, by simp [account, parsed]⟩)
      · refine Or.inl ⟨?_, by simp [account, awarded]⟩
        rintro (eq | eq)
        · cases eq
          exact account rfl
        · cases eq
          exact awarded rfl
    · refine Or.inl ⟨?_, by simp [account, named]⟩
      rintro (eq | eq)
      · cases eq
        exact account rfl
      · cases eq
        exact named rfl

/-- What the loop has seen when the flag is still up. -/
theorem award_seen {amount : UInt64} (parsed : parseUint award = some amount) (ne : paramAward ≠ key)
    (params : List (Sigma fun _ : Bytes => Bytes)) (found : Award)
    (valid : (params.foldl (Award.visit key owner award) found).validOp = true) :
    found.validOp = true ∧ (∀ param ∈ params, Fits key owner award param) ∧
      ((params.foldl (Award.visit key owner award) found).account ≠ found.account → ⟨key, owner⟩ ∈ params) ∧
      ((params.foldl (Award.visit key owner award) found).amount ≠ found.amount → ⟨paramAward, award⟩ ∈ params) := by
  induction params generalizing found with
  | nil => exact ⟨valid, by simp, fun changed => absurd rfl changed, fun changed => absurd rfl changed⟩
  | cons param params ih =>
    rw [List.foldl_cons] at valid ⊢
    obtain ⟨before, fits, account, amount'⟩ := ih _ valid
    rcases visit_cases parsed ne found param with ⟨-, eq⟩ | ⟨here, eq⟩ | ⟨here, eq⟩
    · rw [eq] at before
      cases before
    · rw [eq] at before account amount' ⊢
      refine ⟨before, List.forall_mem_cons.mpr ⟨Or.inl here, fits⟩, fun _ => ?_, fun changed => ?_⟩
      · rw [here]
        exact List.mem_cons_self
      · exact List.mem_cons_of_mem _ (amount' changed)
    · rw [eq] at before account amount' ⊢
      refine ⟨before, List.forall_mem_cons.mpr ⟨Or.inr here, fits⟩, fun changed => ?_, fun _ => ?_⟩
      · exact List.mem_cons_of_mem _ (account changed)
      · rw [here]
        exact List.mem_cons_self

/-- **An operation is paid exactly if its map is the expected one**, and names somebody. -/
theorem award_payable_iff {amount : UInt64} (op : Op) (parsed : parseUint award = some amount) (positive : 0 < amount)
    (ne : paramAward ≠ key) :
    ((op.award key owner award).validOp ∧ 0 < (op.award key owner award).account.length ∧
        0 < (op.award key owner award).amount) ↔ owner ≠ [] ∧ op.Rewards key owner award := by
  constructor
  · rintro ⟨valid, named, paid⟩
    obtain ⟨-, fits, account, amount'⟩ := award_seen parsed ne op.params.entries ⟨true, [], 0⟩ valid
    have hasAccount := account (List.length_pos_iff.mp named)
    have hasAward := amount' (UInt64.pos_iff_ne_zero.mp paid)
    refine ⟨?_, ?_⟩
    · obtain ⟨owned, -⟩ := award_payable op parsed ⟨named, paid⟩
      rw [owned] at named
      exact List.length_pos_iff.mp named
    · have different : (⟨paramAward, award⟩ : Sigma fun _ : Bytes => Bytes) ≠ ⟨key, owner⟩ := by
        intro eq
        cases eq
        exact ne rfl
      rw [Op.Rewards, List.perm_ext_iff_of_nodup op.params.nodupKeys.nodup (by simp [different])]
      intro param
      simp only [List.mem_cons, List.not_mem_nil, or_false]
      constructor
      · exact fun member => (fits param member).symm
      · rintro (rfl | rfl)
        · exact hasAward
        · exact hasAccount
  · rintro ⟨named, built⟩
    rw [award_built built ne parsed]
    exact ⟨rfl, List.length_pos_iff.mpr named, positive⟩

end Award

/-! ## The verdict -/

theorem hexString_ne_nil_iff {bytes : Bytes} : bytesToHexString bytes ≠ [] ↔ bytes ≠ [] :=
  ⟨fun ne empty => ne (by rw [empty]; rfl), hexString_ne_nil⟩

theorem rewardOps_cons {miner : Bytes} {uncles : List Bytes} {op : Op} {rest : List Op} :
    RewardOps miner uncles (op :: rest) ↔ op.Rewards paramMiner (bytesToHexString miner) minerAward ∧
      List.Forall₂ (fun op uncle => uncle ≠ [] ∧ op.Rewards paramUncle (bytesToHexString uncle) uncleAward) rest uncles := by
  simp [RewardOps]

theorem RewardOps.length {miner : Bytes} {uncles : List Bytes} {ops : List Op} (reward : RewardOps miner uncles ops) :
    ops.length = 1 + uncles.length := by
  obtain ⟨op, rest, rfl, -, all⟩ := reward
  rw [List.length_cons, all.length_eq]
  omega

section Process

variable [Sha512] {d : Disk} {b : Block} {ws : MptWorldState} {T : Contents}

/-- Paying an operation for `owner` changes the overlay only, and succeeds exactly if the operation is the expected one. -/
theorem pay_exact {key award : Bytes} {amount : UInt64} (working : Working d ws T) (sound : HashSound (Known d))
    (state : b.worldState = some ws) (op : Op) (owner : Bytes) (parsed : parseUint award = some amount)
    (positive : 0 < amount) (ne : paramAward ≠ key) :
    ∃ vars paid, (op.award key owner award).pay d b = some ({ b with vars }, paid) ∧
      (paid = true ↔ owner ≠ [] ∧ op.Rewards key owner award) := by
  rw [← award_payable_iff op parsed positive ne]
  unfold Award.pay
  split
  · rename_i valid
    rw [credit_eq working sound state]
    exact ⟨_, true, rfl, by simpa using valid⟩
  · rename_i invalid
    exact ⟨b.vars, false, rfl, by simpa using invalid⟩

theorem payUncles_exact (working : Working d ws T) (sound : HashSound (Known d)) (ops : List Op) (uncles : List Bytes)
    (length : ops.length = uncles.length) (state : b.worldState = some ws) :
    ∃ b' paid, payUncles d ops uncles b = some (b', paid) ∧ (paid = true ↔
      List.Forall₂ (fun op uncle => uncle ≠ [] ∧ op.Rewards paramUncle (bytesToHexString uncle) uncleAward) ops uncles) := by
  induction uncles generalizing ops b with
  | nil =>
    obtain rfl := List.length_eq_zero_iff.mp length
    exact ⟨b, true, rfl, by simp⟩
  | cons uncle uncles ih =>
    cases ops with
    | nil => cases length
    | cons op ops =>
      obtain ⟨vars, paid, eq, exact⟩ := pay_exact working sound state op (bytesToHexString uncle) parse_uncleAward
        (by decide) paramAward_ne.2
      rw [hexString_ne_nil_iff] at exact
      rw [payUncles, Op.uncleAward, eq, List.forall₂_cons, ← exact]
      cases paid with
      | false => exact ⟨_, false, rfl, by simp⟩
      | true =>
        obtain ⟨b', rest, eq', exact'⟩ := ih (b := { b with vars }) ops (Nat.succ.inj length) state
        exact ⟨b', rest, eq', by simpa using exact'⟩

/-- **The verdict of `process` is exact.** -/
theorem process_exact [Outside] (working : Working d ws T) (sound : HashSound (Known d)) (state : b.worldState = some ws)
    (tx : Transaction) :
    ∃ b' verdict, process d b tx = some (b', verdict) ∧ (verdict = true ↔ tx.submitter ≠ [] ∧
      ∃ ops, Outside.deserialize tx.payload = some ops ∧ RewardOps tx.submitter b.uncleMiners ops) := by
  unfold process
  cases decoded : Outside.deserialize tx.payload with
  | none => exact ⟨b, false, rfl, by simp⟩
  | some ops =>
    simp only [Option.some.injEq, exists_eq_left']
    split
    · rename_i wrong
      refine ⟨b, false, rfl, ?_⟩
      simp only [Bool.false_eq_true, false_iff, not_and]
      exact fun _ reward => wrong reward.length
    · rename_i length
      rw [not_not] at length
      cases ops with
      | nil =>
        rw [List.length_nil] at length
        omega
      | cons op rest =>
        obtain ⟨vars, paid, eq, exact⟩ := pay_exact working sound state op (bytesToHexString tx.submitter) parse_minerAward
          (by decide) paramAward_ne.1
        rw [hexString_ne_nil_iff] at exact
        rw [List.length_cons] at length
        simp only [Op.minerAward, eq]
        rw [rewardOps_cons, ← and_assoc, ← exact]
        cases paid with
        | false => exact ⟨_, false, rfl, by simp⟩
        | true =>
          obtain ⟨b', verdict, eq', exact'⟩ := payUncles_exact (b := { b with vars }) working sound rest b.uncleMiners
            (by omega) state
          exact ⟨b', verdict, eq', by simpa using exact'⟩

end Process

/-! ## The credits -/

section Credits

variable {version : Version}

/-- The overlay after credits. -/
def payVars (version : Version) (vars : Variables) (credits : List (Bytes × UInt64)) : Variables :=
  credits.foldl (fun vars credit => creditVars version vars credit.1 credit.2) vars

theorem rewardVars_eq (version : Version) (vars : Variables) (miner : Bytes) (uncles : List Bytes) :
    rewardVars version vars miner uncles = payVars version vars (rewardCredits miner uncles) := by
  unfold rewardVars uncleVars payVars rewardCredits
  rw [List.foldl_cons, List.foldl_map]

theorem creditTotal_cons (credit : Bytes × UInt64) (credits : List (Bytes × UInt64)) (key : Bytes) :
    creditTotal (credit :: credits) key = (if credit.1 = key then credit.2 else 0) + creditTotal credits key := by
  unfold creditTotal
  by_cases here : credit.1 = key
  · simp [here]
  · simp [here]

theorem balance_creditVars (version : Version) (vars : Variables) (account : Bytes) (delta : UInt64) (key : Bytes) :
    balance (effective version (creditVars version vars account delta)) key =
      balance (effective version vars) key + if account = key then delta else 0 := by
  rw [effective_creditVars]
  unfold balance
  by_cases here : key = account
  · subst here
    rw [Function.update_self, if_pos rfl, Option.getD_some, bytesToUint64_uint64Bytes]
  · rw [Function.update_of_ne here, if_neg (Ne.symm here), UInt64.add_zero]

/-- **Credits add up by account**, and change no other key. -/
theorem effective_payVars (version : Version) (vars : Variables) (credits : List (Bytes × UInt64)) (key : Bytes) :
    effective version (payVars version vars credits) key =
      if key ∈ credits.map Prod.fst then
        some (uint64Bytes (balance (effective version vars) key + creditTotal credits key))
      else effective version vars key := by
  induction credits generalizing vars with
  | nil => rfl
  | cons credit credits ih =>
    have first : payVars version vars (credit :: credits) =
        payVars version (creditVars version vars credit.1 credit.2) credits := rfl
    rw [first, ih, balance_creditVars, creditTotal_cons, UInt64.add_assoc, List.map_cons]
    by_cases later : key ∈ credits.map Prod.fst
    · rw [if_pos later, if_pos (List.mem_cons_of_mem _ later)]
    · -- the account is not credited again
      have rest : creditTotal credits key = 0 := by
        unfold creditTotal
        rw [List.filter_eq_nil_iff.mpr]
        · rfl
        · intro c member
          simp only [decide_eq_true_eq]
          rintro rfl
          exact later (List.mem_map_of_mem member)
      rw [if_neg later, effective_creditVars, rest, UInt64.add_zero]
      by_cases here : key = credit.1
      · subst here
        rw [Function.update_self, if_pos rfl, if_pos List.mem_cons_self]
      · rw [Function.update_of_ne here, if_neg]
        simp only [List.mem_cons, not_or]
        exact ⟨here, later⟩

end Credits

/-! ## The whole call -/

section Verify

variable [Sha512] [Outside] {d : Disk} {b b' : Block} {ws : MptWorldState} {T : Contents} {tx : Transaction}
  {rest : List Transaction}

/-- What a block shows after a reward. -/
def Rewarded (d : Disk) (b b' : Block) : Prop :=
  ∀ key, b'.shows d key =
    if key ∈ (rewardCredits b.miner b.uncleMiners).map Prod.fst then
      some (uint64Bytes (balance (b.shows d) key + creditTotal (rewardCredits b.miner b.uncleMiners) key))
    else b.shows d key

theorem process_rewarded (working : Working d ws T) (sound : HashSound (Known d)) (state : b.worldState = some ws)
    (submitter : tx.submitter = b.miner) (processed : process d b tx = some (b', true)) : Rewarded d b b' := by
  have eq := (process_true working sound state processed).2
  have state' : b'.worldState = some ws := by
    rw [eq]
    exact state
  intro key
  rw [shows_eq working sound state', shows_eq working sound state, eq, submitter, rewardVars_eq]
  exact effective_payVars (versionOf T) b.vars (rewardCredits b.miner b.uncleMiners) key

/-- **Reward verification is exact.** `VerifyMiningRewardTx` returns, for every block that has a transaction and a world
state. Its verdict is true exactly if the first transaction is signed by its submitter, the submitter is the miner of
the block and has an address, and the payload is the list of the rewards of the miner and of the uncles. Then the block
shows these credits, added up by account, and no other change. -/
theorem reward_verification_exact (working : Working d ws T) (sound : HashSound (Known d))
    (state : b.worldState = some ws) (first : b.txs = tx :: rest) :
    ∃ b' verdict, verifyMiningRewardTx d b = some (b', verdict) ∧
      (verdict = true ↔ Outside.verify tx.submitter (sum512 tx.payload) tx.signature = true ∧ tx.submitter = b.miner ∧
        b.miner ≠ [] ∧ ∃ ops, Outside.deserialize tx.payload = some ops ∧ RewardOps b.miner b.uncleMiners ops) ∧
      (verdict = true → Rewarded d b b') := by
  unfold verifyMiningRewardTx
  rw [first]
  simp only
  cases signed : Outside.verify tx.submitter (sum512 tx.payload) tx.signature with
  | false => exact ⟨b, false, rfl, by simp, by simp⟩
  | true =>
    by_cases submitter : tx.submitter = b.miner
    · obtain ⟨b', verdict, eq, exact⟩ := process_exact working sound state tx
      refine ⟨b', verdict, by simp [submitter, eq], ?_, ?_⟩
      · rw [exact, submitter]
        simp
      · rintro rfl
        exact process_rewarded working sound state submitter eq
    · exact ⟨b, false, by simp [submitter], by simp [submitter], by simp⟩

end Verify

section Worked

attribute [local instance] Plain.sha512 Plain.outside

/-- The reward that node 2 signs for a block with an uncle of node 1. -/
def Worked.rewarding : List Action :=
  Worked.forkBlocks ++ .candidate 2 0x200003 ::
    (((Plain.config 2).trustee.rewardTx 0 0 0x200003 [[1]]).map fun tx => Action.addTransaction 2 tx).toList

theorem reward_verification_exact_shared :
    let s := (System.boot genesisTimeStamp 0 [2]).run Worked.rewarding
    ∃ b b' tx, s.blocks 2 = some b ∧ b.txs = [tx] ∧ b.uncleMiners = [[1]] ∧
      verifyMiningRewardTx s.db b = some (b', true) ∧ b'.shows s.db (ascii "02") = some (uint64Bytes 1000000) ∧
      b'.shows s.db (ascii "01") = some (uint64Bytes 200000) := by
  intro s
  have run : (System.boot genesisTimeStamp 0 [2]).engine.isSome = true ∧ Plain.Covered s.db ∧
      ((s.blocks 2).any fun b : Block => b.worldState.any fun _ : MptWorldState => b.txs.any fun tx =>
        decide (b.txs = [tx] ∧ b.miner = [2] ∧ b.uncleMiners = [[1]] ∧ b.shows s.db (ascii "01") = none ∧
          b.shows s.db (ascii "02") = none ∧ (verifyMiningRewardTx s.db b).map Prod.snd = some true)) = true := by
    decide +kernel
  obtain ⟨started, covered, found⟩ := run
  obtain ⟨b, block, found⟩ := (Option.any_eq_true _ _).mp found
  obtain ⟨ws, state, found⟩ := (Option.any_eq_true _ _).mp found
  obtain ⟨tx, -, found⟩ := List.any_eq_true.mp found
  obtain ⟨first, miner, uncles, before, before', accepted⟩ := of_decide_eq_true found
  have reached : Reached (fun _ _ => True) (genesisHash genesisTimeStamp 0) s :=
    ⟨genesisTimeStamp, 0, [2], Worked.rewarding, started, rfl, Transition.along_true _ _, rfl⟩
  have sound : HashSound (Known s.db) := Plain.hashSound_of_covered fun n knows => ⟨s.db, knows, covered⟩
  obtain ⟨T, working⟩ := reached.working block state sound
  obtain ⟨b', verdict, verified, -, credited⟩ := reward_verification_exact working sound state first
  rw [verified] at accepted
  cases accepted
  have shown := credited rfl (ascii "01")
  have shown' := credited rfl (ascii "02")
  rw [miner, uncles, balance, before] at shown
  rw [miner, uncles, balance, before'] at shown'
  exact ⟨b, b', tx, block, first, uncles, verified, shown', shown⟩

end Worked

end TrustNet
