import Mathlib.Data.List.Permutation
import TrustNet.Consensus.View
import TrustNet.Network.Trustee

/-!
# What a reward transaction does

A reward that is processed to its end credits the miner and the miners of the uncles, and
nobody else: the payload can only say what the block says already. So the sender, which
processes its own transaction, and a receiver with the same uncles, which checks it, make
the same credits.
-/

namespace TrustNet
set_option autoImplicit false

/-- The balance of an account. -/
def balance (version : Version) (account : Bytes) : UInt64 := bytesToUint64 ((version account).getD [])

/-- The overlay after `Credit`. -/
def creditVars (version : Version) (vars : Variables) (account : Bytes) (delta : UInt64) : Variables :=
  (BlockOp.record version vars (.lookup account)).insert account
    (some (uint64Bytes (balance (effective version vars) account + delta)))

/-- The overlay after the rewards of the uncles. -/
def uncleVars (version : Version) (vars : Variables) (uncles : List Bytes) : Variables :=
  uncles.foldl (fun vars uncle => creditVars version vars (bytesToHexString uncle) 200000) vars

/-- The overlay after the rewards of a block. -/
def rewardVars (version : Version) (vars : Variables) (miner : Bytes) (uncles : List Bytes) : Variables :=
  uncleVars version (creditVars version vars (bytesToHexString miner) 1000000) uncles

/-! ## The parameters of an operation -/

section Award

variable {key owner award : Bytes}

/-- The loop finds no other account and no other amount than those it looks for. -/
theorem award_found (key owner award : Bytes) (params : List (Sigma fun _ : Bytes => Bytes)) {found : Award}
    (account : found.account = [] ∨ found.account = owner)
    (amount : found.amount = 0 ∨ parseUint award = some found.amount) :
    ((params.foldl (Award.visit key owner award) found).account = [] ∨
        (params.foldl (Award.visit key owner award) found).account = owner) ∧
      ((params.foldl (Award.visit key owner award) found).amount = 0 ∨
        parseUint award = some (params.foldl (Award.visit key owner award) found).amount) := by
  induction params generalizing found with
  | nil => exact ⟨account, amount⟩
  | cons param params ih =>
    rw [List.foldl_cons]
    apply ih
    · unfold Award.visit
      split
      · split
        · exact account
        · rename_i same
          exact Or.inr (not_not.mp same)
      · split
        · split
          · exact account
          · split
            · exact account
            · exact account
        · exact account
    · unfold Award.visit
      split
      · split
        · exact amount
        · exact amount
      · split
        · split
          · exact amount
          · rename_i same
            rw [not_not] at same
            split
            · exact amount
            · rename_i val parsed
              rw [same] at parsed
              exact Or.inr parsed
        · exact amount

/-- A reward that can be paid has the owner and the amount it should have. -/
theorem award_payable (op : Op) {amount : UInt64} (parsed : parseUint award = some amount)
    (paid : 0 < (op.award key owner award).account.length ∧ 0 < (op.award key owner award).amount) :
    (op.award key owner award).account = owner ∧ (op.award key owner award).amount = amount := by
  have start : (Award.mk true [] 0).amount = 0 ∨ parseUint award = some (Award.mk true [] 0).amount := Or.inl rfl
  obtain ⟨account, found⟩ := award_found key owner award op.params.entries (Or.inl rfl) start
  constructor
  · rcases account with empty | owned
    · have positive := paid.1
      rw [Op.award, empty] at positive
      cases positive
    · exact owned
  · rcases found with zero | same
    · have positive := paid.2
      rw [Op.award, zero] at positive
      exact absurd positive (by decide)
    · rw [parsed, Option.some.injEq] at same
      exact same.symm

/-- The reward that a miner builds, in whatever order its parameters come. -/
theorem award_built {op : Op} {amount : UInt64}
    (built : op.params.entries.Perm [⟨paramAward, award⟩, ⟨key, owner⟩]) (ne : paramAward ≠ key)
    (parsed : parseUint award = some amount) : op.award key owner award = ⟨true, owner, amount⟩ := by
  unfold Op.award
  rcases List.perm_pair.mp built with eq | eq
  · rw [eq]
    simp [Award.visit, ne, parsed]
  · rw [eq]
    simp [Award.visit, ne, parsed]

end Award

/-! ## Credits -/

theorem parse_minerAward : parseUint minerAward = some 1000000 := by decide

theorem parse_uncleAward : parseUint uncleAward = some 200000 := by decide

theorem paramAward_ne : paramAward ≠ paramMiner ∧ paramAward ≠ paramUncle := by decide

theorem hexString_ne_nil {bytes : Bytes} (ne : bytes ≠ []) : bytesToHexString bytes ≠ [] := fun empty =>
  ne (bytesToHexString_injective empty)

theorem effective_creditVars (version : Version) (vars : Variables) (account : Bytes) (delta : UInt64) :
    effective version (creditVars version vars account delta) = Function.update (effective version vars) account
      (some (uint64Bytes (balance (effective version vars) account + delta))) := by
  rw [creditVars, effective_insert, effective_record_lookup]

section Process

variable [Sha512] {d : Disk} {b : Block} {ws : MptWorldState} {T : Contents}

/-- What `Lookup` reads of an account: its balance. -/
theorem lookup_balance (working : Working d ws T) (sound : HashSound (Known d)) (state : b.worldState = some ws)
    (account : Bytes) :
    ∃ r, b.lookup d account = ({ b with vars := BlockOp.record (versionOf T) b.vars (.lookup account) }, r) ∧ r ≠ .panic ∧
      bytesToUint64 (r.found.getD []) = balance (effective (versionOf T) b.vars) account := by
  refine ⟨_, lookup_eq working sound state account, ?_, ?_⟩
  · unfold reply
    cases b.vars.lookup account with
    | some entry =>
      cases entry with
      | none => simp
      | some value => simp
    | none =>
      cases versionOf T account with
      | none => simp
      | some value => simp
  · rw [found_reply]
    rfl

theorem credit_eq (working : Working d ws T) (sound : HashSound (Known d)) (state : b.worldState = some ws)
    (account : Bytes) (delta : UInt64) :
    credit d b account delta = some { b with vars := creditVars (versionOf T) b.vars account delta } := by
  obtain ⟨r, eq, alive, found⟩ := lookup_balance working sound state account
  unfold credit creditVars
  rw [eq, ← found]
  cases r with
  | value v => rfl
  | error e => rfl
  | panic => exact absurd rfl alive

theorem balance_eq (working : Working d ws T) (sound : HashSound (Known d)) (state : b.worldState = some ws)
    (account : Bytes) :
    (miningRewardBalance d b account).map Prod.snd = some (balance (effective (versionOf T) b.vars) account) := by
  obtain ⟨r, eq, alive, found⟩ := lookup_balance working sound state account
  unfold miningRewardBalance
  rw [eq, ← found]
  cases r with
  | value v => rfl
  | error e => rfl
  | panic => exact absurd rfl alive

/-- An award that was paid. -/
theorem Award.pay_true (working : Working d ws T) (sound : HashSound (Known d)) (state : b.worldState = some ws)
    {award : Award} {b' : Block} (paid : award.pay d b = some (b', true)) :
    (0 < award.account.length ∧ 0 < award.amount) ∧
      b' = { b with vars := creditVars (versionOf T) b.vars award.account award.amount } := by
  unfold Award.pay at paid
  split at paid
  · rename_i valid
    rw [credit_eq working sound state] at paid
    simp only [Option.map_some, Option.some.injEq, Prod.mk.injEq] at paid
    exact ⟨valid.2, paid.1.symm⟩
  · simp at paid

theorem Award.pay_of_valid (working : Working d ws T) (sound : HashSound (Known d)) (state : b.worldState = some ws)
    {owner : Bytes} {amount : UInt64} (owned : owner ≠ []) (positive : 0 < amount) :
    (Award.mk true owner amount).pay d b =
      some ({ b with vars := creditVars (versionOf T) b.vars owner amount }, true) := by
  unfold Award.pay
  rw [if_pos ⟨rfl, List.length_pos_iff.mpr owned, positive⟩, credit_eq working sound state]
  rfl

/-! ## The whole transaction -/

/-- Uncle rewards that were paid went to the uncles. -/
theorem payUncles_true (working : Working d ws T) (sound : HashSound (Known d)) {ops : List Op} {uncles : List Bytes}
    {b' : Block} (state : b.worldState = some ws) (paid : payUncles d ops uncles b = some (b', true)) :
    b' = { b with vars := uncleVars (versionOf T) b.vars uncles } := by
  induction uncles generalizing ops b with
  | nil =>
    cases ops with
    | nil =>
      cases paid
      rfl
    | cons op ops =>
      cases paid
      rfl
  | cons uncle uncles ih =>
    cases ops with
    | nil => cases paid
    | cons op ops =>
      rw [payUncles] at paid
      split at paid
      · cases paid
      · simp at paid
      · rename_i b₁ first
        obtain ⟨positive, eq⟩ := Award.pay_true working sound state first
        obtain ⟨account, amount⟩ := award_payable op parse_uncleAward positive
        rw [Op.uncleAward, account, amount] at eq
        subst eq
        exact ih (b := { b with vars := creditVars (versionOf T) b.vars (bytesToHexString uncle) 200000 }) state paid

/-- **A reward that was processed credits the miner and the uncles.** -/
theorem process_true [Outside] (working : Working d ws T) (sound : HashSound (Known d)) (state : b.worldState = some ws)
    {tx : Transaction} {b' : Block} (processed : process d b tx = some (b', true)) :
    tx.submitter ≠ [] ∧ b' = { b with vars := rewardVars (versionOf T) b.vars tx.submitter b.uncleMiners } := by
  unfold process at processed
  split at processed
  · simp at processed
  · rename_i ops _
    split at processed
    · simp at processed
    · cases ops with
      | nil => cases processed
      | cons op ops =>
        simp only at processed
        split at processed
        · cases processed
        · simp at processed
        · rename_i b₁ first
          obtain ⟨positive, eq⟩ := Award.pay_true working sound state first
          obtain ⟨account, amount⟩ := award_payable op parse_minerAward positive
          rw [Op.minerAward, account, amount] at eq
          subst eq
          refine ⟨fun nobody => ?_, payUncles_true
            (b := { b with vars := creditVars (versionOf T) b.vars (bytesToHexString tx.submitter) 1000000 }) working sound
            state processed⟩
          have paid := positive.1
          rw [Op.minerAward, account, nobody] at paid
          cases paid

theorem payUncles_built (working : Working d ws T) (sound : HashSound (Known d)) {ops : List Op} {uncles : List Bytes}
    (state : b.worldState = some ws) (named : ∀ uncle ∈ uncles, uncle ≠ [])
    (built : SameOps (uncles.map uncleReward) ops) :
    payUncles d ops uncles b = some ({ b with vars := uncleVars (versionOf T) b.vars uncles }, true) := by
  induction uncles generalizing ops b with
  | nil =>
    cases built
    rfl
  | cons uncle uncles ih =>
    cases built with
    | @cons _ op _ ops same rest =>
      have award : op.uncleAward uncle = ⟨true, bytesToHexString uncle, 200000⟩ :=
        award_built same.2.symm paramAward_ne.2 parse_uncleAward
      rw [payUncles, award, Award.pay_of_valid working sound state
        (hexString_ne_nil (named uncle List.mem_cons_self)) (by decide)]
      exact ih state (fun u member => named u (List.mem_cons_of_mem _ member)) rest

/-- **The reward that a miner builds is processed to its end**, on any block with the same uncle miners. -/
theorem process_built [Outside] (working : Working d ws T) (sound : HashSound (Known d)) (state : b.worldState = some ws)
    (t : Trustee) {tx : Transaction} {ops : List Op} (submitter : tx.submitter = t.myAddress)
    (address : t.myAddress ≠ []) (named : ∀ uncle ∈ b.uncleMiners, uncle ≠ [])
    (decoded : Outside.deserialize tx.payload = some ops)
    (built : SameOps (t.myReward :: b.uncleMiners.map uncleReward) ops) :
    process d b tx = some ({ b with vars := rewardVars (versionOf T) b.vars tx.submitter b.uncleMiners }, true) := by
  have length : ops.length = 1 + b.uncleMiners.length := by
    rw [← built.length_eq, List.length_cons, List.length_map]
    omega
  cases built with
  | @cons _ op _ ops same rest =>
    have award : op.minerAward tx.submitter = ⟨true, bytesToHexString tx.submitter, 1000000⟩ := by
      rw [submitter]
      exact award_built same.2.symm paramAward_ne.1 parse_minerAward
    unfold process
    rw [decoded]
    simp only
    rw [if_neg (not_not.mpr length), award, Award.pay_of_valid working sound state
      (hexString_ne_nil (by rw [submitter]; exact address)) (by decide)]
    exact payUncles_built working sound state named rest

end Process

end TrustNet
