import Mathlib.Algebra.BigOperators.Group.Finset.Basic
import TrustNet.Consensus.Committed
import TrustNet.Network.Reward

/-!
# Transfers (`Debit` and `Credit`)

`Debit` checks the balance before it subtracts, `Credit` adds without a check. The `xfer`
operation of the counter application makes one after the other. A transfer that the debit
lets through moves the amount and creates nothing exactly if the credit stays below 2^64,
which the debit does not ensure: the two accounts are different keys, and an application
can write any balance to them.
-/

namespace TrustNet
set_option autoImplicit false

/-- The error of `Debit`, `ERR_LOW_BALANCE` with its text. -/
structure LowBalance where
  msg : String

def insufficientFund (currVal delta : UInt64) : LowBalance :=
  ⟨"insufficient fund: " ++ toString currVal ++ " < " ++ toString delta⟩

section Transfer

variable [Sha512] {σ : Type} [Database σ]

/-- `Debit` after its `Lookup`. -/
def debitFrom (block : Block) (account : Bytes) (currVal delta : UInt64) : Block × Option LowBalance :=
  if currVal < delta then (block, some (insufficientFund currVal delta))
  else (block.update account (uint64Bytes (currVal - delta)), none)

/-- `Debit`; `none` is a panic. -/
def debit (db : σ) (block : Block) (account : Bytes) (delta : UInt64) : Option (Block × Option LowBalance) :=
  match block.lookup db account with
  | (_, .panic) => none
  | (block, .value bytes) => some (debitFrom block account (bytesToUint64 bytes) delta)
  | (block, .error _) => some (debitFrom block account (bytesToUint64 []) delta)

/-- The operation `xfer` of the counter application. Its amount is a signed field. -/
def xfer (db : σ) (block : Block) (source target : Bytes) (delta : Int64) : Option (Block × Bool) :=
  match debit db block source delta.toUInt64 with
  | none => none
  | some (block, some _) => some (block, false)
  | some (block, none) => (credit db block target delta.toUInt64).map fun block => (block, true)

end Transfer

/-- The overlay after `Debit`. -/
def debitVars (version : Version) (vars : Variables) (account : Bytes) (delta : UInt64) : Variables :=
  (BlockOp.record version vars (.lookup account)).insert account
    (some (uint64Bytes (balance (effective version vars) account - delta)))

/-- A transfer: the amount leaves the source and reaches the target, the sum of the balances is the same, and no other
key changes. -/
structure Moved (before after : Version) (source target : Bytes) (amount : UInt64) : Prop where
  debited : source ≠ target → (balance after source).toNat + amount.toNat = (balance before source).toNat
  credited : source ≠ target → (balance after target).toNat = (balance before target).toNat + amount.toNat
  same : source = target → balance after source = balance before source
  total : ∀ accounts : Finset Bytes, source ∈ accounts → target ∈ accounts →
    ∑ account ∈ accounts, (balance after account).toNat = ∑ account ∈ accounts, (balance before account).toNat
  others : ∀ key, key ≠ source → key ≠ target → after key = before key

/-! ## Versions -/

section Versions

variable {version : Version} {source target account : Bytes} {amount value : UInt64}

theorem balance_update_self (version : Version) (account : Bytes) (value : UInt64) :
    balance (Function.update version account (some (uint64Bytes value))) account = value := by
  rw [balance, Function.update_self, Option.getD_some, bytesToUint64_uint64Bytes]

theorem balance_update_of_ne (version : Version) {account key : Bytes} (entry : Option Bytes) (ne : key ≠ account) :
    balance (Function.update version account entry) key = balance version key := by
  rw [balance, Function.update_of_ne ne, balance]

/-- Subtract from one key, and then add to one. -/
def moveAmount (version : Version) (source target : Bytes) (amount : UInt64) : Version :=
  let debited := Function.update version source (some (uint64Bytes (balance version source - amount)))
  Function.update debited target (some (uint64Bytes (balance debited target + amount)))

/-- The balances of the two accounts after the move add up to those before it. -/
theorem Moved.sum {before after : Version} (ne : source ≠ target)
    (debited : (balance after source).toNat + amount.toNat = (balance before source).toNat)
    (credited : (balance after target).toNat = (balance before target).toNat + amount.toNat)
    (others : ∀ key, key ≠ source → key ≠ target → after key = before key) (accounts : Finset Bytes)
    (hasSource : source ∈ accounts) (hasTarget : target ∈ accounts) :
    ∑ account ∈ accounts, (balance after account).toNat = ∑ account ∈ accounts, (balance before account).toNat := by
  have rest : ∑ account ∈ (accounts.erase source).erase target, (balance after account).toNat =
      ∑ account ∈ (accounts.erase source).erase target, (balance before account).toNat := by
    refine Finset.sum_congr rfl fun account member => ?_
    rw [Finset.mem_erase, Finset.mem_erase] at member
    rw [balance, others account member.2.1 member.1, balance]
  have inRest : target ∈ accounts.erase source := Finset.mem_erase.mpr ⟨Ne.symm ne, hasTarget⟩
  rw [← Finset.add_sum_erase _ _ hasSource, ← Finset.add_sum_erase _ _ inRest, ← Finset.add_sum_erase _ _ hasSource,
    ← Finset.add_sum_erase _ _ inRest, rest]
  omega

/-- **The move conserves value** if the target can hold it. -/
theorem moved_moveAmount (version : Version) (source target : Bytes) (amount : UInt64)
    (covered : amount ≤ balance version source)
    (fits : source = target ∨ (balance version target).toNat + amount.toNat < 2 ^ 64) :
    Moved version (moveAmount version source target amount) source target amount := by
  have less : amount.toNat ≤ (balance version source).toNat := UInt64.le_iff_toNat_le.mp covered
  by_cases eq : source = target
  · subst eq
    have same : balance (moveAmount version source source amount) source = balance version source := by
      rw [moveAmount, balance_update_self, balance_update_self, UInt64.sub_add_cancel]
    have others : ∀ key, key ≠ source → moveAmount version source source amount key = version key := by
      intro key ne
      rw [moveAmount, Function.update_of_ne ne, Function.update_of_ne ne]
    refine ⟨fun ne => absurd rfl ne, fun ne => absurd rfl ne, fun _ => same, fun accounts _ _ => ?_,
      fun key ne _ => others key ne⟩
    refine Finset.sum_congr rfl fun account _ => ?_
    by_cases here : account = source
    · rw [here, same]
    · rw [balance, others account here, balance]
  · have fits := fits.resolve_left eq
    have debited : (balance (moveAmount version source target amount) source).toNat + amount.toNat =
        (balance version source).toNat := by
      rw [moveAmount, balance_update_of_ne _ _ eq, balance_update_self, UInt64.toNat_sub_of_le _ _ covered]
      omega
    have credited : (balance (moveAmount version source target amount) target).toNat =
        (balance version target).toNat + amount.toNat := by
      rw [moveAmount, balance_update_self, balance_update_of_ne _ _ (Ne.symm eq), UInt64.toNat_add,
        Nat.mod_eq_of_lt fits]
    have others : ∀ key, key ≠ source → key ≠ target → moveAmount version source target amount key = version key := by
      intro key neS neT
      rw [moveAmount, Function.update_of_ne neT, Function.update_of_ne neS]
    exact ⟨fun _ => debited, fun _ => credited, fun same => absurd same eq, Moved.sum eq debited credited others, others⟩

/-- A move conserves value only if the target can hold it. -/
theorem Moved.fits {before after : Version} (moved : Moved before after source target amount) :
    source = target ∨ (balance before target).toNat + amount.toNat < 2 ^ 64 := by
  by_cases eq : source = target
  · exact Or.inl eq
  · have credited := moved.credited eq
    have bound := (balance after target).toNat_lt
    omega

end Versions

/-! ## The calls -/

section Calls

variable [Sha512] {d : Disk} {b : Block} {ws : MptWorldState} {T : Contents}

theorem shows_withVars (working : Working d ws T) (sound : HashSound (Known d)) (state : b.worldState = some ws)
    (vars : Variables) : ({ b with vars } : Block).shows d = effective (versionOf T) vars :=
  shows_eq (b := { b with vars }) working sound state

theorem credit_shows (working : Working d ws T) (sound : HashSound (Known d)) (state : b.worldState = some ws)
    (account : Bytes) (delta : UInt64) :
    ∃ b', credit d b account delta = some b' ∧ b'.shows d =
      Function.update (b.shows d) account (some (uint64Bytes (balance (b.shows d) account + delta))) := by
  refine ⟨_, credit_eq working sound state account delta, ?_⟩
  rw [shows_withVars working sound state, shows_eq working sound state, effective_creditVars]

theorem debit_shows (working : Working d ws T) (sound : HashSound (Known d)) (state : b.worldState = some ws)
    (account : Bytes) (delta : UInt64) :
    ∃ b', b'.worldState = some ws ∧
      ((balance (b.shows d) account < delta ∧ b'.shows d = b.shows d ∧
          debit d b account delta = some (b', some (insufficientFund (balance (b.shows d) account) delta))) ∨
        (delta ≤ balance (b.shows d) account ∧ debit d b account delta = some (b', none) ∧ b'.shows d =
          Function.update (b.shows d) account (some (uint64Bytes (balance (b.shows d) account - delta))))) := by
  obtain ⟨r, eq, alive, found⟩ := lookup_balance working sound state account
  have call : debit d b account delta =
      some (debitFrom { b with vars := BlockOp.record (versionOf T) b.vars (.lookup account) } account
        (balance (effective (versionOf T) b.vars) account) delta) := by
    unfold debit
    rw [eq, ← found]
    cases r with
    | value v => rfl
    | error e => rfl
    | panic => exact absurd rfl alive
  rw [call, shows_eq working sound state, debitFrom]
  by_cases low : balance (effective (versionOf T) b.vars) account < delta
  · refine ⟨{ b with vars := BlockOp.record (versionOf T) b.vars (.lookup account) }, state,
      Or.inl ⟨low, ?_, by rw [if_pos low]⟩⟩
    rw [shows_withVars working sound state, effective_record_lookup]
  · refine ⟨{ b with vars := debitVars (versionOf T) b.vars account delta }, state,
      Or.inr ⟨UInt64.not_lt.mp low, by rw [if_neg low]; rfl, ?_⟩⟩
    rw [shows_withVars working sound state, debitVars, effective_insert, effective_record_lookup]

/-- **When transfers conserve value.** For every block that works on its database, any two accounts and every amount, an
`xfer` returns, and it fails exactly if the source has less than the amount. It changes nothing that the block shows, or
moves the amount, exactly if the target is the source, or the source has less than the amount, or the target can hold
the amount. -/
theorem transfer_conserves (working : Working d ws T) (sound : HashSound (Known d)) (state : b.worldState = some ws)
    (source target : Bytes) (delta : Int64) :
    ∃ b' moved, xfer d b source target delta = some (b', moved) ∧
      (moved = true ↔ delta.toUInt64 ≤ balance (b.shows d) source) ∧
      ((moved = false ∧ b'.shows d = b.shows d) ∨
          (moved = true ∧ Moved (b.shows d) (b'.shows d) source target delta.toUInt64) ↔
        source = target ∨ balance (b.shows d) source < delta.toUInt64 ∨
          (balance (b.shows d) target).toNat + delta.toUInt64.toNat < 2 ^ 64) := by
  unfold xfer
  obtain ⟨b₁, state₁, ⟨low, same, debited⟩ | ⟨covered, debited, shown⟩⟩ :=
    debit_shows working sound state source delta.toUInt64
  · rw [debited]
    exact ⟨b₁, false, rfl, by simpa using low, fun _ => Or.inr (Or.inl low), fun _ => Or.inl ⟨rfl, same⟩⟩
  · obtain ⟨b₂, credited, shown₂⟩ := credit_shows working sound state₁ target delta.toUInt64
    have shows₂ : b₂.shows d = moveAmount (b.shows d) source target delta.toUInt64 := by
      rw [shown₂, shown]
      rfl
    rw [debited]
    refine ⟨b₂, true, by simp [credited], by simpa using covered, ?_, fun fits => ?_⟩
    · rintro (⟨failed, -⟩ | ⟨-, moved⟩)
      · cases failed
      · exact moved.fits.imp_right Or.inr
    · -- the source has the amount, so the second case does not arise
      have fits := fits.imp_right fun rest => rest.resolve_left (UInt64.not_lt.mpr covered)
      rw [shows₂]
      exact Or.inr ⟨rfl, moved_moveAmount (b.shows d) source target delta.toUInt64 covered fits⟩

end Calls

section Worked

attribute [local instance] workedSha512

/-- A candidate in which the application wrote balances to `a` and `b`. -/
def Worked.balances (first second : UInt64) : List Action :=
  [.candidate 0 2, .update 0 [97] (uint64Bytes first), .update 0 [98] (uint64Bytes second)]

theorem transfer_conserves_small :
    let s := (System.boot 1 1 [7]).run (Worked.balances 5 7)
    ∃ b b', s.blocks 0 = some b ∧ xfer s.db b [97] [98] 2 = some (b', true) ∧
      (balance (b'.shows s.db) [97]).toNat + 2 = 5 ∧ (balance (b'.shows s.db) [98]).toNat = 7 + 2 := by
  intro s
  have run : Worked.Covered s.db ∧ ((s.blocks 0).any fun b : Block => b.worldState.any fun _ : MptWorldState =>
      decide (balance (b.shows s.db) [97] = 5 ∧ balance (b.shows s.db) [98] = 7)) = true := by decide +kernel
  obtain ⟨covered, found⟩ := run
  obtain ⟨b, block, found⟩ := (Option.any_eq_true _ _).mp found
  obtain ⟨ws, state, found⟩ := (Option.any_eq_true _ _).mp found
  obtain ⟨first, second⟩ := of_decide_eq_true found
  have reached : Reached (fun _ _ => True) (genesisHash 1 1) s := Worked.reached_always (Worked.balances 5 7)
  have sound : HashSound (Known s.db) := Worked.hashSound_of_covered covered
  obtain ⟨T, working⟩ := reached.working block state sound
  obtain ⟨b', moved, eq, done, conserves⟩ := transfer_conserves working sound state [97] [98] 2
  have succeeds : moved = true := done.mpr (by rw [first]; decide)
  have fits : (balance (b.shows s.db) [98]).toNat + (2 : Int64).toUInt64.toNat < 2 ^ 64 := by
    rw [second]
    decide
  subst succeeds
  obtain ⟨failed, -⟩ | ⟨-, conserved⟩ := conserves.mpr (Or.inr (Or.inr fits))
  · cases failed
  have debited := conserved.debited (by decide)
  have credited := conserved.credited (by decide)
  rw [first] at debited
  rw [second] at credited
  exact ⟨b, b', block, eq, debited, credited⟩

/-- The account `b` holds all that 64 bits can say. A transfer of 1 from `a` succeeds, and empties it. -/
theorem Worked.full_account_wraps :
    let s := (System.boot 1 1 [7]).run (Worked.balances 1 18446744073709551615)
    Reached (fun _ _ => True) (genesisHash 1 1) s ∧ ∃ b b', s.blocks 0 = some b ∧ xfer s.db b [97] [98] 1 = some (b', true) ∧
      balance (b.shows s.db) [98] = 18446744073709551615 ∧ balance (b'.shows s.db) [97] = 0 ∧
      balance (b'.shows s.db) [98] = 0 := by
  intro s
  have run : (s.blocks 0).any fun b : Block => (xfer s.db b [97] [98] 1).any fun r : Block × Bool =>
      decide (r.2 = true ∧ balance (b.shows s.db) [98] = 18446744073709551615 ∧ balance (r.1.shows s.db) [97] = 0 ∧
        balance (r.1.shows s.db) [98] = 0) := by decide +kernel
  obtain ⟨b, block, found⟩ := (Option.any_eq_true _ _).mp run
  obtain ⟨⟨b', moved⟩, eq, found⟩ := (Option.any_eq_true _ _).mp found
  obtain ⟨rfl, wrapped⟩ := of_decide_eq_true found
  exact ⟨Worked.reached_always (Worked.balances 1 18446744073709551615), b, b', block, eq, wrapped⟩

end Worked

end TrustNet
