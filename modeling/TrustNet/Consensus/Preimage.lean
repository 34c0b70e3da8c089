import TrustNet.Core.Encoding
import TrustNet.Consensus.Transactions

/-!
# What the hash of a block binds

`computeHash` writes the fields of a block one after the other, without their lengths.
Parent, timestamp, delta, state, weight, nonce and each uncle have a fixed width; the
miner and the transactions do not. The data that is hashed therefore determines the
block once the lengths of these are known, and not otherwise: two transactions can be
read as one longer transaction.
-/

namespace TrustNet
set_option autoImplicit false

/-! ## Fields in a concatenation -/

/-- The encoding of a transaction ends in its timestamp, and starts with payload, signature and submitter. -/
theorem Transaction.bytes_cut {a b : Transaction} (same : a.bytes = b.bytes) :
    a.payload ++ a.signature ++ a.submitter = b.payload ++ b.signature ++ b.submitter ∧ a.timestamp = b.timestamp := by
  obtain ⟨front, timestamp⟩ := List.append_inj' same rfl
  exact ⟨front, uint64Bytes_injective timestamp⟩

/-- **Two transactions with one encoding agree in their fields exactly if** their payloads end at the same place and
their signatures do. -/
theorem transaction_bytes_bind {a b : Transaction} (same : a.bytes = b.bytes) :
    (a.payload = b.payload ∧ a.signature = b.signature ∧ a.submitter = b.submitter ∧ a.timestamp = b.timestamp) ↔
      a.payload.length = b.payload.length ∧ a.signature.length = b.signature.length := by
  constructor
  · rintro ⟨payload, signature, -, -⟩
    exact ⟨congrArg List.length payload, congrArg List.length signature⟩
  · rintro ⟨payload, signature⟩
    obtain ⟨front, timestamp⟩ := Transaction.bytes_cut same
    rw [List.append_assoc, List.append_assoc] at front
    obtain ⟨payloadEq, front⟩ := List.append_inj front payload
    obtain ⟨signatureEq, submitter⟩ := List.append_inj front signature
    exact ⟨payloadEq, signatureEq, submitter, timestamp⟩

theorem transaction_bytes_bind_signed :
    let a : Transaction := ⟨[1], [2, 3], [4], 5⟩
    let b : Transaction := ⟨[1, 2], [3], [4], 5⟩
    a.bytes = b.bytes ∧
      ¬(a.payload = b.payload ∧ a.signature = b.signature ∧ a.submitter = b.submitter ∧ a.timestamp = b.timestamp) := by
  intro a b
  have same : a.bytes = b.bytes := by decide
  refine ⟨same, fun fields => ?_⟩
  have lengths := (transaction_bytes_bind same).mp fields
  exact absurd lengths.1 (by decide)

/-! ## Blocks -/

section Binding

variable {d : Disk} {a b : BlockSpec}

end Binding

section Worked

attribute [local instance] workedSha512

/-- A candidate on genesis. -/
def Worked.candidate : Block := newBlock (genesisHash 1 1) 1 1 2 1 [7] (some freshState) 2

/-- A payload that is moved to the signature gives the same transaction id, and the second transaction is turned down
as a duplicate of the first. -/
theorem Worked.moved_payload_is_duplicate :
    let a : Transaction := ⟨[1], [], [], 0⟩
    let b : Transaction := ⟨[], [1], [], 0⟩
    let d := (System.boot 1 1 [7]).db
    a.payload ≠ b.payload ∧ a.signature ≠ b.signature ∧ a.bytes = b.bytes ∧ a.id = b.id ∧
      (Worked.candidate.addTransaction d b).2 = .ok ∧ (Worked.candidate.addTransaction d a).2 = .ok ∧
      ((Worked.candidate.addTransaction d a).1.addTransaction d b).2 =
        .error (.core .duplicateTx "duplicate transaction") := by
  decide +kernel

/-- The payload of the transaction of `once`, moved to the signature. -/
def Worked.signed : BlockSpec := { Worked.left with txs := [⟨[], [1], [], 0⟩] }

end Worked

end TrustNet
