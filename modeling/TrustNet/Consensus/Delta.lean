import TrustNet.Consensus.InHand
import TrustNet.Consensus.Transactions
import TrustNet.Consensus.Uncles

/-!
# The time since the parent block

`newBlock` takes the parent's timestamp and stores the difference as DELTA, but
`NewCandidateBlock` hands it a difference already, so the DELTA of a candidate is the
timestamp of its parent. The DELTA of a network block is what its sender wrote. The
approver is asked with the DELTA of the block in hand, which is the DELTA that is
stored: when both sources give the true difference, it is true in every state.
-/

namespace TrustNet
set_option autoImplicit false

/-- The parent is stored, and DELTA is the time since the parent. -/
def TrueDelta (d : Disk) (spec : BlockSpec) : Prop :=
  ∃ parent, getSpec d spec.phash = some parent ∧ spec.delta = spec.ts - parent.ts

section Deltas

variable [Sha512] {g : Byte64} {s : System} {a : Action}

/-- A candidate is created as long after its parent as the parent's timestamp counts, and a network block
comes with its true DELTA. -/
def TimesOk (s : System) : Action → Prop
  | .candidate _ now => ∀ c ∈ s.engine, now - c.tip.ts = c.tip.ts
  | .decode _ spec => ∀ parent ∈ getSpec s.db spec.phash, spec.delta = spec.ts - parent.ts
  | _ => True

/-- The times are in order, and the call does not fail in the engine's `Rebase`. -/
def DeltaOk (s : System) (a : Action) : Prop := RebaseOk s a ∧ TimesOk s a

/-- The stored blocks and the blocks in hand have their true DELTA. -/
structure TrueDeltas (g : Byte64) (s : System) : Prop where
  stored : ∀ h spec, getSpec s.db h = some spec → h ≠ g → TrueDelta s.db spec
  hand : ∀ j b, s.blocks j = some b → TrueDelta s.db b.toBlockSpec

omit [Sha512] in
theorem TrueDelta.mono {d d' : Disk} {spec : BlockSpec} (kept : SpecsKept d d') (delta : TrueDelta d spec) :
    TrueDelta d' spec := by
  obtain ⟨parent, stored, eq⟩ := delta
  exact ⟨parent, kept _ _ stored, eq⟩

omit [Sha512] in
/-- Only parent, timestamp and DELTA matter. -/
theorem TrueDelta.congr {d : Disk} {spec spec' : BlockSpec} (delta : TrueDelta d spec) (phash : spec'.phash = spec.phash)
    (ts : spec'.ts = spec.ts) (same : spec'.delta = spec.delta) : TrueDelta d spec' := by
  unfold TrueDelta
  rw [phash, ts, same]
  exact delta

/-- A decoded block has a stored parent. -/
theorem decoded_parent (ready : SystemReady s) {j : Nat} {spec : BlockSpec} {b' : Block}
    (found : (s.next (.decode j spec)).blocks j = some b') :
    s.blocks j = some b' ∨ (b'.toBlockSpec = spec ∧ ∃ parent, getSpec s.db spec.phash = some parent) := by
  simp only [System.next, System.step] at found
  split at found
  · exact Or.inl found
  · rcases decodeNetworkBlockSpec_cases ready.log spec with
      ⟨b', e, -, eq⟩ | ⟨parent, eq, -, -⟩ | ⟨parent, d', t, miners, valid, rebased, eq⟩
    · rw [eq] at found
      exact Or.inl found
    · rw [eq] at found
      exact Or.inl found
    · rw [eq] at found
      simp only [System.setBlock, Function.update_self, Option.some.injEq] at found
      subst found
      exact Or.inr ⟨rfl, parent, valid.stored⟩

/-- A candidate has the timestamp of its parent for its DELTA. -/
theorem candidate_delta {c : BlockChainConsensus} {now : UInt64} {d' : Disk} {b : Block} (ready : SystemReady s)
    (engine : s.engine = some c) (made : newCandidateBlock c s.db now = (d', some b)) :
    b.ts = now ∧ b.delta = c.tip.ts := by
  obtain ⟨th, hash⟩ := Option.isSome_iff_exists.mp (ready.engine c engine).2
  rcases newCandidateBlock_cases ready.log c now hash with ⟨-, eq⟩ | ⟨d₁, t, miners, rebased, eq⟩
  · rw [made] at eq
    cases eq
  · rw [made] at eq
    cases eq
    have clock : (if now = 0 then now else now) = now := ite_self now
    refine ⟨clock, ?_⟩
    show (if now = 0 then now else now) - (now - c.tip.ts) = c.tip.ts
    rw [clock]
    grind

/-- One call. -/
theorem trueDeltas_next (ready : SystemReady s) (inv : OnTip g s) (dag : Dag s.db g) (deltas : TrueDeltas g s)
    (fine : DeltaOk s a) : TrueDeltas g (s.next a) := by
  have growth := growth_next ready inv fine.1
  have kept := growth.kept
  refine ⟨fun h spec found ne => ?_, fun j b' found => ?_⟩
  · cases growth with
    | same records =>
      rw [records.spec] at found
      exact (deltas.stored h spec found ne).mono kept
    | stored i b child h' parent submits target block body hash fresh valid extended children =>
      rw [extended.spec] at found
      split at found
      · cases found
        obtain ⟨state, nonce, eq⟩ := body
        rw [eq]
        exact ((deltas.hand i b block).congr rfl rfl rfl).mono kept
      · exact (deltas.stored h spec found ne).mono kept
  · refine TrueDelta.mono kept ?_
    cases hand_after ready found with
    | decoded spec call wire network =>
      subst call
      rcases decoded_parent ready found with old | ⟨-, parent, stored⟩
      · exact deltas.hand j b' old
      · rw [wire]
        exact ⟨parent, stored, fine.2 parent stored⟩
    | candidate now c d' call engine made =>
      subst call
      obtain ⟨ts, delta⟩ := candidate_delta ready engine made
      refine ⟨c.tip.toBlockSpec, (inv.candidate ready dag engine made).stored, ?_⟩
      rw [ts, delta, fine.2 c engine]
    | filled b tx block call unknown wire network =>
      rw [wire]
      exact (deltas.hand j b block).congr rfl rfl rfl
    | worked b block same =>
      obtain ⟨state, nonce, eq⟩ := same.wire
      rw [eq]
      exact (deltas.hand j b block).congr rfl rfl rfl

theorem trueDeltas_boot {genesisTime now : UInt64} {minerId : Bytes}
    (started : (System.boot genesisTime now minerId).engine.isSome) :
    TrueDeltas (genesisHash genesisTime now) (System.boot genesisTime now minerId) := by
  rw [(boot_of_started started).2]
  refine ⟨fun h spec found ne => ?_, fun j b found => ?_⟩
  · simp only at found
    rw [bootDisk_getSpec, if_neg ne] at found
    cases found
  · cases found

/-- **The approver sees the true delta.** In every state of a run whose candidates and network blocks get their true
DELTA, every stored block but genesis, and every block in hand, whose DELTA is handed to the approver, has for DELTA
its timestamp less its parent's. -/
theorem stored_delta_true (reached : Reached DeltaOk g s) :
    (∀ h spec, getSpec s.db h = some spec → h ≠ g →
      ∃ parent, getSpec s.db spec.phash = some parent ∧ spec.delta = spec.ts - parent.ts) ∧
    ∀ j b, s.blocks j = some b → ∃ parent, getSpec s.db b.phash = some parent ∧ b.delta = b.ts - parent.ts := by
  have deltas : TrueDeltas g s := by
    refine (reached.invariant (fun s => OnTip g s ∧ Dag s.db g ∧ TrueDeltas g s)
      (fun genesisTime now minerId started genesis => ?_) (fun s a ready inv fine => ?_)).2.2.2
    · subst genesis
      refine ⟨onTip_boot started, ?_, trueDeltas_boot started⟩
      rw [(boot_of_started started).2]
      exact dag_boot genesisTime now
    · obtain ⟨onTip, dag, deltas⟩ := inv
      exact ⟨onTip_next ready onTip fine.1, (growth_next ready onTip fine.1).dag onTip dag,
        trueDeltas_next ready onTip dag deltas fine⟩
  exact ⟨deltas.stored, deltas.hand⟩

end Deltas

section Worked

attribute [local instance] workedSha512

/-- Genesis is at time 1. A candidate is created at time 1 and mined. -/
def Worked.soon : List Action := [.candidate 1 1, .addTransaction 1 Worked.transfer, .mine 1 none [] 1]

/-- No time has passed since genesis, but the DELTA that the approver is asked with, and that is stored, is 1. -/
theorem Worked.soon_delta_wrong :
    let s := (System.boot 1 1 [7]).run Worked.soon
    Reached RebaseOk (genesisHash 1 1) s ∧ digest ownDigest ≠ genesisHash 1 1 ∧
      ∃ spec parent, getSpec s.db (digest ownDigest) = some spec ∧ getSpec s.db spec.phash = some parent ∧
        spec.delta ≠ spec.ts - parent.ts := by
  intro s
  have run : System.Along RebaseOk (System.boot 1 1 [7]) Worked.soon ∧ digest ownDigest ≠ genesisHash 1 1 ∧
      (getSpec s.db (digest ownDigest)).any fun spec : BlockSpec =>
        (getSpec s.db spec.phash).any fun parent : BlockSpec => decide (spec.delta ≠ spec.ts - parent.ts) := by
    decide +kernel
  obtain ⟨fine, proper, found⟩ := run
  obtain ⟨spec, stored, found⟩ := (Option.any_eq_true _ _).mp found
  obtain ⟨parent, storedP, wrong⟩ := (Option.any_eq_true _ _).mp found
  exact ⟨⟨1, 1, [7], Worked.soon, Worked.started, rfl, fine, rfl⟩, proper, spec, parent, stored, storedP,
    of_decide_eq_true wrong⟩

/-- A network block of time 5 on a block of time 2. -/
def Worked.latest : BlockSpec :=
  { Worked.left with phash := digest laterDigest, ts := 5, delta := 3, wt := 2, depth := 2 }

/-- A candidate is created at time 2 and mined, and the network block follows. -/
def Worked.later : List Action := [.candidate 1 2, .mine 1 none [] 1, .decode 0 Worked.latest, .accept 0 [] 1]

theorem Worked.later_reached :
    let s := (System.boot 1 1 [7]).run Worked.later
    Reached DeltaOk (genesisHash 1 1) s ∧
      getSpec s.db (digest latestDigest) = some Worked.latest ∧ digest latestDigest ≠ genesisHash 1 1 := by
  intro s
  have run : System.Along RebaseOk (System.boot 1 1 [7]) Worked.later ∧
      (∀ c ∈ (System.boot 1 1 [7]).engine, 2 - c.tip.ts = c.tip.ts) ∧
      (∀ parent ∈ getSpec (((System.boot 1 1 [7]).next (.candidate 1 2)).next (.mine 1 none [] 1)).db Worked.latest.phash,
        Worked.latest.delta = Worked.latest.ts - parent.ts) ∧
      getSpec s.db (digest latestDigest) = some Worked.latest ∧ digest latestDigest ≠ genesisHash 1 1 := by decide +kernel
  obtain ⟨⟨fine₁, fine₂, fine₃, fine₄, -⟩, soon, late, stored⟩ := run
  exact ⟨⟨1, 1, [7], Worked.later, Worked.started, rfl, ⟨⟨fine₁, soon⟩, ⟨fine₂, trivial⟩, ⟨fine₃, late⟩, ⟨fine₄, trivial⟩,
    trivial⟩, rfl⟩, stored⟩

theorem stored_delta_true_later :
    let s := (System.boot 1 1 [7]).run Worked.later
    ∃ parent, getSpec s.db Worked.latest.phash = some parent ∧ Worked.latest.delta = Worked.latest.ts - parent.ts := by
  intro s
  obtain ⟨reached, stored, proper⟩ := Worked.later_reached
  exact (stored_delta_true reached).1 _ _ stored proper

end Worked

end TrustNet
