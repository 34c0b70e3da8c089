import TrustNet.Consensus.InHand
import TrustNet.Consensus.Uncles

/-!
# The weight of a block

A block weighs one more than its parent, and one more for every uncle that it lists.
The validator checks each uncle for itself: it does not see that one comes twice. The
finder lists every uncle once, so in runs in which the network brings no block that
repeats an uncle, the weight counts different uncles.
-/

namespace TrustNet
set_option autoImplicit false

/-! ## A block that lists an uncle twice -/

namespace Worked

attribute [local instance] workedSha512

/-- A child of `left` that lists `right` twice. -/
def padded : BlockSpec :=
  { left with phash := digest leftDigest, depth := 2, wt := 4, uncles := [digest rightDigest, digest rightDigest] }

/-- The block is accepted after its uncle. -/
def pad : List Action := leftFirst ++ [.decode 0 padded, .accept 0 [] 1]

theorem padded_accepted :
    let s := (System.boot 1 1 [7]).run pad
    Reached RebaseOk (genesisHash 1 1) s ∧ getSpec s.db (digest paddedDigest) = some padded ∧
      getSpec s.db padded.phash = some left ∧ ¬ padded.uncles.Nodup ∧
      padded.wt ≠ left.wt + 1 + UInt64.ofNat padded.uncles.dedup.length := by
  have run : let s := (System.boot 1 1 [7]).run pad
      System.Along RebaseOk (System.boot 1 1 [7]) pad ∧ getSpec s.db (digest paddedDigest) = some padded ∧
        getSpec s.db padded.phash = some left ∧ ¬ padded.uncles.Nodup ∧
        padded.wt ≠ left.wt + 1 + UInt64.ofNat padded.uncles.dedup.length := by decide +kernel
  obtain ⟨fine, rest⟩ := run
  exact ⟨⟨1, 1, [7], pad, started, rfl, fine, rfl⟩, rest⟩

end Worked

/-! ## Blocks without a repetition -/

section Runs

variable [Sha512] {g : Byte64} {s : System}

/-- The network block that a call decodes. -/
def Action.decoded : Action → Option BlockSpec
  | .decode _ spec => some spec
  | _ => none

/-- The call does not fail in the engine's `Rebase`, and a network block that it decodes lists no uncle twice. -/
def UnclesOnce (s : System) (a : Action) : Prop := RebaseOk s a ∧ ∀ spec ∈ a.decoded, spec.uncles.Nodup

instance (s : System) (a : Action) : Decidable (UnclesOnce s a) := inferInstanceAs (Decidable (_ ∧ _))

/-- No block repeats an uncle, whether stored or in hand. -/
structure DistinctUncles (g : Byte64) (s : System) : Prop where
  onTip : OnTip g s
  dag : Dag s.db g
  stored : ∀ {h spec}, getSpec s.db h = some spec → h ≠ g → spec.uncles.Nodup
  blocks : ∀ {j b}, s.blocks j = some b → b.uncles.Nodup

theorem DistinctUncles.next {a : Action} (ready : SystemReady s) (inv : DistinctUncles g s) (step : UnclesOnce s a) :
    DistinctUncles g (s.next a) := by
  have growth := growth_next ready inv.onTip step.1
  refine ⟨onTip_next ready inv.onTip step.1, growth.dag inv.onTip inv.dag, fun {h spec} found ne => ?_,
    fun {j b'} found => ?_⟩
  · cases growth with
    | same records =>
      rw [records.spec] at found
      exact inv.stored found ne
    | stored i b child h' parent submits target block body hash fresh valid extended children =>
      rw [extended.spec] at found
      split at found
      · obtain ⟨state, nonce, eq⟩ := body
        rw [Option.some.injEq, eq] at found
        rw [← found]
        exact inv.blocks block
      · exact inv.stored found ne
  · cases hand_after ready found with
    | decoded spec call wire network =>
      rw [wire]
      exact step.2 spec (by rw [call]; rfl)
    | candidate now c d' call engine made => exact (inv.onTip.candidate ready inv.dag engine made).once
    | filled b tx block call unknown wire network =>
      rw [wire]
      exact inv.blocks block
    | worked b block same =>
      obtain ⟨state, nonce, wire⟩ := same.wire
      rw [wire]
      exact inv.blocks block

theorem Reached.distinctUncles (reached : Reached UnclesOnce g s) : DistinctUncles g s := by
  refine (reached.invariant (DistinctUncles g) (fun genesisTime now minerId started genesis => ?_)
    (fun s a ready inv step => inv.next ready step)).2
  have booted := (boot_of_started started).2
  refine ⟨genesis ▸ onTip_boot started, ?_, fun {h spec} found ne => ?_, fun {j b} found => ?_⟩
  · rw [booted, ← genesis]
    exact dag_boot genesisTime now
  · rw [booted, bootDisk_getSpec, genesis, if_neg ne] at found
    cases found
  · rw [booted] at found
    cases found

/-- **The weight counts different uncles**, in every run in which no decoded block repeats one. -/
theorem weight_counts_distinct_uncles (reached : Reached UnclesOnce g s) {h : Byte64} {spec : BlockSpec}
    (found : getSpec s.db h = some spec) (ne : h ≠ g) :
    ∃ parent, getSpec s.db spec.phash = some parent ∧ spec.uncles.Nodup ∧
      spec.wt = parent.wt + 1 + UInt64.ofNat spec.uncles.dedup.length := by
  have inv := reached.distinctUncles
  obtain ⟨parent, stored, -, weight⟩ := (inv.dag.follows found ne).parent
  have once := inv.stored found ne
  exact ⟨parent, stored, once, by rw [once.dedup]; exact weight⟩

end Runs

section Worked

attribute [local instance] workedSha512

theorem weight_counts_distinct_uncles_joined :
    let s := (System.boot 1 1 [7]).run Worked.joined
    getSpec s.db (digest nephewDigest) = some Worked.nephew ∧ Worked.nephew.uncles = [digest rightDigest] ∧
      ∃ parent, getSpec s.db Worked.nephew.phash = some parent ∧ Worked.nephew.uncles.Nodup ∧
        Worked.nephew.wt = parent.wt + 1 + UInt64.ofNat Worked.nephew.uncles.dedup.length := by
  intro s
  have run : getSpec s.db (digest nephewDigest) = some Worked.nephew ∧ digest nephewDigest ≠ genesisHash 1 1 ∧
      System.Along UnclesOnce (System.boot 1 1 [7]) Worked.joined := by decide +kernel
  obtain ⟨found, ne, along⟩ := run
  have reached : Reached UnclesOnce (genesisHash 1 1) s := ⟨1, 1, [7], Worked.joined, Worked.started, rfl, along, rfl⟩
  exact ⟨found, rfl, weight_counts_distinct_uncles reached found ne⟩

end Worked

end TrustNet
