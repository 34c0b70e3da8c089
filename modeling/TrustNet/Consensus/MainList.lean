import TrustNet.Consensus.Canonical
import TrustNet.Core.Digests

/-!
# The main list in every run

The canonical chain and the optimality of the fork choice, in all states of all
runs in which the engine could rebase to every block that it made its tip.
-/

namespace TrustNet
set_option autoImplicit false
open ParentTree (Anc)

section Runs

variable [Sha512]

/-- The node is on the branch of the tip that its database names. -/
def OnTip (g : Byte64) (s : System) : Prop :=
  ∃ m, Canonical s.db g m ∧ ∀ c, s.engine = some c → Synced c s.db m

/-- The submitted block was made the tip, and the engine could not rebase to its state. -/
def rebaseFails (s : System) (a : Action) : Bool :=
  a.submits && match (s.step a).2 with
    | some (.error (.core .notFound _)) => true
    | _ => false

/-- The call does not fail in the engine's `Rebase`. -/
def RebaseOk (s : System) (a : Action) : Prop := rebaseFails s a = false

instance (s : System) (a : Action) : Decidable (RebaseOk s a) := inferInstanceAs (Decidable (_ = _))

theorem RebaseOk.outcome {s : System} {a : Action} (fine : RebaseOk s a) (submits : a.submits = true) (msg : String) :
    (s.step a).2 ≠ some (.error (.core .notFound msg)) := by
  intro eq
  simp [RebaseOk, rebaseFails, submits, eq] at fine

section Step

variable {s s' : System} {a : Action} {o : Option Outcome} {g : Byte64}

/-- The canonical database that a submitted block is added to, and the addition. -/
theorem added_canonical {m : Byte64} {c c' : BlockChainConsensus} {b child : Block} {ws₀ ws : MptWorldState}
    {order : List Entry} {inputs : List Bytes} {parent : BlockSpec} {d₁ d' : Disk} {outcome : Outcome} (inv : Canonical s.db g m)
    (synced : Synced c s.db m) (valid : Valid s.db b.toBlockSpec parent)
    (hashed : Hashed s.db b ws₀ order inputs d₁ child ws) (root : child.state = ws.rootHash)
    (result : AddResult c d₁ child c' d' outcome) (fine : ∀ msg, outcome ≠ .error (.core .notFound msg)) :
    ∃ m', Addition c d₁ m child c' d' outcome m' ∧ Canonical d' g m' ∧ Synced c' d' m' := by
  have same := hashed.records
  refine result.canonical (inv.of_records same hashed.persisted.steps.length_le) (synced.of_records same)
    (fun h hash => hashed.putBlock root d₁ hash) ?_ fine
  rw [same.spec, hashed.fields.1, valid.stored]
  rfl

omit [Sha512] in
/-- Calls that leave the records and the engine alone. -/
theorem OnTip.of_records (inv : OnTip g s) (same : SameRecords s.db s'.db) (grow : s.db.log.length ≤ s'.db.log.length)
    (engine : ∀ c, s'.engine = some c → s.engine = some c) : OnTip g s' := by
  obtain ⟨m, canonical, synced⟩ := inv
  exact ⟨m, canonical.of_records same grow, fun c found => (synced c (engine c found)).of_records same⟩

theorem OnTip.stopped (inv : OnTip g s) : OnTip g (System.dead (freshDisk s.db)) := by
  have steps : TrieSteps (fun _ => False) s.db (freshDisk s.db) := freshDisk_steps s.db
  exact inv.of_records (freshDisk_records s.db) steps.length_le fun c found => by simp [System.dead] at found

/-- A restart works on the stored tip. -/
theorem OnTip.restarted {h : Byte64} {spec : BlockSpec} {d' : Disk} {t : MptWorldState} {gn : ChainNode}
    {minerId : Bytes} (inv : OnTip g s) (tip : getDagTip s.db = some h) (found : getSpec s.db h = some spec)
    (rebased : Rebased (freshDisk s.db) spec.state d' t) :
    OnTip g ⟨d', some ⟨t, { spec.toBlock with hash := some h }, spec.wt, gn, minerId⟩, fun _ => none⟩ := by
  obtain ⟨m, canonical, -⟩ := inv
  have steps : TrieSteps (fun _ => False) s.db d' := rebased.fresh_steps
  have same := SameRecords.of_steps steps
  refine ⟨m, canonical.of_records same steps.length_le, fun c engine => ?_⟩
  simp only [Option.some.injEq] at engine
  subst engine
  rw [canonical.tip, Option.some.injEq] at tip
  subst tip
  exact ⟨rfl, (same.spec m).trans found, rfl, rebased.rootHash⟩

/-- A submitted block whose addition does not fail in `Rebase`. -/
theorem OnTip.submitted {i : Nat} {c c' : BlockChainConsensus} {b child : Block} {ws₀ ws : MptWorldState}
    {order : List Entry} {inputs : List Bytes} {parent : BlockSpec} {d₁ d' : Disk} {outcome : Outcome}
    (inv : OnTip g s) (engine : s.engine = some c) (valid : Valid s.db b.toBlockSpec parent)
    (hashed : Hashed s.db b ws₀ order inputs d₁ child ws) (root : child.state = ws.rootHash)
    (result : AddResult c d₁ child c' d' outcome) (fine : ∀ msg, outcome ≠ .error (.core .notFound msg)) :
    OnTip g (s.submitted i c' d' child outcome).1 := by
  obtain ⟨m, canonical, synced⟩ := inv
  obtain ⟨m', -, canonical', synced'⟩ := added_canonical canonical (synced c engine) valid hashed root result fine
  refine ⟨m', by rw [submitted_db]; exact canonical', fun c'' found => ?_⟩
  obtain ⟨rfl, -⟩ := submitted_engine found
  rw [submitted_db]
  exact synced'

theorem StepResult.onTip (result : StepResult s a s' o) (inv : OnTip g s)
    (fine : a.submits = true → ∀ msg, o ≠ some (.error (.core .notFound msg))) : OnTip g s' := by
  cases result with
  | quiet s' o steps engine blocks contents =>
    exact inv.of_records (SameRecords.of_steps steps) steps.length_le fun c found => engine ▸ found
  | added i c c' b child ws₀ ws order parent d₁ d' outcome submits target engine block state cleaned valid hashed root
      result =>
    exact inv.submitted engine valid hashed root result fun msg eq => fine submits msg (by rw [eq])
  | stopped => exact inv.stopped
  | restarted h spec d' t gn minerId restarts tip found rebased => exact inv.restarted tip found rebased

theorem onTip_next (ready : SystemReady s) (inv : OnTip g s) (fine : RebaseOk s a) : OnTip g (s.next a) :=
  (step_result ready a).onTip inv fine.outcome

end Step

/-! ## The first state -/

variable {genesisTime now : UInt64} {minerId : Bytes}

theorem bootDisk_parentOf (h : Byte64) :
    parentOf (bootDisk genesisTime now) (genesisHash genesisTime now) h = none := by
  unfold parentOf
  split
  · rfl
  · rename_i ne
    rw [bootDisk_getChainNode, if_neg ne]
    rfl

theorem bootDisk_anc {a b : Byte64} :
    Anc (parentOf (bootDisk genesisTime now) (genesisHash genesisTime now)) a b ↔ a = b := by
  refine ⟨fun up => ?_, fun eq => eq ▸ Anc.refl⟩
  rcases up.cases_head with eq | ⟨p, edge, -⟩
  · exact eq
  · rw [bootDisk_parentOf] at edge
    cases edge

theorem bootDisk_chain : ChainInv (bootDisk genesisTime now) (genesisHash genesisTime now) (genesisHash genesisTime now) := by
  have found : ∀ {h n}, getChainNode (bootDisk genesisTime now) h = some n →
      h = genesisHash genesisTime now ∧ n = genesisNode genesisTime now := by
    intro h n found
    rw [bootDisk_getChainNode] at found
    split at found
    · rename_i eq
      exact ⟨eq, (Option.some.inj found).symm⟩
    · cases found
  have genesis : (getChainNode (bootDisk genesisTime now) (genesisHash genesisTime now)).isSome := by
    rw [bootDisk_getChainNode, if_pos rfl]
    rfl
  refine ⟨⟨?_, genesis, ?_, ?_, ?_⟩, genesis, fun h => ?_⟩
  · intro h n stored
    obtain ⟨rfl, rfl⟩ := found stored
    rfl
  · intro h n stored ne
    exact absurd (found stored).1 ne
  · intro p pn c cn storedP listed
    obtain ⟨rfl, rfl⟩ := found storedP
    cases listed
  · refine ⟨fun _ => 0, fun a b edge => ?_, fun h _ => ?_⟩
    · rw [bootDisk_parentOf] at edge
      cases edge
    · simp [bootDisk, initDisk, WriteLog.write]
  · rw [bootDisk_anc]
    constructor
    · rintro ⟨n, stored, -⟩
      exact (found stored).1.symm
    · rintro rfl
      exact ⟨_, by rw [bootDisk_getChainNode, if_pos rfl], rfl⟩

theorem onTip_boot (started : (System.boot genesisTime now minerId).engine.isSome) :
    OnTip (genesisHash genesisTime now) (System.boot genesisTime now minerId) := by
  rw [(boot_of_started started).2]
  have spec := bootDisk_getSpec genesisTime now
  have accepted := bootDisk_acceptedBlocks genesisTime now
  refine ⟨genesisHash genesisTime now, ⟨bootDisk_chain, ?_, bootDisk_getDagTip genesisTime now, ?_, ?_, ?_⟩, ?_⟩
  · intro p pn h found listed
    rw [bootDisk_getChainNode] at found
    split at found
    · cases found
      cases listed
    · cases found
  · intro h
    rw [nodeHeader, bootDisk_getChainNode, spec]
    split
    · rfl
    · rfl
  · intro b member
    rw [accepted, List.mem_singleton] at member
    rw [member, spec, if_pos rfl]
  · intro tip found
    rw [spec, if_pos rfl] at found
    cases found
    rw [accepted]
    exact List.argmin_singleton
  · intro c engine
    simp only [Option.some.injEq] at engine
    subst engine
    exact ⟨rfl, by rw [spec, if_pos rfl], rfl, rfl⟩

/-- Every state of a run without a failing `Rebase`. -/
theorem Reached.onTip {g : Byte64} {s : System} (reached : Reached RebaseOk g s) : OnTip g s :=
  (reached.invariant (OnTip g) (fun _ _ _ started genesis => genesis ▸ onTip_boot started)
    (fun _ _ ready inv fine => onTip_next ready inv fine)).2

end Runs

/-! ## A worked run -/

namespace Worked

attribute [local instance] workedSha512

/-- A child of genesis without transactions. -/
def left : BlockSpec :=
  { phash := digest genesisDigest, miner := [1], state := digest emptyDigest, txs := [], ts := 1, delta := 1,
    depth := 1, wt := 1, uncles := [], nonce := 0 }

/-- A rival of `left`. -/
def right : BlockSpec := { left with miner := [2], nonce := 237 }

/-- A child of `right`. -/
def rightChild : BlockSpec := { right with phash := digest rightDigest, depth := 2, wt := 2, nonce := 0 }

/-- The main list moves from `left` to the branch of `rightChild`, and the node restarts. -/
def reorganise : List Action :=
  [.decode 0 left, .accept 0 [] 1, .decode 0 right, .accept 0 [] 1, .decode 0 rightChild, .accept 0 [] 1,
    .restart 1 1 [7]]

theorem started : (System.boot 1 1 [7]).engine.isSome = true := by decide +kernel

theorem reorganise_fine : System.Along RebaseOk (System.boot 1 1 [7]) reorganise ∧
    ((System.boot 1 1 [7]).run reorganise).engine.isSome = true := by decide +kernel

theorem reorganise_reached :
    Reached RebaseOk (genesisHash 1 1) ((System.boot 1 1 [7]).run reorganise) ∧
      ∃ c, ((System.boot 1 1 [7]).run reorganise).engine = some c :=
  ⟨⟨1, 1, [7], reorganise, started, rfl, reorganise_fine.1, rfl⟩, Option.isSome_iff_exists.mp reorganise_fine.2⟩

end Worked

/-! ## The main list and the fork choice -/

section Canonical

variable [Sha512] {g : Byte64} {s : System} {c : BlockChainConsensus}

/-- **The canonical chain.** In every state of every run the main list is the branch of the tip, down
to genesis, and each of its nodes but the tip lists exactly one child that is on it. -/
theorem mainList_eq_branch_of_tip (reached : Reached RebaseOk g s) (engine : s.engine = some c) :
    ∃ tip, c.tip.hash = some tip ∧ Anc (parentOf s.db g) tip g ∧
      (∀ h, Flagged s.db h ↔ Anc (parentOf s.db g) tip h) ∧
      ∀ h n, getChainNode s.db h = some n → Flagged s.db h → h ≠ tip → ∃! k, k ∈ n.children ∧ Flagged s.db k := by
  obtain ⟨m, canonical, synced⟩ := reached.onTip
  have chain := canonical.chain
  exact ⟨m, (synced c engine).hash, chain.tree.anc_genesis chain.main.1, chain.main.2,
    fun h n found flagged ne => chain.existsUnique_child found flagged ne⟩

end Canonical

section Worked

attribute [local instance] workedSha512

theorem mainList_eq_branch_of_tip_reorganise :
    let s := (System.boot 1 1 [7]).run Worked.reorganise
    ∃ c, s.engine = some c ∧ ∃ tip, c.tip.hash = some tip ∧ Anc (parentOf s.db (genesisHash 1 1)) tip (genesisHash 1 1) ∧
      (∀ h, Flagged s.db h ↔ Anc (parentOf s.db (genesisHash 1 1)) tip h) ∧
      ∀ h n, getChainNode s.db h = some n → Flagged s.db h → h ≠ tip → ∃! k, k ∈ n.children ∧ Flagged s.db k := by
  obtain ⟨reached, c, engine⟩ := Worked.reorganise_reached
  exact ⟨c, engine, mainList_eq_branch_of_tip reached engine⟩

end Worked

section ForkChoice

variable [Sha512] {g : Byte64} {s : System} {c : BlockChainConsensus}

/-- **The fork choice is optimal.** The engine works on the stored tip, and no stored block is heavier,
or as heavy with a smaller `Numeric`. -/
theorem tip_is_best (reached : Reached RebaseOk g s) (engine : s.engine = some c) :
    c.weight = c.tip.wt ∧ (∃ tip, c.tip.hash = some tip ∧ getDagTip s.db = some tip) ∧
      c.state.rootHash = c.tip.state ∧ ∀ h spec, getSpec s.db h = some spec →
        spec.wt < c.tip.wt ∨ (spec.wt = c.tip.wt ∧ c.tip.numeric ≤ numeric h) := by
  obtain ⟨m, canonical, synced⟩ := reached.onTip
  obtain ⟨hash, spec, weight, root⟩ := synced c engine
  refine ⟨weight, ⟨m, hash, canonical.tip⟩, root, fun h b found => ?_⟩
  have best := forkRank_le.mp (canonical.best spec found)
  simpa [Block.numeric, hash] using best

end ForkChoice

section Worked

attribute [local instance] workedSha512

theorem tip_is_best_reorganise :
    let s := (System.boot 1 1 [7]).run Worked.reorganise
    ∃ c, s.engine = some c ∧ c.weight = c.tip.wt ∧ (∃ tip, c.tip.hash = some tip ∧ getDagTip s.db = some tip) ∧
      c.state.rootHash = c.tip.state ∧ ∀ h spec, getSpec s.db h = some spec →
        spec.wt < c.tip.wt ∨ (spec.wt = c.tip.wt ∧ c.tip.numeric ≤ numeric h) := by
  obtain ⟨reached, c, engine⟩ := Worked.reorganise_reached
  exact ⟨c, engine, tip_is_best reached engine⟩

end Worked

end TrustNet
