import TrustNet.Consensus.Availability

/-!
# Crashes and restarts

A crash leaves a prefix of the writes of the call that was interrupted
(`WriteLog.Between`). A restart recovers from it unless the crash came after
the tip record of a new block and before the block's chain node: then the
engine comes up with a tip that has no chain node. The same holds for the very
first start, where the tip record is written before genesis.
-/

namespace TrustNet
set_option autoImplicit false
open WriteLog (WritesOnly Wrote Between)
open ParentTree (Anc)

/-- The node and its ancestors, down to genesis, are on the main list. -/
def Connected (d : Disk) (g tip : Byte64) : Prop :=
  Anc (parentOf d g) tip g ∧ ∀ h, Anc (parentOf d g) tip h → Flagged d h

/-- If the tip record was written, so was the chain node it names. -/
def TipWithNode (d d' : Disk) : Prop :=
  ∀ h, Wrote d d' (.dagTip, some (.hash h)) → ∃ n, Wrote d d' (.chainNode h, some (.chainNode n))

section Connected

variable {d d' : Disk} {g tip m : Byte64}

theorem ChainInv.connected (inv : ChainInv d g m) : Connected d g m :=
  ⟨inv.tree.anc_genesis inv.main.1, fun h => (inv.main.2 h).mpr⟩

/-- The branch of the tip is all that matters. -/
theorem Connected.of_agree (connected : Connected d g tip)
    (agree : ∀ h, Anc (parentOf d g) tip h → getChainNode d' h = getChainNode d h) : Connected d' g tip := by
  have same : ∀ {h}, Anc (parentOf d' g) tip h ↔ Anc (parentOf d g) tip h := by
    intro h
    refine Anc.congr (S := fun q => Anc (parentOf d g) tip q) (fun y up z edge => up.trans (Anc.single edge)) ?_ Anc.refl
    intro y up
    unfold parentOf
    rw [agree y up]
  refine ⟨same.mpr connected.1, fun h up => ?_⟩
  obtain ⟨n, found, mark⟩ := connected.2 h (same.mp up)
  exact ⟨n, (agree h (same.mp up)).trans found, mark⟩

end Connected

section Recovery

variable [Sha512] {d d' : Disk} {g tip : Byte64}

/-- The valid children of the tip are decoded, and a hashed child is added if it is new, its
transactions are new and its world state is there. -/
structure AcceptsChildren (c : BlockChainConsensus) (d : Disk) (tip : Byte64) : Prop where
  decoded : ∀ spec parent, spec.phash = tip → Valid d spec parent → ∃ d' b, decodeNetworkBlockSpec d spec = (d', .ok b)
  added : ∀ child h, child.phash = tip → child.hash = some h → getChainNode d h = none →
    child.txs.any (isDuplicateTx d child) = false → child.worldState.isSome → Available d child.state →
    (addValidatedBlock c d child tip).2.2 = .ok

/-- A restart with the same genesis succeeds; the tip of the engine is on the main list with all its
ancestors, and its valid children are accepted. -/
def Recoverable (g : Byte64) (d : Disk) : Prop :=
  ∀ genesisTime now minerId, genesisHash genesisTime now = g →
    let s := (System.restart d genesisTime now minerId).1
    ∃ c tip, s.engine = some c ∧ c.tip.hash = some tip ∧ Connected s.db g tip ∧ AcceptsChildren c s.db tip

theorem switchMainList_of_flagged (d : Disk) (n : ChainNode) {pn : ChainNode} (mark : pn.isMainList = true) :
    (switchMainList d n pn).2 = .ok := by
  unfold switchMainList
  simp only [setMainListUp, mark, if_true]

/-- A flagged tip whose state is there accepts its children. -/
theorem acceptsChildren_of_flagged {c : BlockChainConsensus} (log : TrieLog d) (ready : c.state.Ready)
    (states : ∀ spec, getSpec d tip = some spec → Available d spec.state) (flagged : Flagged d tip) :
    AcceptsChildren c d tip := by
  refine ⟨fun spec parent child valid => ?_, fun child h parent hash fresh clean hasState available => ?_⟩
  · subst child
    obtain ⟨d', t, miners, -, eq⟩ := decodeNetworkBlockSpec_of_valid log valid (states parent valid.stored)
    exact ⟨d', _, eq⟩
  · subst parent
    obtain ⟨pn, found, mark⟩ := flagged
    have result := addValidatedBlock_result child log ready hasState
    generalize addValidatedBlock c d child child.phash = ends at result
    obtain ⟨c', d', outcome⟩ := ends
    simp only at result ⊢
    have fine := result.rebase_ok available
    cases result with
    | unhashed none' => rw [none'] at hash; cases hash
    | duplicateBlock h' hash' stored =>
      rw [hash] at hash'
      cases hash'
      rw [fresh] at stored
      cases stored
    | duplicateTx h' hash' fresh' duplicate => rw [clean] at duplicate; cases duplicate
    | noParent h' hash' fresh' missing => rw [found] at missing; cases missing
    | side h' pn' admitted lighter => rfl
    | rebaseFailed h' pn' msg admitted better missing => exact absurd rfl (fine msg)
    | moved h' pn' d₁ _ state _ admitted better rebased switched =>
      have same := admitted.parent
      rw [found] at same
      cases same
      have listed : (pn.addChild h').isMainList = true := mark
      have ok := switchMainList_of_flagged (registerTransactions d₁ h' child.txs).1 (newChainNode child.toBlockSpec h')
        listed
      rw [switched] at ok
      exact ok

/-- A database with a tip that has its block, its state and its branch. -/
theorem recoverable_of_connected {spec : BlockSpec} (log : TrieLog d) (dagTip : getDagTip d = some tip)
    (found : getSpec d tip = some spec) (available : Available d spec.state) (proper : spec.state ≠ null)
    (connected : Connected d g tip) : Recoverable g d := by
  intro genesisTime now minerId _
  have steps : TrieSteps (fun _ => False) d (freshDisk d) := freshDisk_steps d
  rcases restart_cases log dagTip genesisTime now minerId with ⟨e, -, missing⟩ | ⟨spec', d', t, found', rebased, eq⟩
  · exact absurd (available.steps log steps not_false) (missing spec found)
  · rw [found, Option.some.injEq] at found'
    subst found'
    have steps' : TrieSteps (fun _ => False) d d' := rebased.fresh_steps
    have after : Connected d' g tip := connected.of_agree fun h _ => (SameRecords.of_steps steps').chainNode h
    rw [eq]
    refine ⟨_, tip, rfl, rfl, after,
      acceptsChildren_of_flagged (log.steps steps') (rebased.ready proper) (fun other stored => ?_) (after.2 tip Anc.refl)⟩
    rw [(SameRecords.of_steps steps').spec, found, Option.some.injEq] at stored
    subst stored
    exact available.steps log steps' not_false

/-- A tip record that names no chain node. -/
theorem not_recoverable_of_missing {genesisTime now : UInt64} (log : TrieLog d) (dagTip : getDagTip d = some tip)
    (missing : getChainNode d tip = none) : ¬ Recoverable (genesisHash genesisTime now) d := by
  intro recovered
  obtain ⟨c, tip', engine, hash, connected, -⟩ := recovered genesisTime now [] rfl
  rcases restart_cases log dagTip genesisTime now [] with ⟨e, eq, -⟩ | ⟨spec, d', t, -, rebased, eq⟩
  · rw [eq] at engine
    cases engine
  · rw [eq] at engine connected
    cases engine
    cases hash
    have steps : TrieSteps (fun _ => False) d d' := rebased.fresh_steps
    obtain ⟨n, found, -⟩ := connected.2 tip Anc.refl
    rw [(SameRecords.of_steps steps).chainNode, missing] at found
    cases found

end Recovery

/-! ## The crash points of an addition -/

theorem tipWithNode_of_writes {P : Key × Option Value → Prop} {d d' : Disk} (writes : WritesOnly P d d')
    (noTip : ∀ v, ¬ P (.dagTip, v)) : TipWithNode d d' :=
  fun _ wrote => absurd (writes.of_wrote wrote) (noTip _)

/-- Trie writes before the crash do not matter for the order of tip record and node. -/
theorem tipWithNode_after [Sha512] {cleaned : Byte64 → Prop} {d d₁ e : Disk} (steps : TrieSteps cleaned d d₁)
    (cut : d₁.log <:+ e.log) : TipWithNode d e ↔ TipWithNode d₁ e := by
  have same : ∀ {w : Key × Option Value}, w.1.isTrie = false → (Wrote d e w ↔ Wrote d₁ e w) := by
    intro w other
    refine ⟨fun wrote => (wrote.cases steps cut).resolve_left fun write => ?_, fun wrote => wrote.before steps⟩
    rw [write.isTrie] at other
    cases other
  unfold TipWithNode
  refine forall_congr' fun h => ?_
  rw [same rfl]
  exact imp_congr Iff.rfl (exists_congr fun n => same rfl)

section Addition

variable [Sha512] {d d' d₁ d₂ e : Disk} {g m h : Byte64} {child : Block} {pn qn last : ChainNode} {state : MptWorldState}

/-- Up to the link in the parent's node, the tree and the main list are as before. -/
theorem ChainInv.before_tip (inv : ChainInv d g m) (admitted : Admitted d child h pn)
    (stored : (putBlock d child).1 = d.write (.block h) (some (.block child.toBlockSpec)))
    (cut : Between d (linkParent d child h pn) e) : ChainInv e g m := by
  rcases cut.write with first | rfl
  · rw [stored] at first
    rcases first.write with none' | rfl
    · rw [none'.eq_self]
      exact inv
    · rw [← stored]
      exact inv.of_nodes (putBlock_nodes d admitted.hash) (putBlock_writes d child admitted.hash).length_le
  · exact linkParent_inv inv admitted

/-- The writes between the tip record and the node of the new tip. -/
theorem Switched.before_node (inv : ChainInv d g m) (admitted : Admitted d child h pn)
    (rebased : Rebased (moveDagTip d child h pn) child.state d₁ state) {x : ChainNode}
    (switched : Switched g m (registerTransactions d₁ h child.txs).1 x (pn.addChild h) d₂ d' qn last) :
    WritesOnly (fun w => w.1 ≠ .dagTip ∧ w.1 ≠ .chainNode h) (moveDagTip d child h pn) d₂ := by
  have nodes := registered_nodes rebased
  have before := (linkParent_inv inv admitted).of_nodes nodes (registered_length rebased)
  have parent : (pn.addChild h).hash = child.phash := id (admitted.parent_hash inv : pn.hash = child.phash)
  refine (rebased.steps.mono ?_).trans
    (((registerTransactions_writes d₁ h child.txs).2.1.mono ?_).trans (switched.up.writes.mono ?_))
  · rintro ⟨k, v⟩ write
    have trie := write.isTrie
    constructor <;> rintro rfl <;> cases trie
  · rintro w ⟨tx, -, rfl⟩
    simp
  · rintro w ⟨q, up, -, -, ⟨n, rfl⟩ | ⟨spec, tx, -, -, rfl⟩⟩
    · -- The walk marks stored nodes, and `h` is not stored yet.
      refine ⟨by simp, fun eq => ?_⟩
      have storedQ := before.tree.anc_stored (by rw [nodes, parent, linkParent_parent inv admitted]; rfl) up
      rw [Key.chainNode.inj eq, nodes, linkParent_fresh inv admitted] at storedQ
      cases storedQ
    · simp

/-- A canonical database whose tip has its state, and a block whose state is there. -/
structure AddReady (d : Disk) (g m : Byte64) (child : Block) : Prop where
  log : TrieLog d
  inv : Canonical d g m
  tip : ∀ spec, getSpec d m = some spec → Available d spec.state ∧ spec.state ≠ null
  parent : (getSpec d child.phash).isSome
  stored : ∀ h, child.hash = some h → (putBlock d child).1 = d.write (.block h) (some (.block child.toBlockSpec))
  state : Available d child.state ∧ child.state ≠ null

/-- As long as tip record and main list are the old ones, a restart works on the old tip. -/
theorem AddReady.recoverable_old (ready : AddReady d g m child) (writes : WritesOnly (AddWrite child) d e)
    (log : TrieLog e) (chain : ChainInv e g m) (dagTip : getDagTip e = getDagTip d) (spec : getSpec e m = getSpec d m) :
    Recoverable g e := by
  obtain ⟨tip, found⟩ := ready.inv.tip_stored
  obtain ⟨available, proper⟩ := ready.tip tip found
  exact recoverable_of_connected log (dagTip.trans ready.inv.tip) (spec.trans found)
    (available.addWrites ready.log log writes) proper chain.connected

theorem AddReady.fresh_ne_tip (ready : AddReady d g m child) (admitted : Admitted d child h pn) : m ≠ h := by
  intro eq
  have found := ready.inv.chain.main.1
  rw [eq, admitted.fresh] at found
  cases found

/-- A crash before the tip record is written. -/
theorem AddReady.crash_before_tip (ready : AddReady d g m child) (admitted : Admitted d child h pn)
    (cut : Between d (linkParent d child h pn) e) : Recoverable g e ∧ TipWithNode d e := by
  have writes := cut.writesOnly (linkParent_writes d child pn admitted.hash)
  have writes' := cut.writesOnly (linkParent_addWrites admitted.hash)
  have log : TrieLog e := ready.log.writes writes (by
    rintro w (rfl | rfl) trie
    · cases trie
    · cases trie)
  refine ⟨ready.recoverable_old writes' log ?_ (getDagTip_of_writes writes (by simp)) ?_,
    tipWithNode_of_writes writes (by simp)⟩
  · exact ready.inv.chain.before_tip admitted (ready.stored h admitted.hash) cut
  · refine getSpec_of_writes writes ?_
    rintro v (eq | eq)
    · exact ready.fresh_ne_tip admitted (Key.block.inj (congrArg Prod.fst eq))
    · cases eq

/-- A crash between the tip record and the node of the new tip. -/
theorem Switched.crash_before_node {genesisTime now : UInt64} (inv : ChainInv d (genesisHash genesisTime now) m)
    (admitted : Admitted d child h pn) (rebased : Rebased (moveDagTip d child h pn) child.state d₁ state) {x : ChainNode}
    (switched : Switched (genesisHash genesisTime now) m (registerTransactions d₁ h child.txs).1 x (pn.addChild h) d₂ d'
      qn last)
    (log : TrieLog e) (cut : Between (moveDagTip d child h pn) d₂ e) :
    ¬ Recoverable (genesisHash genesisTime now) e ∧ ¬ TipWithNode d e := by
  have writes := cut.writesOnly (switched.before_node inv admitted rebased)
  have dagTip : getDagTip e = some h :=
    (getDagTip_of_writes writes fun _ hit => hit.1 rfl).trans (getDagTip_write_self _ _)
  have missing : getChainNode e h = none := by
    rw [getChainNode_of_writes writes fun _ hit => hit.2 rfl, moveDagTip_nodes]
    exact linkParent_fresh inv admitted
  refine ⟨not_recoverable_of_missing log dagTip missing, fun paired => ?_⟩
  have linked := linkParent_writes d child pn admitted.hash
  have tip : Wrote d e (.dagTip, some (.hash h)) :=
    ((Wrote.write (linkParent d child h pn) .dagTip (some (.hash h))).before linked).after writes
  obtain ⟨n, node⟩ := paired h tip
  have other : pn.hash ≠ h := by
    intro eq
    have found := admitted.parent
    rw [← admitted.parent_hash inv, eq, admitted.fresh] at found
    cases found
  rcases node.cases (moveDagTip_writes d child pn admitted.hash) cut.1 with (eq | eq | eq) | later
  · cases eq
  · exact other (Key.chainNode.inj (congrArg Prod.fst eq)).symm
  · cases eq
  · exact (writes.of_wrote later).2 rfl

/-- A crash after the node of the new tip was written. -/
theorem AddReady.crash_after_node (ready : AddReady d g m child) (admitted : Admitted d child h pn)
    (rebased : Rebased (moveDagTip d child h pn) child.state d₁ state)
    (switched : Switched g m (registerTransactions d₁ h child.txs).1 ((newChainNode child.toBlockSpec h).setMainList true)
      (pn.addChild h) d₂ d' qn last)
    (log : TrieLog e) (writes : WritesOnly (AddWrite child) d e)
    (cut : Between (d₂.write (.chainNode h) (some (.chainNode ((newChainNode child.toBlockSpec h).setMainList true)))) d' e) :
    Recoverable g e ∧ TipWithNode d e := by
  have rest := cut.rest switched.down
  have inv := ready.inv.chain
  have extended := moved_extended inv admitted (ready.stored h admitted.hash) rebased switched
  have dagTip : getDagTip e = some h := by
    rw [← moved_dagTip rebased switched]
    exact (getDagTip_of_writes rest (by rintro v ⟨k, n, eq, -⟩; cases eq)).symm
  have spec : getSpec e h = some child.toBlockSpec := by
    rw [← getSpec_of_writes rest (by rintro v ⟨k, n, eq, -⟩; cases eq), extended.spec, if_pos rfl]
  have main : ChainInv d' g h := ⟨switched.tree, switched.main⟩
  -- What is left of the walk down is off the branch of the new tip.
  have connected : Connected e g h := main.connected.of_agree fun q up => by
    refine (getChainNode_of_writes rest ?_).symm
    rintro v ⟨k, n, eq, off⟩
    rw [← Key.chainNode.inj (congrArg Prod.fst eq)] at off
    exact off up
  refine ⟨recoverable_of_connected log dagTip spec (ready.state.1.addWrites ready.log log writes) ready.state.2 connected,
    fun h' wrote => ?_⟩
  have first := moveDagTip_writes d child pn admitted.hash
  have second := switched.before_node inv admitted rebased
  have node := Wrote.write d₂ (.chainNode h) (some (.chainNode ((newChainNode child.toBlockSpec h).setMainList true)))
  have done := cut.writesOnly switched.down
  have same : h' = h := by
    have middle : (moveDagTip d child h pn).log <:+ e.log := (second.suffix.trans (List.suffix_cons _ _)).trans cut.1
    rcases wrote.cases first middle with (eq | eq | eq) | later
    · cases eq
    · cases eq
    · exact (Value.hash.inj (Option.some.inj (congrArg Prod.snd eq)))
    · rcases later.cases second ((List.suffix_cons _ _).trans cut.1) with hit | later
      · exact absurd rfl hit.1
      · rcases later.cases (WritesOnly.write (P := fun w => w.1 = .chainNode h) rfl d₂) cut.1 with eq | later
        · cases eq
        · obtain ⟨k, n, eq, -⟩ := done.of_wrote later
          cases eq
  subst same
  exact ⟨_, ((node.after done).before second).before first⟩

/-- **The crash points of an addition.** -/
theorem AddResult.crash {c c' : BlockChainConsensus} {outcome : Outcome} {genesisTime now : UInt64}
    (result : AddResult c d child c' d' outcome) (ready : AddReady d (genesisHash genesisTime now) m child)
    (cut : Between d d' e) : Recoverable (genesisHash genesisTime now) e ↔ TipWithNode d e := by
  have log : TrieLog e := (result.trieLog ready.log).of_suffix cut.2
  have writes := cut.writesOnly result.writes
  have idle : Between d d e → (Recoverable (genesisHash genesisTime now) e ↔ TipWithNode d e) := by
    intro none'
    cases none'.eq_self
    exact iff_of_true (ready.recoverable_old (WritesOnly.refl d) ready.log ready.inv.chain rfl rfl)
      (tipWithNode_of_writes (WritesOnly.refl (P := fun _ => False) d) fun _ => id)
  have fine := result.rebase_ok ready.state.1
  cases result with
  | unhashed hash => exact idle cut
  | duplicateBlock h hash found => exact idle cut
  | duplicateTx h hash fresh duplicate => exact idle cut
  | noParent h hash fresh missing =>
    have parent := ready.parent
    rw [← ready.inv.stored_iff, missing] at parent
    cases parent
  | side h pn admitted lighter =>
    rcases cut.write with before | rfl
    · have both := ready.crash_before_tip admitted before
      exact iff_of_true both.1 both.2
    · have extended := side_extended ready.inv.chain admitted (ready.stored h admitted.hash)
      have spec := extended.spec m
      rw [if_neg (ready.fresh_ne_tip admitted)] at spec
      have linked := linkParent_writes d child pn admitted.hash
      have noTip : WritesOnly (fun w => w.1 ≠ .dagTip) d ((linkParent d child h pn).write (.chainNode h)
          (some (.chainNode (newChainNode child.toBlockSpec h)))) := by
        refine (linked.mono ?_).trans (WritesOnly.write (by simp) _)
        rintro w (rfl | rfl)
        · simp
        · simp
      exact iff_of_true
        (ready.recoverable_old writes log (side_inv ready.inv.chain admitted (ready.inv.only admitted.fresh _))
          (getDagTip_of_writes noTip (by simp)) spec)
        (tipWithNode_of_writes noTip (by simp))
  | rebaseFailed h pn msg admitted better missing => exact absurd rfl (fine msg)
  | moved h pn d₁ _ state _ admitted better rebased switched =>
    obtain ⟨rfl, d₂, qn, last, done⟩ :=
      moved_switched ready.inv.chain admitted (ready.inv.only admitted.fresh _) rebased switched
    have second := done.before_node ready.inv.chain admitted rebased
    have third := done.down.suffix
    rcases cut.split third with early | late
    · rcases early.write with early | rfl
      · rcases early.split second.suffix with early | middle
        · rcases early.write with before | rfl
          · have both := ready.crash_before_tip admitted before
            exact iff_of_true both.1 both.2
          · have both := done.crash_before_node ready.inv.chain admitted rebased log ⟨List.suffix_refl _, second.suffix⟩
            exact iff_of_false both.1 both.2
        · have both := done.crash_before_node ready.inv.chain admitted rebased log middle
          exact iff_of_false both.1 both.2
      · have both := ready.crash_after_node admitted rebased done log writes ⟨List.suffix_refl _, third⟩
        exact iff_of_true both.1 both.2
    · have both := ready.crash_after_node admitted rebased done log writes late
      exact iff_of_true both.1 both.2

end Addition

/-! ## The crash points of the first start -/

section Boot

variable [Sha512] {e : Disk} {genesisTime now : UInt64} {minerId : Bytes}

/-- Without a tip record, the node starts again from the beginning. -/
theorem recoverable_of_noTip {g : Byte64} (log : TrieLog e) (noTip : getDagTip e = none) (proper : emptyNode.hash ≠ null) :
    Recoverable g e := by
  intro genesisTime now minerId genesis
  have eq := ((init_cases noTip genesisTime now minerId).resolve_left fun zero => proper zero.1).2
  subst genesis
  rw [eq]
  have stored : getChainNode (initDisk e genesisTime now) (genesisHash genesisTime now) =
      some (genesisNode genesisTime now) := getChainNode_write_self _ _ _
  have flagged : Flagged (initDisk e genesisTime now) (genesisHash genesisTime now) := ⟨_, stored, rfl⟩
  have connected : Connected (initDisk e genesisTime now) (genesisHash genesisTime now) (genesisHash genesisTime now) := by
    refine ⟨Anc.refl, fun h up => ?_⟩
    rcases up.cases_head with rfl | ⟨p, edge, -⟩
    · exact flagged
    · simp [parentOf] at edge
  have available : Available (initDisk e genesisTime now) emptyNode.hash := by
    have other : ∀ (d : Disk) (k : Key) v, k.isTrie = false → WritesOnly (fun w => w.1.isTrie = false) d (d.write k v) :=
      fun d k v free => WritesOnly.write free d
    exact (freshDisk_available e).writes (((other _ _ _ rfl).trans (other _ _ _ rfl)).trans (other _ _ _ rfl)) fun _ => id
  refine ⟨_, _, rfl, rfl, connected, acceptsChildren_of_flagged
    (((log.freshDisk.write _ rfl).write _ rfl).write _ rfl) ⟨emptyNode_isEmpty, proper⟩ (fun spec found => ?_) flagged⟩
  unfold initDisk at found
  rw [getSpec_write_of_ne _ _ (by simp), getSpec_write_self] at found
  cases found
  exact available

/-- **The crash points of the first start.** -/
theorem boot_crash (started : (System.boot genesisTime now minerId).engine.isSome)
    (cut : Between WriteLog.empty (System.boot genesisTime now minerId).db e) :
    Recoverable (genesisHash genesisTime now) e ↔ TipWithNode WriteLog.empty e := by
  obtain ⟨proper, eq⟩ := boot_of_started started
  rw [eq] at cut
  have log : TrieLog e := (bootDisk_trieLog genesisTime now).of_suffix cut.2
  have fresh : TrieSteps (fun _ => False) WriteLog.empty (freshDisk WriteLog.empty) := freshDisk_steps _
  -- Once the tip record is there, a restart needs the node of genesis.
  have missing : ∀ {e : Disk}, TrieLog e → getDagTip e = some (genesisHash genesisTime now) →
      Wrote WriteLog.empty e (.dagTip, some (.hash (genesisHash genesisTime now))) →
      WritesOnly (fun w => ∀ h, w.1 ≠ .chainNode h) WriteLog.empty e →
      (Recoverable (genesisHash genesisTime now) e ↔ TipWithNode WriteLog.empty e) := by
    intro e log dagTip wrote writes
    have none' : getChainNode e (genesisHash genesisTime now) = none :=
      getChainNode_of_writes writes fun _ hit => hit _ rfl
    refine iff_of_false (not_recoverable_of_missing log dagTip none') fun paired => ?_
    obtain ⟨n, node⟩ := paired _ wrote
    exact writes.of_wrote node _ rfl
  have start : WritesOnly (fun w => ∀ h, w.1 ≠ .chainNode h) WriteLog.empty
      ((freshDisk WriteLog.empty).write .dagTip (some (.hash (genesisHash genesisTime now)))) := by
    refine (fresh.mono ?_).trans (WritesOnly.write (by simp) _)
    rintro ⟨k, v⟩ write h rfl
    cases write.isTrie
  have tip := (Wrote.write (freshDisk WriteLog.empty) .dagTip (some (Value.hash (genesisHash genesisTime now)))).before fresh
  rcases cut.write with cut | rfl
  · rcases cut.write with cut | rfl
    · rcases cut.write with cut | rfl
      · have steps := cut.writesOnly fresh
        refine iff_of_true (recoverable_of_noTip log ?_ proper) (tipWithNode_of_writes steps ?_)
        · exact (SameRecords.of_steps steps).dagTip
        · rintro v write
          cases write.isTrie
      · exact missing log (getDagTip_write_self _ _) tip start
    · have last := WritesOnly.write (P := fun w => ∀ h, w.1 ≠ .chainNode h) (by simp)
        ((freshDisk WriteLog.empty).write .dagTip (some (.hash (genesisHash genesisTime now))))
        (k := .block (genesisHash genesisTime now)) (v := some (.block (hashedGenesis genesisTime now).toBlockSpec))
      refine missing log ?_ (tip.after last) (start.trans last)
      rw [getDagTip_write_of_ne _ _ (by simp), getDagTip_write_self]
  · have kept := statesKept_boot started
    rw [eq] at kept
    have found : getSpec (bootDisk genesisTime now) (genesisHash genesisTime now) =
        some (hashedGenesis genesisTime now).toBlockSpec := by rw [bootDisk_getSpec, if_pos rfl]
    refine iff_of_true (recoverable_of_connected log (bootDisk_getDagTip genesisTime now) found (kept.specs _ _ found)
      proper bootDisk_chain.connected) fun h wrote => ?_
    have same : h = genesisHash genesisTime now := by
      have tips : WritesOnly (fun w => w.1 = .dagTip → w.2 = some (.hash (genesisHash genesisTime now))) WriteLog.empty
          (bootDisk genesisTime now) := by
        refine (((fresh.mono ?_).trans (WritesOnly.write ?_ _)).trans (WritesOnly.write ?_ _)).trans (WritesOnly.write ?_ _)
        · rintro ⟨k, v⟩ write rfl
          cases write.isTrie
        · exact fun _ => rfl
        · simp
        · simp
      exact Value.hash.inj (Option.some.inj (tips.of_wrote wrote rfl))
    subst same
    exact ⟨genesisNode genesisTime now, (Wrote.write _ _ _).before (((fresh.mono fun _ _ => trivial).trans
      (WritesOnly.write trivial _)).trans (WritesOnly.write trivial _) : WritesOnly (fun _ => True) WriteLog.empty _)⟩

end Boot

/-! ## A tip without a chain node -/

namespace Worked

attribute [local instance] workedSha512

/-- `right` is in hand. -/
def decodeRight : System := (System.boot 1 1 [7]).run [.decode 0 right]

/-- The database if the node crashes before the last write of accepting `right`. -/
def beforeNode : Disk := ⟨(decodeRight.next (.accept 0 [] 1)).db.log.drop 1⟩

/-- The restart after this crash comes up with the tip `right`, which has no chain node, and a child of
`right` is turned down. -/
theorem right_node_lost :
    let s := (System.restart beforeNode 1 1 [7]).1
    Reached (fun _ _ => True) (genesisHash 1 1) decodeRight ∧
      Between decodeRight.db (decodeRight.next (.accept 0 [] 1)).db beforeNode ∧
      s.engine.map (·.tip.hash) = some (some (digest rightDigest)) ∧
      getChainNode s.db (digest rightDigest) = none ∧
      ((s.next (.decode 0 rightChild)).step (.accept 0 [] 1)).2 =
        some (.error (.core .dbCorrupted "missing chain node")) := by
  refine ⟨reached_always [.decode 0 right], ?_⟩
  unfold Between
  decide +kernel

end Worked

/-! ## Recovery -/

section Runs

variable [Sha512]

/-- **Recovery from a crash.** A node that crashes in its first start, or while it adds a block, recovers
exactly if the crash did not come between the tip record and the chain node it names. -/
theorem recoverable_iff_tipWithNode :
    (∀ genesisTime now minerId e, (System.boot genesisTime now minerId).engine.isSome →
      Between WriteLog.empty (System.boot genesisTime now minerId).db e →
      (Recoverable (genesisHash genesisTime now) e ↔ TipWithNode WriteLog.empty e)) ∧
    ∀ g s a e, Reached CleanupSafe g s → CleanupSafe s a → a.submits = true → Between s.db (s.next a).db e →
      (Recoverable g e ↔ TipWithNode s.db e) := by
  refine ⟨fun genesisTime now minerId e => boot_crash, fun g s a e reached safe submits cut => ?_⟩
  obtain ⟨ready, kept, m, canonical, synced⟩ := reached.kept
  obtain ⟨genesisTime, now, -, -, -, rfl, -⟩ := reached
  obtain ⟨tip, foundTip⟩ := canonical.tip_stored
  -- A crash in the trie writes leaves the records and the state of the tip alone.
  have trie : ∀ {d₁ : Disk}, TrieSteps (· ∈ cleanedBy s a) s.db d₁ → Between s.db d₁ e →
      (Recoverable (genesisHash genesisTime now) e ↔ TipWithNode s.db e) := by
    intro d₁ steps cut
    have done := cut.writesOnly steps
    have same := SameRecords.of_steps done
    refine iff_of_true (recoverable_of_connected (ready.log.steps done) (same.dagTip.trans canonical.tip)
      ((same.spec m).trans foundTip) ((kept.specs m tip foundTip).steps ready.log done (safe.not_cleaned m tip foundTip))
      (ready.specs m tip foundTip) (canonical.of_records same done.length_le).chain.connected)
      (tipWithNode_of_writes done ?_)
    intro v write
    cases write.isTrie
  have result := step_result ready a
  unfold System.next at cut
  generalize (s.step a).1 = s', (s.step a).2 = o at result cut
  cases result with
  | quiet s' o steps engine blocks contents => exact trie steps cut
  | added i c c' b child ws₀ ws order parent d₁ d' outcome _ target engine block state cleaned valid hashed root result =>
    rw [submitted_db] at cut
    have steps : TrieSteps (· ∈ cleanedBy s a) s.db d₁ := by
      rw [cleaned]
      exact hashed.persisted.steps
    rcases cut.split result.writes.suffix with before | after
    · exact trie steps before
    · have same := hashed.records
      rw [tipWithNode_after steps after.1]
      refine result.crash (m := m) ⟨ready.log.steps steps, canonical.of_records same steps.length_le, ?_, ?_,
        fun h hash => hashed.putBlock root d₁ hash, ?_⟩ after
      · intro spec found
        exact ⟨kept.specs_steps ready.log steps safe.not_cleaned m spec found,
          ready.specs m spec ((same.spec m).symm.trans found)⟩
      · rw [same.spec, hashed.fields.1, valid.stored]
        rfl
      · rw [root]
        exact ⟨hashed.persisted.available (kept.blocks i b ws₀ block state), hashed.persisted.ready.rootHash⟩
  | stopped o restarts =>
    rw [submits] at restarts
    cases restarts
  | restarted h spec d' t gn minerId restarts tip found rebased =>
    rw [submits] at restarts
    cases restarts

end Runs

section Worked

attribute [local instance] workedSha512

theorem recoverable_iff_tipWithNode_right :
    (Recoverable (genesisHash 1 1) (System.boot 1 1 [7]).db ↔ TipWithNode WriteLog.empty (System.boot 1 1 [7]).db) ∧
      (Recoverable (genesisHash 1 1) (Worked.decodeRight.next (.accept 0 [] 1)).db ↔
        TipWithNode Worked.decodeRight.db (Worked.decodeRight.next (.accept 0 [] 1)).db) ∧
      (Recoverable (genesisHash 1 1) Worked.beforeNode ↔ TipWithNode Worked.decodeRight.db Worked.beforeNode) := by
  have reached : Reached CleanupSafe (genesisHash 1 1) Worked.decodeRight :=
    ⟨1, 1, [7], [.decode 0 Worked.right], Worked.started, rfl, ⟨.of_nil rfl, trivial⟩, rfl⟩
  have safe : CleanupSafe Worked.decodeRight (.accept 0 [] 1) := .of_nil (by decide +kernel)
  have cuts : Between Worked.decodeRight.db (Worked.decodeRight.next (.accept 0 [] 1)).db
      (Worked.decodeRight.next (.accept 0 [] 1)).db ∧
      Between Worked.decodeRight.db (Worked.decodeRight.next (.accept 0 [] 1)).db Worked.beforeNode := by
    unfold Between
    decide +kernel
  refine ⟨recoverable_iff_tipWithNode.1 1 1 [7] _ Worked.started ⟨List.nil_suffix, List.suffix_refl _⟩, ?_, ?_⟩
  · exact recoverable_iff_tipWithNode.2 _ _ _ _ reached safe rfl cuts.1
  · exact recoverable_iff_tipWithNode.2 _ _ _ _ reached safe rfl cuts.2

end Worked

end TrustNet
