import TrustNet.Consensus.ForkChoice

/-!
# The tables as a DAG

`Growth` says what a call does to the tables of a node that works on its tip: it
leaves them, or it stores one valid block, which its parent lists. The shape of
the stored tables is read off it: parents and uncles are stored, depths and weights
add up, and every block is listed once, by its parent.
-/

namespace TrustNet
set_option autoImplicit false
open WriteLog (WritesOnly)
open ParentTree (Anc Leveled)

/-! ## Lists of children -/

/-- The children that a stored node lists. -/
def childrenOf (d : Disk) (h : Byte64) : List Byte64 := ((getChainNode d h).map (·.children)).getD []

section Children

variable {d d' : Disk} {g m h q : Byte64}

theorem childrenOf_of_found {n : ChainNode} (found : getChainNode d h = some n) : childrenOf d h = n.children := by
  simp [childrenOf, found]

theorem mem_childrenOf {k : Byte64} : k ∈ childrenOf d h ↔ ∃ n, getChainNode d h = some n ∧ k ∈ n.children := by
  unfold childrenOf
  cases getChainNode d h with
  | none => simp
  | some n => simp

theorem childrenOf_congr (same : getChainNode d' h = getChainNode d h) : childrenOf d' h = childrenOf d h := by
  rw [childrenOf, same, childrenOf]

theorem SameNodes.childrenOf (same : SameNodes d d') (h : Byte64) : TrustNet.childrenOf d' h = TrustNet.childrenOf d h := by
  have eq := congrArg (fun n => (n.map ChainNode.children).getD []) (same h)
  simp only [Option.map_map] at eq
  exact eq

/-- A leaf adds no list. -/
theorem childrenOf_write_leaf {x : ChainNode} (fresh : getChainNode d x.hash = none) (leaf : x.children = []) (q : Byte64) :
    childrenOf (d.write (.chainNode x.hash) (some (.chainNode x))) q = childrenOf d q := by
  by_cases eq : q = x.hash
  · subst eq
    rw [childrenOf_of_found (getChainNode_write_self _ _ _), leaf, childrenOf, fresh]
    rfl
  · exact childrenOf_congr (getChainNode_write_of_ne _ _ (by simpa using Ne.symm eq))

variable [Sha512] {child : Block} {pn : ChainNode}

theorem linkParent_childrenOf (inv : ChainInv d g m) (admitted : Admitted d child h pn) (q : Byte64) :
    childrenOf (linkParent d child h pn) q =
      if q = child.phash then childrenOf d q ++ [h] else childrenOf d q := by
  by_cases eq : q = child.phash
  · subst eq
    rw [if_pos rfl, childrenOf_of_found (linkParent_parent inv admitted), childrenOf_of_found admitted.parent]
    rfl
  · rw [if_neg eq]
    refine childrenOf_congr (linkParent_other admitted ?_)
    rw [admitted.parent_hash inv]
    exact Ne.symm eq

/-- A block that was added is listed by its parent, and nothing else changes in the lists. -/
theorem AddResult.childrenOf {c c' : BlockChainConsensus} {outcome : Outcome}
    (result : AddResult c d child c' d' outcome) (inv : Canonical d g m) (ok : outcome = .ok)
    (hash : child.hash = some h) (q : Byte64) :
    TrustNet.childrenOf d' q =
      if q = child.phash then TrustNet.childrenOf d q ++ [h] else TrustNet.childrenOf d q := by
  cases result with
  | unhashed none' => cases ok
  | duplicateBlock h' hash' found => cases ok
  | duplicateTx h' hash' fresh duplicate => cases ok
  | noParent h' hash' fresh missing => cases ok
  | side h' pn admitted lighter =>
    have same : h' = h := Option.some.inj (admitted.hash.symm.trans hash)
    subst same
    have leaf : getChainNode (linkParent d child h' pn) (newChainNode child.toBlockSpec h').hash = none :=
      linkParent_fresh inv.chain admitted
    rw [← linkParent_childrenOf inv.chain admitted q]
    exact childrenOf_write_leaf leaf rfl q
  | rebaseFailed h' pn msg admitted better missing => cases ok
  | moved h' pn d₁ _ state _ admitted better rebased switched =>
    have same : h' = h := Option.some.inj (admitted.hash.symm.trans hash)
    subst same
    obtain ⟨-, d₂, qn, last, done⟩ := moved_switched inv.chain admitted (inv.only admitted.fresh _) rebased switched
    have nodes := (SameNodes.of_eq (registered_nodes rebased)).trans done.up.same
    have leaf : getChainNode d₂ ((newChainNode child.toBlockSpec h').setMainList true).hash = none := by
      have none' := linkParent_fresh inv.chain admitted
      rw [← Option.isNone_iff_eq_none, ← Option.not_isSome, nodes.isSome]
      exact by simp [newChainNode, ChainNode.setMainList, none']
    rw [done.nodes.childrenOf, childrenOf_write_leaf leaf rfl, nodes.childrenOf, linkParent_childrenOf inv.chain admitted]

end Children

/-! ## What a call stores -/

section Growth

variable [Sha512] {s s' : System} {a : Action} {g m : Byte64}

omit [Sha512] in
theorem Extended.of_records {d₀ d d' : Disk} {child : Block} {h : Byte64} (same : SameRecords d₀ d)
    (grow : d₀.log.length ≤ d.log.length) (extended : Extended d child h d') : Extended d₀ child h d' where
  spec q := by rw [extended.spec, same.spec]
  header q := by rw [extended.header, nodeHeader, same.chainNode, nodeHeader]
  children found listed := by
    rcases extended.children found listed with new | ⟨qn₀, old, member⟩
    · exact Or.inl new
    · exact Or.inr ⟨qn₀, by rw [← same.chainNode]; exact old, member⟩
  order := by rw [extended.order, same.accepted]
  grown := grow.trans extended.grown

/-- What a call stores: nothing, or the valid block that it submitted. -/
inductive Growth (s : System) (a : Action) (s' : System) : Prop where
  | same (records : SameRecords s.db s'.db)
  | stored (i : Nat) (b child : Block) (h : Byte64) (parent : BlockSpec) (submits : a.submits = true)
      (target : a.target = some i) (block : s.blocks i = some b)
      (body : ∃ state nonce, child.toBlockSpec = { b.toBlockSpec with state, nonce }) (hash : child.hash = some h)
      (fresh : getSpec s.db h = none) (valid : Valid s.db child.toBlockSpec parent)
      (extended : Extended s.db child h s'.db)
      (children : ∀ q, childrenOf s'.db q = if q = child.phash then childrenOf s.db q ++ [h] else childrenOf s.db q)

theorem Valid.hashed {d d₁ : Disk} {b child : Block} {ws₀ ws : MptWorldState} {order : List Entry}
    {inputs : List Bytes} {parent : BlockSpec} (valid : Valid d b.toBlockSpec parent)
    (hashed : Hashed d b ws₀ order inputs d₁ child ws) : Valid d child.toBlockSpec parent := by
  obtain ⟨state, nonce, eq⟩ := hashed.body_spec
  rw [eq]
  exact ⟨valid.stored, valid.depth, valid.uncles, valid.weight⟩

theorem StepResult.growth {o : Option Outcome} (result : StepResult s a s' o) (inv : OnTip g s)
    (fine : a.submits = true → ∀ msg, o ≠ some (.error (.core .notFound msg))) : Growth s a s' := by
  cases result with
  | quiet s' o steps engine blocks contents => exact .same (SameRecords.of_steps steps)
  | added i c c' b child ws₀ ws order parent d₁ d' outcome submits target engine block state cleaned valid hashed root
      result =>
    obtain ⟨m, canonical, synced⟩ := inv
    have same := hashed.records
    have grow := hashed.persisted.steps.length_le
    have lists : ∀ {h q}, outcome = .ok → child.hash = some h → childrenOf d' q =
        if q = child.phash then childrenOf s.db q ++ [h] else childrenOf s.db q := by
      intro h q ok hash
      rw [result.childrenOf (canonical.of_records same grow) ok hash q, childrenOf_congr (same.chainNode q)]
    obtain ⟨m', addition, -, -⟩ := added_canonical canonical (synced c engine) valid hashed root result
      fun msg eq => fine submits msg (by rw [eq])
    cases addition with
    | refused _ failed => exact .same (by rw [submitted_db]; exact same)
    | side h _ hash fresh extended worse =>
      rw [same.spec] at fresh
      exact .stored i b child h parent submits target block hashed.body_spec hash fresh (valid.hashed hashed)
        (by rw [submitted_db]; exact extended.of_records same grow)
        fun q => by rw [submitted_db]; exact lists rfl hash
    | moved _ _ _ hash fresh extended better =>
      rw [same.spec] at fresh
      exact .stored i b child m' parent submits target block hashed.body_spec hash fresh (valid.hashed hashed)
        (by rw [submitted_db]; exact extended.of_records same grow)
        fun q => by rw [submitted_db]; exact lists rfl hash
  | stopped => exact .same (freshDisk_records s.db)
  | restarted h spec d' t gn minerId restarts tip found rebased =>
    have steps : TrieSteps (fun _ => False) s.db d' := rebased.fresh_steps
    exact .same (SameRecords.of_steps steps)

/-- One call of a run without a failing `Rebase`. -/
theorem growth_next (ready : SystemReady s) (inv : OnTip g s) (fine : RebaseOk s a) : Growth s a (s.next a) :=
  (step_result ready a).growth inv fine.outcome

end Growth

/-! ## The shape of the tables -/

/-- The database `d'` has the blocks of `d`. -/
def SpecsKept (d d' : Disk) : Prop := ∀ h spec, getSpec d h = some spec → getSpec d' h = some spec

/-- The stored block follows on its parent. -/
structure Follows (d : Disk) (spec : BlockSpec) : Prop where
  parent : ∃ parent, getSpec d spec.phash = some parent ∧ spec.depth = parent.depth + 1 ∧
    spec.wt = parent.wt + 1 + UInt64.ofNat spec.uncles.length
  uncles : ∀ u ∈ spec.uncles, (getSpec d u).isSome

/-- The level of a block is its distance from genesis, which its depth counts. -/
structure Levels (d : Disk) (g : Byte64) (level : Byte64 → Nat) : Prop where
  genesis : level g = 0
  edge : Leveled (parentOf d g) level
  bound : ∀ {h spec}, getSpec d h = some spec → level h < (acceptedBlocks d).length
  depth : ∀ {h spec}, getSpec d h = some spec → spec.depth = UInt64.ofNat (level h)

/-- Blocks follow on their parents, children are listed once, and there are levels. -/
structure Dag (d : Disk) (g : Byte64) : Prop where
  root : ∀ {spec}, getSpec d g = some spec → spec.phash = genesisParent
  follows : ∀ {h spec}, getSpec d h = some spec → h ≠ g → Follows d spec
  once : ∀ q, (childrenOf d q).Nodup
  levels : ∃ level, Levels d g level

section Dag

variable {d d' : Disk} {g m h : Byte64} {spec : BlockSpec}

theorem Extended.kept {child : Block} (extended : Extended d child h d') (fresh : getSpec d h = none) : SpecsKept d d' := by
  intro q spec found
  rw [extended.spec, if_neg, found]
  rintro rfl
  rw [fresh] at found
  cases found

theorem Follows.mono (follows : Follows d spec) (kept : SpecsKept d d') : Follows d' spec := by
  obtain ⟨⟨parent, stored, depth, weight⟩, uncles⟩ := follows
  refine ⟨⟨parent, kept _ _ stored, depth, weight⟩, fun u listed => ?_⟩
  obtain ⟨uncle, found⟩ := Option.isSome_iff_exists.mp (uncles u listed)
  rw [kept u uncle found]
  rfl

theorem Valid.follows {parent : BlockSpec} (valid : Valid d spec parent) : Follows d spec :=
  ⟨⟨parent, valid.stored, valid.depth, valid.weight⟩, fun u listed => (valid.uncles u listed).2⟩

theorem Levels.of_records {level : Byte64 → Nat} (levels : Levels d g level) (same : SameRecords d d') :
    Levels d' g level where
  genesis := levels.genesis
  edge a b edge := by
    rw [(SameNodes.of_eq same.chainNode).parentOf_eq] at edge
    exact levels.edge a b edge
  bound found := by
    rw [same.spec] at found
    rw [same.accepted]
    exact levels.bound found
  depth found := by
    rw [same.spec] at found
    exact levels.depth found

theorem Dag.of_records (dag : Dag d g) (same : SameRecords d d') : Dag d' g where
  root found := dag.root ((same.spec g).symm.trans found)
  follows found ne := by
    rw [same.spec] at found
    exact (dag.follows found ne).mono fun h spec stored => by rw [same.spec]; exact stored
  once q := by
    rw [childrenOf_congr (same.chainNode q)]
    exact dag.once q
  levels := by
    obtain ⟨level, levels⟩ := dag.levels
    exact ⟨level, levels.of_records same⟩

/-- A new block is one level above its parent. -/
theorem Levels.extended {level : Byte64 → Nat} {child : Block} {parent : BlockSpec} (levels : Levels d g level)
    (inv : Canonical d g m) (fresh : getSpec d h = none) (freshNode : getChainNode d h = none)
    (valid : Valid d child.toBlockSpec parent) (extended : Extended d child h d') :
    Levels d' g (Function.update level h (level child.phash + 1)) := by
  have keep : ∀ {q}, (getSpec d q).isSome → Function.update level h (level child.phash + 1) q = level q := by
    intro q stored
    refine Function.update_of_ne ?_ _ _
    rintro rfl
    rw [fresh] at stored
    cases stored
  have keepParent := keep (by rw [valid.stored]; rfl)
  refine ⟨?_, fun a b edge => ?_, fun {q spec} found => ?_, fun {q spec} found => ?_⟩
  · rw [keep (by rw [← inv.stored_iff]; exact inv.chain.tree.genesis), levels.genesis]
  · by_cases eq : a = h
    · subst eq
      rw [extended.parentOf_new inv.chain.tree freshNode, Option.some.injEq] at edge
      rw [← edge, Function.update_self, keepParent]
    · rw [extended.parentOf_old eq] at edge
      rw [Function.update_of_ne eq, keep (by rw [← inv.stored_iff]; exact inv.chain.tree.parent_stored edge)]
      exact levels.edge a b edge
  · rw [extended.order, List.length_append, List.length_singleton]
    by_cases eq : q = h
    · subst eq
      have below := levels.bound valid.stored
      rw [Function.update_self]
      omega
    · rw [extended.spec, if_neg eq] at found
      have below := levels.bound found
      rw [Function.update_of_ne eq]
      omega
  · by_cases eq : q = h
    · subst eq
      rw [extended.spec, if_pos rfl, Option.some.injEq] at found
      rw [← found, Function.update_self, valid.depth, levels.depth valid.stored, UInt64.ofNat_add]
      rfl
    · rw [extended.spec, if_neg eq] at found
      rw [Function.update_of_ne eq]
      exact levels.depth found

/-- A valid block is stored and its parent lists it. -/
theorem Dag.extended {child : Block} {parent : BlockSpec} (dag : Dag d g) (inv : Canonical d g m)
    (fresh : getSpec d h = none) (valid : Valid d child.toBlockSpec parent) (extended : Extended d child h d')
    (children : ∀ q, childrenOf d' q = if q = child.phash then childrenOf d q ++ [h] else childrenOf d q) :
    Dag d' g := by
  have freshNode := inv.noNode fresh
  have kept := extended.kept fresh
  refine ⟨fun {spec} found => ?_, fun {q spec} found ne => ?_, fun q => ?_, ?_⟩
  · rw [extended.spec, if_neg] at found
    · exact dag.root found
    · rintro rfl
      have stored := inv.chain.tree.genesis
      rw [freshNode] at stored
      cases stored
  · rw [extended.spec] at found
    split at found
    · cases found
      exact valid.follows.mono kept
    · exact (dag.follows found ne).mono kept
  · rw [children]
    split
    · rw [← List.concat_eq_append]
      refine List.Nodup.concat (fun listed => ?_) (dag.once q)
      obtain ⟨n, found, member⟩ := mem_childrenOf.mp listed
      have stored := inv.complete found member
      rw [freshNode] at stored
      cases stored
    · exact dag.once q
  · obtain ⟨level, levels⟩ := dag.levels
    exact ⟨_, levels.extended inv fresh freshNode valid extended⟩

variable {m' : Byte64}

theorem SpecsKept.edge (kept : SpecsKept d d') (inv : Canonical d g m) (inv' : Canonical d' g m') (a b : Byte64)
    (edge : parentOf d g a = some b) : parentOf d' g a = some b := by
  rw [inv.parentOf_eq] at edge
  rw [inv'.parentOf_eq]
  split at edge
  · cases edge
  · rename_i ne
    obtain ⟨spec, found, parent⟩ := Option.map_eq_some_iff.mp edge
    rw [if_neg ne, kept a spec found, Option.map_some, parent]

theorem SpecsKept.level {level level' : Byte64 → Nat} (kept : SpecsKept d d') (inv : Canonical d g m)
    (inv' : Canonical d' g m') (levels : Levels d g level) (levels' : Levels d' g level')
    (stored : (getChainNode d h).isSome) : level' h = level h := by
  have up := inv.chain.tree.anc_genesis stored
  induction up using Relation.ReflTransGen.head_induction_on with
  | refl => rw [levels.genesis, levels'.genesis]
  | @head a b edge _ ih =>
    rw [levels.edge a b edge, levels'.edge a b (kept.edge inv inv' a b edge),
      ih (inv.chain.tree.parent_stored edge)]

end Dag

/-! ## Every state -/

section Runs

variable [Sha512] {s s' : System} {a : Action} {g : Byte64}

omit [Sha512] in
theorem Growth.dag (growth : Growth s a s') (inv : OnTip g s) (dag : Dag s.db g) : Dag s'.db g := by
  cases growth with
  | same records => exact dag.of_records records
  | stored i b child h parent submits target block body hash fresh valid extended children =>
    obtain ⟨m, canonical, -⟩ := inv
    exact dag.extended canonical fresh valid extended children

theorem dag_boot (genesisTime now : UInt64) : Dag (bootDisk genesisTime now) (genesisHash genesisTime now) where
  root found := by
    rw [bootDisk_getSpec, if_pos rfl] at found
    cases found
    rfl
  follows found ne := by
    rw [bootDisk_getSpec, if_neg ne] at found
    cases found
  once q := by
    unfold childrenOf
    rw [bootDisk_getChainNode]
    split
    · exact List.nodup_nil
    · exact List.nodup_nil
  levels := by
    refine ⟨fun _ => 0, rfl, fun a b edge => ?_, fun {h spec} _ => ?_, fun {h spec} found => ?_⟩
    · rw [bootDisk_parentOf] at edge
      cases edge
    · rw [bootDisk_acceptedBlocks]
      simp
    · rw [bootDisk_getSpec] at found
      split at found
      · cases found
        rfl
      · cases found

/-- Every state of a run without a failing `Rebase`. -/
theorem Reached.dag (reached : Reached RebaseOk g s) : Dag s.db g := by
  refine (reached.invariant (fun s => OnTip g s ∧ Dag s.db g) (fun genesisTime now minerId started genesis => ?_)
    (fun s a ready inv fine => ?_)).2.2
  · refine ⟨genesis ▸ onTip_boot started, ?_⟩
    rw [(boot_of_started started).2, ← genesis]
    exact dag_boot genesisTime now
  · exact ⟨onTip_next ready inv.1 fine, (growth_next ready inv.1 fine).dag inv.1 inv.2⟩

omit [Sha512] in
theorem Growth.kept (growth : Growth s a s') : SpecsKept s.db s'.db := by
  intro q spec found
  cases growth with
  | same records => rw [records.spec, found]
  | stored i b child h parent submits target block body hash fresh valid extended children =>
    exact extended.kept fresh q spec found

/-- Stored blocks stay as they are. -/
theorem Reached.specsKept {actions : List Action} (reached : Reached RebaseOk g s)
    (along : System.Along RebaseOk s actions) : SpecsKept s.db (s.run actions).db := by
  induction actions generalizing s with
  | nil => exact fun _ _ found => found
  | cons a actions ih =>
    obtain ⟨fine, rest⟩ := along
    have first := (growth_next reached.ready reached.onTip fine).kept
    have one : System.Along RebaseOk s [a] := ⟨fine, trivial⟩
    have later := ih (s := s.next a) (reached.run one) rest
    exact fun h spec found => later h spec (first h spec found)

/-- **The tables form a DAG.** In every state the two tables have the same keys. Every block but genesis
follows on a stored parent, lists stored uncles, and is listed once, by its parent; nobody lists genesis. All
blocks descend from genesis. -/
theorem tables_form_dag (reached : Reached RebaseOk g s) :
    (∀ h, (getSpec s.db h).isSome = (getChainNode s.db h).isSome) ∧
    (∀ h n, getChainNode s.db h = some n → h ≠ g → ∃ spec p pn, getSpec s.db h = some spec ∧
      getSpec s.db n.parent = some p ∧ getChainNode s.db n.parent = some pn ∧ n.parent = spec.phash ∧
      n.depth = pn.depth + 1 ∧ n.weight = pn.weight + 1 + UInt64.ofNat spec.uncles.length ∧
      (∀ u ∈ spec.uncles, (getSpec s.db u).isSome) ∧
      pn.children.count h = 1 ∧ ∀ q qn, getChainNode s.db q = some qn → h ∈ qn.children → q = n.parent) ∧
    (∀ q qn, getChainNode s.db q = some qn → g ∉ qn.children) ∧
    ∀ h, (getChainNode s.db h).isSome → Anc (parentOf s.db g) h g := by
  obtain ⟨m, canonical, -⟩ := reached.onTip
  have dag := reached.dag
  have tree := canonical.chain.tree
  refine ⟨fun h => canonical.stored_iff.symm, fun h n found ne => ?_, fun q qn found listed => ?_,
    fun h stored => tree.anc_genesis stored⟩
  · have header : ∀ {h n}, getChainNode s.db h = some n →
        ∃ spec, getSpec s.db h = some spec ∧ n.parent = spec.phash ∧ n.depth = spec.depth ∧ n.weight = spec.wt := by
      intro h n found
      have eq := canonical.headers h
      rw [nodeHeader, found] at eq
      obtain ⟨spec, stored, same⟩ := Option.map_eq_some_iff.mp eq.symm
      simp only [BlockSpec.header, ChainNode.header, Prod.mk.injEq] at same
      exact ⟨spec, stored, same.1.symm, same.2.1.symm, same.2.2.symm⟩
    obtain ⟨spec, stored, parent, depth, weight⟩ := header found
    obtain ⟨⟨p, storedP, depthP, weightP⟩, uncles⟩ := dag.follows stored ne
    obtain ⟨pn, foundP, listed⟩ := tree.listed found ne
    obtain ⟨p', storedP', -, depthN, weightN⟩ := header foundP
    rw [parent, storedP, Option.some.injEq] at storedP'
    subst storedP'
    refine ⟨spec, p, pn, stored, by rw [parent]; exact storedP, foundP, parent, by rw [depth, depthP, depthN],
      by rw [weight, weightP, weightN], uncles, ?_, fun q qn foundQ listedQ => ?_⟩
    · refine List.count_eq_one_of_mem ?_ listed
      rw [← childrenOf_of_found foundP]
      exact dag.once _
    · exact (tree.children foundQ listedQ found).1.symm
  · obtain ⟨gn, foundG⟩ := Option.isSome_iff_exists.mp tree.genesis
    exact (tree.children found listed foundG).2 rfl

end Runs

section Worked

attribute [local instance] workedSha512

theorem tables_form_dag_reorganise :
    let s := (System.boot 1 1 [7]).run Worked.reorganise
    (∀ h, (getSpec s.db h).isSome = (getChainNode s.db h).isSome) ∧
      ∀ h, (getChainNode s.db h).isSome → Anc (parentOf s.db (genesisHash 1 1)) h (genesisHash 1 1) := by
  obtain ⟨keys, -, -, descend⟩ := tables_form_dag Worked.reorganise_reached.1
  exact ⟨keys, descend⟩

end Worked

end TrustNet
