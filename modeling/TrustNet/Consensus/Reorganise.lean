import TrustNet.Consensus.ChainTree

/-!
# Moving the main list to a new tip

`setMainListUp` flags the branch of the new tip up to the first node that has
the flag, and `resetMainListDown` takes the flag from the old branch below that
node. `par` stands for the parent edges: they are the same before, between and
after the two walks.
-/

namespace TrustNet
set_option autoImplicit false
open WriteLog (WritesOnly Wrote)
open ParentTree (Anc Ranked)

variable [Sha512] {g h : Byte64} {par : Byte64 → Option Byte64} {rank : Byte64 → Nat}

/-! ## The walk up -/

/-- The writes of the walk up from `p` to `q`: flags and index entries of the nodes below `q`. -/
def UpWrite (par : Byte64 → Option Byte64) (specs : Byte64 → Option BlockSpec) (p q : Byte64)
    (w : Key × Option Value) : Prop :=
  ∃ h, Anc par p h ∧ Anc par h q ∧ h ≠ q ∧
    ((∃ n, w = (.chainNode h, some (.chainNode n))) ∨
      ∃ spec tx, specs h = some spec ∧ tx ∈ spec.txs ∧ w = (.flatTx tx.id, some (.hash h)))

/-- The walk up from `pn` ended at `qn`, the first node with the flag; `last` is the node below it. -/
structure WalkedUp (par : Byte64 → Option Byte64) (d : Disk) (pn below : ChainNode) (d' : Disk)
    (qn last : ChainNode) : Prop where
  reached : Anc par pn.hash qn.hash
  stored : getChainNode d' qn.hash = some qn
  flagged : Flagged d qn.hash
  first : ∀ h, Anc par pn.hash h → Anc par h qn.hash → h ≠ qn.hash → ¬ Flagged d h
  flags : ∀ h, Flagged d' h ↔ Flagged d h ∨ (Anc par pn.hash h ∧ Anc par h qn.hash)
  same : SameNodes d d'
  last : (last = below ∧ qn = pn) ∨ (Anc par pn.hash last.hash ∧ par last.hash = some qn.hash)
  writes : WritesOnly (UpWrite par (getSpec d) pn.hash qn.hash) d d'
  indexed : ∀ h spec tx, Anc par pn.hash h → Anc par h qn.hash → h ≠ qn.hash → getSpec d h = some spec →
    tx ∈ spec.txs → Wrote d d' (.flatTx tx.id, some (.hash h))

/-- One round of the walk up. -/
def markUp (d : Disk) (pn : ChainNode) : Disk :=
  let d := d.write (.chainNode pn.hash) (some (.chainNode (pn.setMainList true)))
  match getBlock d pn.hash with
  | some b => (registerTransactions d pn.hash b.txs).1
  | none => d

theorem setMainListUp_succ (d : Disk) (fuel : Nat) (pn below : ChainNode) :
    setMainListUp d (fuel + 1) pn below =
      if pn.isMainList then (d, some (pn, below))
      else match getChainNode (markUp d pn) pn.parent with
        | none => (markUp d pn, none)
        | some next => setMainListUp (markUp d pn) fuel next (pn.setMainList true) := rfl

/-- One round flagged `pn` and wrote the index entries of its block. -/
structure MarkedUp (d : Disk) (pn : ChainNode) (d₁ : Disk) : Prop where
  same : SameNodes d d₁
  flags : ∀ h, Flagged d₁ h ↔ Flagged d h ∨ h = pn.hash
  specs : getSpec d₁ = getSpec d
  writes : WritesOnly (fun w => (∃ n, w = (.chainNode pn.hash, some (.chainNode n))) ∨
    ∃ spec tx, getSpec d pn.hash = some spec ∧ tx ∈ spec.txs ∧ w = (.flatTx tx.id, some (.hash pn.hash))) d d₁
  indexed : ∀ spec tx, getSpec d pn.hash = some spec → tx ∈ spec.txs →
    Wrote d d₁ (.flatTx tx.id, some (.hash pn.hash))

omit [Sha512] in
theorem flagged_setMainList (d : Disk) (pn : ChainNode) (h : Byte64) :
    Flagged (d.write (.chainNode pn.hash) (some (.chainNode (pn.setMainList true)))) h ↔ Flagged d h ∨ h = pn.hash := by
  refine (flagged_write d (pn.setMainList true) h).trans ?_
  by_cases eq : h = pn.hash
  · simp [eq, ChainNode.setMainList]
  · simp [eq, ChainNode.setMainList]

theorem markUp_spec {d : Disk} {pn : ChainNode} (stored : getChainNode d pn.hash = some pn) :
    MarkedUp d pn (markUp d pn) := by
  unfold markUp
  have same : SameNodes d (d.write (.chainNode pn.hash) (some (.chainNode (pn.setMainList true)))) :=
    sameNodes_write (pn.setMainList true) stored rfl rfl
  have flags := flagged_setMainList d pn
  have specs : getSpec (d.write (.chainNode pn.hash) (some (.chainNode (pn.setMainList true)))) = getSpec d :=
    funext fun h => getSpec_write_of_ne _ d (by simp)
  have write := WritesOnly.write (P := fun w => (∃ n, w = (.chainNode pn.hash, some (.chainNode n))) ∨
    ∃ spec tx, getSpec d pn.hash = some spec ∧ tx ∈ spec.txs ∧ w = (.flatTx tx.id, some (.hash pn.hash)))
    (Or.inl ⟨pn.setMainList true, rfl⟩) d
  simp only [getBlock, specs]
  generalize d.write (.chainNode pn.hash) (some (.chainNode (pn.setMainList true))) = d₁ at same flags specs write ⊢
  cases found : getSpec d pn.hash with
  | none => exact ⟨same, flags, specs, write, by simp [found]⟩
  | some spec =>
    obtain ⟨-, writes, wrote⟩ := registerTransactions_writes d₁ pn.hash spec.txs
    have nodes : ∀ h, getChainNode (registerTransactions d₁ pn.hash spec.txs).1 h = getChainNode d₁ h :=
      fun h => getChainNode_of_writes writes (by simp)
    have specs' : ∀ h, getSpec (registerTransactions d₁ pn.hash spec.txs).1 h = getSpec d₁ h :=
      fun h => getSpec_of_writes writes (by simp)
    refine ⟨same.trans (SameNodes.of_eq nodes), fun h => (Flagged.congr nodes h).trans (flags h),
      (funext specs').trans specs, write.trans (writes.mono ?_), ?_⟩
    · rintro w ⟨tx, member, rfl⟩
      exact Or.inr ⟨spec, tx, found, member, rfl⟩
    · intro spec' tx eq member
      rw [found] at eq
      cases eq
      exact (wrote tx member).before write

/-- The walk stops at a node that has the flag. -/
theorem WalkedUp.stop (ranked : Ranked par rank) {d : Disk} {pn : ChainNode} (below : ChainNode)
    (stored : getChainNode d pn.hash = some pn) (mark : pn.isMainList = true) : WalkedUp par d pn below d pn below where
  reached := Anc.refl
  stored := stored
  flagged := ⟨pn, stored, mark⟩
  first h ph hp ne := absurd (hp.antisymm ranked ph) ne
  flags h := by
    refine ⟨Or.inl, ?_⟩
    rintro (old | ⟨ph, hp⟩)
    · exact old
    · rw [hp.antisymm ranked ph]
      exact ⟨pn, stored, mark⟩
  same := SameNodes.refl d
  last := Or.inl ⟨rfl, rfl⟩
  writes := WritesOnly.refl d
  indexed h spec tx ph hp ne := absurd (hp.antisymm ranked ph) ne

/-- A round at a node without the flag, and the walk from its parent. -/
theorem WalkedUp.climb (ranked : Ranked par rank) {d d₁ d' : Disk} {pn next below qn last : ChainNode}
    (unflagged : ¬ Flagged d pn.hash) (edge : par pn.hash = some next.hash) (marked : MarkedUp d pn d₁)
    (rest : WalkedUp par d₁ next (pn.setMainList true) d' qn last) : WalkedUp par d pn below d' qn last := by
  have reached : Anc par pn.hash qn.hash := Anc.head edge rest.reached
  have notPn : pn.hash ≠ qn.hash := by
    intro eq
    apply ranked.not_anc_child edge
    rw [eq]
    exact rest.reached
  -- A node between `pn` and `qn` is `pn` itself or lies between `next` and `qn`.
  have between : ∀ {h}, Anc par pn.hash h → h = pn.hash ∨ Anc par next.hash h := by
    intro h ph
    rcases ph.cases_head with eq | ⟨p', edge', up⟩
    · exact Or.inl eq.symm
    · rw [edge] at edge'
      cases edge'
      exact Or.inr up
  constructor
  · exact reached
  · exact rest.stored
  · rcases (marked.flags qn.hash).mp rest.flagged with old | eq
    · exact old
    · exact absurd eq.symm notPn
  · intro h ph hq ne old
    rcases between ph with eq | nh
    · rw [eq] at old
      exact unflagged old
    · exact rest.first h nh hq ne ((marked.flags h).mpr (Or.inl old))
  · intro h
    rw [rest.flags h, marked.flags h]
    constructor
    · rintro ((old | eq) | ⟨nh, hq⟩)
      · exact Or.inl old
      · rw [eq]
        exact Or.inr ⟨Anc.refl, reached⟩
      · exact Or.inr ⟨Anc.head edge nh, hq⟩
    · rintro (old | ⟨ph, hq⟩)
      · exact Or.inl (Or.inl old)
      · rcases between ph with eq | nh
        · exact Or.inl (Or.inr eq)
        · exact Or.inr ⟨nh, hq⟩
  · exact marked.same.trans rest.same
  · rcases rest.last with ⟨eq, same⟩ | ⟨nl, edgeL⟩
    · rw [eq, same]
      exact Or.inr ⟨Anc.refl, edge⟩
    · exact Or.inr ⟨Anc.head edge nl, edgeL⟩
  · refine (marked.writes.mono ?_).trans (rest.writes.mono ?_)
    · intro w write
      exact ⟨pn.hash, Anc.refl, reached, notPn, write⟩
    · rintro w ⟨h, nh, hq, ne, write⟩
      rw [marked.specs] at write
      exact ⟨h, Anc.head edge nh, hq, ne, write⟩
  · intro h spec tx ph hq ne found member
    rcases between ph with eq | nh
    · subst eq
      exact (marked.indexed spec tx found member).after rest.writes
    · rw [← marked.specs] at found
      exact (rest.indexed h spec tx nh hq ne found member).before marked.writes

/-- The walk up ends at a node that has the flag already. -/
theorem setMainListUp_spec (ranked : Ranked par rank) (fuel : Nat) {d : Disk} {pn : ChainNode} {r : Byte64}
    (below : ChainNode) (tree : ChainTree d g) (edges : parentOf d g = par)
    (stored : getChainNode d pn.hash = some pn) (up : Anc par pn.hash r) (flagged : Flagged d r)
    (enough : rank pn.hash < fuel) :
    ∃ d' qn last, setMainListUp d fuel pn below = (d', some (qn, last)) ∧ WalkedUp par d pn below d' qn last := by
  -- Induction on the fuel; the rank of the node falls with each round.
  induction fuel generalizing d pn below with
  | zero => omega
  | succ fuel ih =>
    rw [setMainListUp_succ]
    by_cases mark : pn.isMainList = true
    · exact ⟨d, pn, below, if_pos mark, WalkedUp.stop ranked below stored mark⟩
    · rw [if_neg mark]
      have unflagged : ¬ Flagged d pn.hash := by
        rintro ⟨n, found, on⟩
        rw [stored] at found
        cases found
        exact mark on
      rcases up.cases_head with same | ⟨p, edge, up'⟩
      · rw [same] at unflagged
        exact absurd flagged unflagged
      · have notGenesis : pn.hash ≠ g := by
          intro eq
          rw [← edges, eq] at edge
          simp [parentOf] at edge
        have parent : par pn.hash = some pn.parent := by
          rw [← edges]
          exact parentOf_of_found stored notGenesis
        rw [parent] at edge
        cases edge
        have marked := markUp_spec stored
        generalize markUp d pn = d₁ at marked ⊢
        obtain ⟨p, parentStored, -⟩ := tree.listed stored notGenesis
        obtain ⟨next, found, -, -, hash, -⟩ := marked.same.some parentStored
        rw [tree.keyed parentStored] at hash
        rw [← hash] at parent up' found
        have lower := ranked _ _ parent
        obtain ⟨d', qn, last, run, walked⟩ := ih (pn.setMainList true)
          (marked.same.chainTree marked.writes.length_le tree) (marked.same.parentOf_eq.trans edges) found up'
          ((marked.flags r).mpr (Or.inl flagged)) (by omega)
        rw [← hash, found]
        exact ⟨d', qn, last, run, WalkedUp.climb ranked unflagged parent marked walked⟩

/-! ## The walk down -/

omit [Sha512] in
theorem findMainListChild_some {d : Disk} {pn cn : ChainNode} {skip : Option ChainNode}
    (found : findMainListChild d pn skip = some cn) :
    ∃ h ∈ pn.children, getChainNode d h = some cn ∧ cn.isMainList = true ∧ ∀ s ∈ skip, s.hash ≠ cn.hash := by
  obtain ⟨h, member, hit⟩ := List.exists_of_findSome?_eq_some found
  cases stored : getChainNode d h with
  | none => simp [stored] at hit
  | some n =>
    simp only [stored, Bool.and_eq_true, decide_eq_true_eq, Option.ite_none_right_eq_some, Option.some.injEq] at hit
    obtain ⟨⟨mark, other⟩, eq⟩ := hit
    subst eq
    exact ⟨h, member, stored, mark, other⟩

omit [Sha512] in
theorem findMainListChild_none {d : Disk} {pn cn : ChainNode} {skip : Option ChainNode}
    (found : findMainListChild d pn skip = none) {h : Byte64} (member : h ∈ pn.children)
    (stored : getChainNode d h = some cn) (mark : cn.isMainList = true) : ∃ s ∈ skip, s.hash = cn.hash := by
  have miss := List.findSome?_eq_none_iff.mp found h member
  simp only [stored, mark, Bool.true_and, decide_eq_true_eq, ite_eq_right_iff, reduceCtorEq, imp_false,
    not_forall, not_not] at miss
  obtain ⟨s, member, eq⟩ := miss
  exact ⟨s, member, eq⟩

/-- The writes of the walk down the branch of `m` from `c`. -/
def DownWrite (par : Byte64 → Option Byte64) (m c : Byte64) (w : Key × Option Value) : Prop :=
  ∃ h n, Anc par m h ∧ Anc par h c ∧ w = (.chainNode h, some (.chainNode n))

/-- The walk down from `c` took the flag from the branch of `m`. -/
structure WalkedDown (par : Byte64 → Option Byte64) (m c : Byte64) (d d' : Disk) : Prop where
  flags : ∀ h, Flagged d' h ↔ Flagged d h ∧ ¬ (Anc par m h ∧ Anc par h c)
  same : SameNodes d d'
  writes : WritesOnly (DownWrite par m c) d d'

omit [Sha512] in
theorem flagged_resetMainList (d : Disk) (cn : ChainNode) (h : Byte64) :
    Flagged (d.write (.chainNode cn.hash) (some (.chainNode (cn.setMainList false)))) h ↔ Flagged d h ∧ h ≠ cn.hash := by
  refine (flagged_write d (cn.setMainList false) h).trans ?_
  by_cases eq : h = cn.hash
  · simp [eq, ChainNode.setMainList]
  · simp [eq, ChainNode.setMainList]

omit [Sha512] in
/-- On a branch, the flagged child of a node is the next node of the branch. -/
theorem findMainListChild_eq {d : Disk} {m : Byte64} (qn : ChainNode) (skip : Option ChainNode) (tree : ChainTree d g) (edges : parentOf d g = par)
    (stored : getChainNode d qn.hash = some qn) (branch : Anc par m qn.hash)
    (only : ∀ h cn, par h = some qn.hash → getChainNode d h = some cn → cn.isMainList = true →
      (∀ s ∈ skip, s.hash ≠ h) → Anc par m h)
    (flagged : ∀ h, Anc par m h → par h = some qn.hash → Flagged d h ∧ ∀ s ∈ skip, s.hash ≠ h) :
    (m = qn.hash ∧ findMainListChild d qn skip = none) ∨
      ∃ cn, findMainListChild d qn skip = some cn ∧ getChainNode d cn.hash = some cn ∧
        Anc par m cn.hash ∧ par cn.hash = some qn.hash := by
  cases found : findMainListChild d qn skip with
  | none =>
    refine Or.inl ⟨?_, rfl⟩
    by_contra ne
    obtain ⟨c, mc, edge⟩ := branch.child ne
    obtain ⟨⟨cn, storedC, mark⟩, other⟩ := flagged c mc edge
    have notGenesis : c ≠ g := by
      intro eq
      rw [← edges, eq] at edge
      simp [parentOf] at edge
    obtain ⟨p, storedP, member⟩ := tree.listed storedC notGenesis
    have parent : cn.parent = qn.hash := by
      rw [← edges, parentOf_of_found storedC notGenesis] at edge
      exact Option.some.inj edge
    rw [parent, stored] at storedP
    cases storedP
    obtain ⟨s, isSkip, eq⟩ := findMainListChild_none found member storedC mark
    apply other s isSkip
    rw [eq]
    exact tree.keyed storedC
  | some cn =>
    right
    obtain ⟨h, member, storedC, mark, other⟩ := findMainListChild_some found
    have key := tree.keyed storedC
    subst key
    obtain ⟨parent, notGenesis⟩ := tree.children stored member storedC
    have edge : par cn.hash = some qn.hash := by
      rw [← edges, parentOf_of_found storedC notGenesis, parent]
    exact ⟨cn, rfl, storedC, only cn.hash cn edge storedC mark other, edge⟩

omit [Sha512] in
/-- The walk down follows the branch of `m` to its end. -/
theorem resetMainListDown_spec (ranked : Ranked par rank) (fuel : Nat) {d : Disk} {m : Byte64} {cn : ChainNode}
    (tree : ChainTree d g) (edges : parentOf d g = par) (stored : getChainNode d cn.hash = some cn)
    (branch : Anc par m cn.hash) (flagged : ∀ h, Anc par m h → Anc par h cn.hash → Flagged d h)
    (only : ∀ h, Flagged d h → Anc par h cn.hash → Anc par m h) (enough : rank m < rank cn.hash + fuel) :
    WalkedDown par m cn.hash d (resetMainListDown d fuel (some cn)) := by
  induction fuel generalizing d cn with
  | zero =>
    have := branch.rank_le ranked
    omega
  | succ fuel ih =>
    have same : SameNodes d (d.write (.chainNode cn.hash) (some (.chainNode (cn.setMainList false)))) :=
      sameNodes_write (cn.setMainList false) stored rfl rfl
    have flags := flagged_resetMainList d cn
    have write := WritesOnly.write (P := DownWrite par m cn.hash)
      ⟨cn.hash, cn.setMainList false, branch, Anc.refl, rfl⟩ d
    have stored₁ : getChainNode (d.write (.chainNode cn.hash) (some (.chainNode (cn.setMainList false)))) cn.hash =
      some (cn.setMainList false) := getChainNode_write_self _ _ _
    show WalkedDown par m cn.hash d (resetMainListDown (d.write (.chainNode cn.hash)
      (some (.chainNode (cn.setMainList false)))) fuel (findMainListChild (d.write (.chainNode cn.hash)
      (some (.chainNode (cn.setMainList false)))) (cn.setMainList false) none))
    generalize d.write (.chainNode cn.hash) (some (.chainNode (cn.setMainList false))) = d₁
      at same flags write stored₁ ⊢
    have tree₁ := same.chainTree write.length_le tree
    have edges₁ := same.parentOf_eq.trans edges
    have next := findMainListChild_eq (cn.setMainList false) none tree₁ edges₁ stored₁ branch
      (by
        intro h n edge found mark _
        exact only h ((flags h).mp ⟨n, found, mark⟩).1 (Anc.single edge))
      (by
        intro h mh edge
        refine ⟨(flags h).mpr ⟨flagged h mh (Anc.single edge), fun eq => ?_⟩, by simp⟩
        subst eq
        exact ranked.not_anc_child edge Anc.refl)
    rcases next with ⟨eq, none'⟩ | ⟨nn, found, storedN, mn, edge⟩
    · -- `m` itself: the walk ends here.
      rw [none', resetMainListDown]
      refine ⟨fun h => ?_, same, write⟩
      rw [flags h, eq]
      refine and_congr_right fun _ => not_congr ⟨?_, fun ⟨mh, hm⟩ => hm.antisymm ranked mh⟩
      rintro rfl
      exact ⟨Anc.refl, Anc.refl⟩
    · rw [found]
      change par nn.hash = some cn.hash at edge
      have below : ∀ {h}, Anc par h nn.hash → Anc par h cn.hash := fun up => up.trans (Anc.single edge)
      have rest := ih tree₁ edges₁ storedN mn
        (by
          intro h mh hn
          refine (flags h).mpr ⟨flagged h mh (below hn), fun eq => ?_⟩
          subst eq
          exact ranked.not_anc_child edge hn)
        (fun h flag hn => only h ((flags h).mp flag).1 (below hn))
        (by
          have := ranked _ _ edge
          omega)
      refine ⟨fun h => ?_, same.trans rest.same, write.trans (rest.writes.mono ?_)⟩
      · rw [rest.flags h, flags h, and_assoc]
        refine and_congr_right fun flag => ?_
        rw [← not_or]
        refine not_congr ⟨?_, ?_⟩
        · rintro (rfl | ⟨mh, hn⟩)
          · exact ⟨branch, Anc.refl⟩
          · exact ⟨mh, below hn⟩
        · rintro ⟨mh, hc⟩
          by_cases eq : h = cn.hash
          · exact Or.inl eq
          · exact Or.inr ⟨mh, (Anc.through_child ranked mn edge mh).mpr ⟨hc, eq⟩⟩
      · rintro w ⟨h, n, mh, hn, eq⟩
        exact ⟨h, n, mh, below hn, eq⟩

/-! ## The switch -/

/-- The main list moved to the new node `x`: up from its parent `pn` to `qn`, then the node itself,
then down the branch of the old tip. -/
structure Switched (g m : Byte64) (d : Disk) (x pn : ChainNode) (d₁ d' : Disk) (qn last : ChainNode) : Prop where
  up : WalkedUp (parentOf d g) d pn x d₁ qn last
  nodes : SameNodes (d₁.write (.chainNode x.hash) (some (.chainNode x))) d'
  tree : ChainTree d' g
  main : MainListOf d' g x.hash
  down : WritesOnly (fun w => ∃ h k, w = (.chainNode h, some (.chainNode k)) ∧ ¬ Anc (parentOf d' g) x.hash h)
    (d₁.write (.chainNode x.hash) (some (.chainNode x))) d'

omit [Sha512] in
/-- With both branches flagged, the walk down from their meeting point `qn` leaves the branch of `x`. -/
theorem resetMainListDown_branch {d : Disk} {m x : Byte64} {qn last : ChainNode} (tree : ChainTree d g)
    (stored : getChainNode d qn.hash = some qn) (storedM : (getChainNode d m).isSome)
    (mq : Anc (parentOf d g) m qn.hash) (xq : Anc (parentOf d g) x qn.hash)
    (flags : ∀ h, Flagged d h ↔ Anc (parentOf d g) m h ∨ (Anc (parentOf d g) x h ∧ Anc (parentOf d g) h qn.hash))
    (first : ∀ h, Anc (parentOf d g) x h → Anc (parentOf d g) h qn.hash → h ≠ qn.hash → ¬ Anc (parentOf d g) m h)
    (onBranch : Anc (parentOf d g) x last.hash) (edge : parentOf d g last.hash = some qn.hash) :
    SameNodes d (resetMainListDown d (Database.calls d + 1) (findMainListChild d qn (some last))) ∧
      (∀ h, Flagged (resetMainListDown d (Database.calls d + 1) (findMainListChild d qn (some last))) h ↔
        Anc (parentOf d g) x h) ∧
      WritesOnly (fun w => ∃ h k, w = (.chainNode h, some (.chainNode k)) ∧ ¬ Anc (parentOf d g) x h) d
        (resetMainListDown d (Database.calls d + 1) (findMainListChild d qn (some last))) := by
  obtain ⟨rank, ranked, bound⟩ := tree.ranked
  have reorganise := fun h => ParentTree.anc_reorganise (b := h) ranked mq xq first
  -- The children of `qn` on the two branches are different nodes.
  have apart : ∀ {h}, parentOf d g h = some qn.hash → Anc (parentOf d g) x h → ¬ Anc (parentOf d g) m h := by
    intro h edgeH xh
    refine first h xh (Anc.single edgeH) fun eq => ?_
    rw [eq] at edgeH
    exact ranked.not_anc_child edgeH Anc.refl
  have next := findMainListChild_eq (m := m) qn (some last) tree rfl stored mq
    (by
      intro h cn edgeH found mark other
      rcases (flags h).mp ⟨cn, found, mark⟩ with mh | ⟨xh, -⟩
      · exact mh
      · exact absurd (Anc.child_unique ranked onBranch xh edge edgeH) (other last rfl))
    (by
      intro h mh edgeH
      refine ⟨(flags h).mpr (Or.inl mh), fun s isLast eq => ?_⟩
      cases isLast
      rw [← eq] at mh
      exact apart edge onBranch mh)
  rcases next with ⟨eq, none'⟩ | ⟨cn, found, storedC, mc, edgeC⟩
  · rw [none', resetMainListDown]
    refine ⟨SameNodes.refl d, fun h => ?_, WritesOnly.refl d⟩
    refine Iff.trans ?_ (reorganise h)
    rw [flags h, iff_self_and]
    rintro - ⟨mh, hq, ne⟩
    rw [eq] at mh
    exact ne (hq.antisymm ranked mh)
  · rw [found]
    have notX : ∀ {h}, Anc (parentOf d g) h cn.hash → Anc (parentOf d g) m h → ¬ Anc (parentOf d g) x h :=
      fun up mh xh => apart edgeC (xh.trans up) mc
    have walked := resetMainListDown_spec ranked (Database.calls d + 1) tree rfl storedC mc
      (fun h mh _ => (flags h).mpr (Or.inl mh))
      (by
        intro h flag up
        rcases (flags h).mp flag with mh | ⟨xh, -⟩
        · exact mh
        · exact absurd mc (apart edgeC (xh.trans up)))
      (by
        have := bound m storedM
        simp only [Disk.calls_eq]
        omega)
    refine ⟨walked.same, fun h => ?_, walked.writes.mono ?_⟩
    · refine Iff.trans ?_ (reorganise h)
      rw [walked.flags h, flags h]
      refine and_congr_right fun _ => not_congr (and_congr_right fun mh => ?_)
      exact Anc.through_child ranked mc edgeC mh
    · rintro w ⟨h, k, mh, up, eq⟩
      exact ⟨h, k, eq, notX up mh⟩

/-- **The switch of the main list.** If the flagged nodes are the ancestors of `m`, they are the
ancestors of the new node afterwards. -/
theorem switchMainList_spec {d : Disk} {m : Byte64} {n x pn : ChainNode} (tree : ChainTree d g)
    (main : MainListOf d g m) (stored : getChainNode d pn.hash = some pn) (mark : x = n.setMainList true)
    (fresh : getChainNode d x.hash = none) (leaf : x.children = []) (parent : x.parent = pn.hash)
    (member : x.hash ∈ pn.children)
    (only : ∀ q qn, getChainNode d q = some qn → x.hash ∈ qn.children → q = x.parent) :
    ∃ d₁ d' qn last, switchMainList d n pn = (d', .ok) ∧ Switched g m d x pn d₁ d' qn last := by
  obtain ⟨rank, ranked, bound⟩ := tree.ranked
  have storedP : (getChainNode d pn.hash).isSome := by rw [stored]; rfl
  have ne_of_stored : ∀ {a}, (getChainNode d a).isSome → a ≠ x.hash := by
    intro a storedA eq
    rw [eq, fresh] at storedA
    cases storedA
  obtain ⟨d₁, qn, last, runUp, up⟩ := setMainListUp_spec ranked (Database.calls d + 1) x tree rfl
    stored (tree.anc_genesis storedP) ((main.2 g).mpr (tree.anc_genesis main.1)) (by
      have := bound pn.hash storedP
      simp only [Disk.calls_eq]
      omega)
  have run : switchMainList d n pn =
      (resetMainListDown (d₁.write (.chainNode x.hash) (some (.chainNode x)))
        (Database.calls (d₁.write (.chainNode x.hash) (some (.chainNode x))) + 1)
        (findMainListChild (d₁.write (.chainNode x.hash) (some (.chainNode x))) qn (some last)), .ok) := by
    simp only [switchMainList, ← mark, runUp]
    rfl
  -- The new leaf in the tree that the walk up left.
  have tree₁ := up.same.chainTree up.writes.length_le tree
  have fresh₁ : getChainNode d₁ x.hash = none := by
    have := up.same.isSome (h := x.hash)
    rw [fresh] at this
    simpa using this
  obtain ⟨pn₁, stored₁, -, children, -⟩ := up.same.some stored
  have tree₂ := tree₁.addLeaf fresh₁ leaf (by rw [← parent] at stored₁; exact stored₁)
    (by rw [children]; exact member)
    (by
      intro q qn found listed
      obtain ⟨qn₀, found₀, -, children, -⟩ := up.same.symm.some found
      exact only q qn₀ found₀ (by rw [children]; exact listed))
  have edgeX := tree₁.parentOf_leaf fresh₁
  rw [parent] at edgeX
  have agree : ∀ y, y ≠ x.hash →
      parentOf (d₁.write (.chainNode x.hash) (some (.chainNode x))) g y = parentOf d g y := by
    intro y ne
    rw [← up.same.parentOf_eq]
    exact parentOf_write_of_ne ne
  have on : x.isMainList = true := by rw [mark]; rfl
  have flags₂ := flagged_write d₁ x
  have stored₂ := getChainNode_write_self d₁ x.hash x
  have read₂ : ∀ {h}, h ≠ x.hash →
      getChainNode (d₁.write (.chainNode x.hash) (some (.chainNode x))) h = getChainNode d₁ h :=
    fun ne => getChainNode_write_of_ne _ d₁ (by simpa using Ne.symm ne)
  suffices down : ∃ d', (SameNodes (d₁.write (.chainNode x.hash) (some (.chainNode x))) d' ∧
      (∀ h, Flagged d' h ↔ Anc (parentOf (d₁.write (.chainNode x.hash) (some (.chainNode x))) g) x.hash h) ∧
      WritesOnly (fun w => ∃ h k, w = (.chainNode h, some (.chainNode k)) ∧
        ¬ Anc (parentOf (d₁.write (.chainNode x.hash) (some (.chainNode x))) g) x.hash h)
        (d₁.write (.chainNode x.hash) (some (.chainNode x))) d') ∧ switchMainList d n pn = (d', .ok) by
    obtain ⟨d', ⟨same, flags, writes⟩, run⟩ := down
    refine ⟨d₁, d', qn, last, run, up, same, same.chainTree writes.length_le tree₂, ⟨?_, ?_⟩, ?_⟩
    · rw [same.isSome, stored₂]
      rfl
    · rw [same.parentOf_eq]
      exact flags
    · rw [same.parentOf_eq]
      exact writes
  generalize d₁.write (.chainNode x.hash) (some (.chainNode x)) = d₂
    at run tree₂ edgeX agree flags₂ stored₂ read₂ ⊢
  have noEdge := tree.no_edge_to_fresh fresh
  have old := fun {a b : Byte64} (ne : a ≠ x.hash) => ParentTree.anc_of_ne_leaf (b := b) noEdge agree ne
  have new := fun {b : Byte64} => ParentTree.anc_leaf (b := b) noEdge agree edgeX (ne_of_stored storedP)
  have mNe := ne_of_stored main.1
  have ancP : ∀ {h}, Anc (parentOf d g) pn.hash h → h ≠ x.hash :=
    fun up => ne_of_stored (tree.anc_stored storedP up)
  refine ⟨_, resetMainListDown_branch (m := m) (x := x.hash) tree₂ ?_ ?_ ?_ ?_ ?_ ?_ ?_ ?_, run⟩
  · rw [read₂ (ancP up.reached)]
    exact up.stored
  · rw [read₂ mNe, up.same.isSome]
    exact main.1
  · exact (old mNe).mpr ((main.2 qn.hash).mp up.flagged)
  · exact new.mpr (Or.inr up.reached)
  · intro h
    rw [flags₂ h, old mNe]
    by_cases eq : h = x.hash
    · subst eq
      simp only [on, if_true, true_iff]
      exact Or.inr ⟨Anc.refl, new.mpr (Or.inr up.reached)⟩
    · simp only [eq, if_false, up.flags h, main.2 h, old eq, new, false_or]
  · intro h xh hq ne
    rw [old mNe]
    rcases new.mp xh with eq | ph
    · rw [eq]
      exact fun mh => ne_of_stored (tree.anc_stored main.1 mh) rfl
    · rw [← main.2 h]
      exact up.first h ph ((old (ancP ph)).mp hq) ne
  · rcases up.last with ⟨eq, -⟩ | ⟨pl, -⟩
    · rw [eq]
      exact Anc.refl
    · exact new.mpr (Or.inr pl)
  · rcases up.last with ⟨eq, same⟩ | ⟨pl, edge⟩
    · rw [eq, same]
      exact edgeX
    · exact (agree last.hash (ancP pl)).trans edge

/-! ## The tables the switch writes to -/

/-- A chain node or an index entry. -/
def SwitchWrite (w : Key × Option Value) : Prop :=
  (∃ h n, w = (.chainNode h, some (.chainNode n))) ∨ ∃ id h, w = (.flatTx id, some (.hash h))

theorem markUp_writes (d : Disk) (pn : ChainNode) : WritesOnly SwitchWrite d (markUp d pn) := by
  have write := WritesOnly.write (P := SwitchWrite) (Or.inl ⟨pn.hash, pn.setMainList true, rfl⟩) d
  unfold markUp
  simp only
  split
  · rename_i b _
    refine write.trans ((registerTransactions_writes _ pn.hash b.txs).2.1.mono ?_)
    rintro w ⟨tx, -, rfl⟩
    exact Or.inr ⟨_, _, rfl⟩
  · exact write

theorem setMainListUp_writes (fuel : Nat) (d : Disk) (pn below : ChainNode) :
    WritesOnly SwitchWrite d (setMainListUp d fuel pn below).1 := by
  induction fuel generalizing d pn below with
  | zero => exact WritesOnly.refl d
  | succ fuel ih =>
    rw [setMainListUp_succ]
    split
    · exact WritesOnly.refl d
    · split
      · exact markUp_writes d pn
      · exact (markUp_writes d pn).trans (ih _ _ _)

omit [Sha512] in
theorem resetMainListDown_writes (fuel : Nat) (d : Disk) (cn : Option ChainNode) :
    WritesOnly SwitchWrite d (resetMainListDown d fuel cn) := by
  induction fuel generalizing d cn with
  | zero =>
    cases cn with
    | none => exact WritesOnly.refl d
    | some cn => exact WritesOnly.refl d
  | succ fuel ih =>
    cases cn with
    | none => exact WritesOnly.refl d
    | some cn =>
      exact (WritesOnly.write (Or.inl ⟨cn.hash, cn.setMainList false, rfl⟩) d).trans (ih _ _)

theorem switchMainList_writes (d : Disk) (n pn : ChainNode) :
    WritesOnly SwitchWrite d (switchMainList d n pn).1 := by
  have up := setMainListUp_writes (Database.calls d + 1) d pn (n.setMainList true)
  unfold switchMainList
  simp only
  generalize setMainListUp d (Database.calls d + 1) pn (n.setMainList true) = result at up ⊢
  obtain ⟨d₁, met⟩ := result
  cases met with
  | none => exact up
  | some met =>
    refine up.trans ((WritesOnly.write (Or.inl ⟨n.hash, n.setMainList true, rfl⟩) d₁).trans ?_)
    exact resetMainListDown_writes _ _ _

theorem switchMainList_ne_error (d : Disk) (n pn : ChainNode) (e : Err) : (switchMainList d n pn).2 ≠ .error e := by
  unfold switchMainList
  simp only
  split
  · simp
  · simp

end TrustNet
