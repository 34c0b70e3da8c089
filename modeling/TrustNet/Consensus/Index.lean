import TrustNet.Consensus.Transactions

/-!
# The transaction index

An index entry names a block that has the transaction. It is written when a block
comes to the main list and never taken back, so the index knows all transactions of
the main list. Which block an entry names is decided by the last block that was
registered: if a block off the main list repeats a transaction of one of its
ancestors, the entry can be left with the block that went away while the other stays.
-/

namespace TrustNet
set_option autoImplicit false
open WriteLog (WritesOnly Wrote)
open ParentTree (Anc)

/-! ## What a submission does to the index -/

theorem ChainInv.tip_eq {d : Disk} {g m m' : Byte64} (first : ChainInv d g m) (second : ChainInv d g m') : m = m' := by
  obtain ⟨rank, ranked, -⟩ := first.tree.ranked
  have up := (first.main.2 m').mp ((second.main.2 m').mpr Anc.refl)
  exact up.antisymm ranked ((second.main.2 m).mp ((first.main.2 m).mpr Anc.refl))

section Submission

variable [Sha512] {d d' : Disk} {g m m' h : Byte64} {child : Block}

/-- A block was added to a database with tip `m`; the last argument is the tip after it. -/
inductive Submission (d : Disk) (g m : Byte64) (child : Block) (d' : Disk) : Byte64 → Prop where
  | side (h : Byte64) (pn : ChainNode) (admitted : Admitted d child h pn) (extended : Extended d child h d')
      (index : ∀ id, hasTransaction d' id = hasTransaction d id) : Submission d g m child d' m
  | moved (h : Byte64) (pn : ChainNode) (admitted : Admitted d child h pn) (extended : Extended d child h d')
      (writes : WritesOnly (IndexWrite d' g h) d d')
      (wrote : ∀ {f id}, Anc (parentOf d' g) h f → (f = h ∨ ¬ Flagged d f) → id ∈ txIds d' f →
        Wrote d d' (.flatTx id, some (.hash f))) : Submission d g m child d' h

theorem AddResult.submission {c c' : BlockChainConsensus} {outcome : Outcome}
    (result : AddResult c d child c' d' outcome) (inv : Canonical d g m) (ok : outcome = .ok)
    (stored : ∀ h, child.hash = some h → (putBlock d child).1 = d.write (.block h) (some (.block child.toBlockSpec))) :
    ∃ m', Submission d g m child d' m' ∧ ChainInv d' g m' := by
  cases result with
  | unhashed hash => cases ok
  | duplicateBlock h hash found => cases ok
  | duplicateTx h hash fresh duplicate => cases ok
  | noParent h hash fresh missing => cases ok
  | side h pn admitted lighter =>
    exact ⟨m, .side h pn admitted (side_extended inv.chain admitted (stored h admitted.hash)) (side_index admitted.hash),
      side_inv inv.chain admitted (inv.only admitted.fresh _)⟩
  | rebaseFailed h pn msg admitted better missing => cases ok
  | moved h pn d₁ _ state _ admitted better rebased switched =>
    obtain ⟨-, d₂, qn, last, done⟩ := moved_switched inv.chain admitted (inv.only admitted.fresh _) rebased switched
    have extended := moved_extended inv.chain admitted (stored h admitted.hash) rebased done
    exact ⟨h, .moved h pn admitted extended (moved_indexWrites inv.chain admitted extended rebased done)
      (moved_wrote inv.chain admitted extended rebased done), done.tree, done.main⟩

/-! ## What every index has -/

/-- Entries name blocks that have the transaction, and every transaction of the branch of `m` has one. -/
structure IndexOf (d : Disk) (g m : Byte64) : Prop where
  sound : ∀ {id h}, hasTransaction d id = some h → id ∈ txIds d h
  known : ∀ {h id}, Anc (parentOf d g) m h → id ∈ txIds d h → (hasTransaction d id).isSome

theorem txIds_stored {id : Byte64} (member : id ∈ txIds d h) : (getSpec d h).isSome := by
  cases found : getSpec d h with
  | none => simp [txIds, found] at member
  | some spec => rfl

theorem IndexOf.of_records (index : IndexOf d g m) (same : SameRecords d d') : IndexOf d' g m where
  sound found := by
    rw [same.index] at found
    rw [txIds_congr (same.spec _)]
    exact index.sound found
  known up member := by
    rw [(SameNodes.of_eq same.chainNode).parentOf_eq] at up
    rw [txIds_congr (same.spec _)] at member
    rw [same.index]
    exact index.known up member

/-- The entry that a move of the tip leaves. -/
theorem IndexWrite.read {id : Byte64} (write : IndexWrite d' g h (.flatTx id, WriteLog.get d' (.flatTx id))) :
    ∃ b, Anc (parentOf d' g) h b ∧ id ∈ txIds d' b ∧ hasTransaction d' id = some b := by
  obtain ⟨b, up, member, eq⟩ := write id _ rfl
  exact ⟨b, up, member, hasTransaction_of_get eq⟩

namespace Submission

theorem extended (submission : Submission d g m child d' m') : ∃ h pn, Admitted d child h pn ∧ Extended d child h d' := by
  cases submission with
  | side h pn admitted extended same => exact ⟨h, pn, admitted, extended⟩
  | moved _ pn admitted extended writes wrote => exact ⟨m', pn, admitted, extended⟩

/-- Stored blocks keep their transactions. -/
theorem txIds (submission : Submission d g m child d' m') {q : Byte64} (stored : (getChainNode d q).isSome) :
    TrustNet.txIds d' q = TrustNet.txIds d q := by
  obtain ⟨h, pn, admitted, extended⟩ := submission.extended
  rw [extended.txIds, if_neg]
  rintro rfl
  rw [admitted.fresh] at stored
  cases stored

/-- Stored blocks keep their ancestors. -/
theorem anc (submission : Submission d g m child d' m') (tree : ChainTree d g) {q a : Byte64}
    (stored : (getChainNode d q).isSome) : Anc (parentOf d' g) q a ↔ Anc (parentOf d g) q a := by
  obtain ⟨h, pn, admitted, extended⟩ := submission.extended
  refine extended.anc_old tree admitted.fresh ?_
  rintro rfl
  rw [admitted.fresh] at stored
  cases stored

/-- Entries are overwritten, not removed. -/
theorem known (submission : Submission d g m child d' m') {id : Byte64} (entry : (hasTransaction d id).isSome) :
    (hasTransaction d' id).isSome := by
  cases submission with
  | side h pn admitted extended same =>
    rw [same]
    exact entry
  | moved _ pn admitted extended writes wrote =>
    rcases writes.get_cases (.flatTx id) with same | written
    · simp only [hasTransaction, Disk.get_eq, same] at entry ⊢
      exact entry
    · obtain ⟨b, -, -, read⟩ := written.read
      rw [read]
      rfl

/-- An entry is an old one, or names a block that has the transaction. -/
theorem entry (submission : Submission d g m child d' m') {id q : Byte64} (found : hasTransaction d' id = some q) :
    hasTransaction d id = some q ∨ id ∈ TrustNet.txIds d' q := by
  cases submission with
  | side h pn admitted extended same =>
    rw [same] at found
    exact Or.inl found
  | moved _ pn admitted extended writes wrote =>
    rcases writes.get_cases (.flatTx id) with same | written
    · left
      simp only [hasTransaction, Disk.get_eq, same] at found ⊢
      exact found
    · obtain ⟨b, -, member, read⟩ := written.read
      rw [found, Option.some.injEq] at read
      right
      rw [read]
      exact member

theorem indexOf (submission : Submission d g m child d' m') (inv : Canonical d g m) (chain : ChainInv d' g m')
    (index : IndexOf d g m) : IndexOf d' g m' where
  sound {id q} found := by
    rcases submission.entry found with old | member
    · have member := index.sound old
      rw [submission.txIds (by rw [inv.stored_iff]; exact txIds_stored member)]
      exact member
    · exact member
  known {q id} up member := by
    have old : Flagged d q → (getChainNode d q).isSome → (hasTransaction d' id).isSome := by
      intro flagged stored
      rw [submission.txIds stored] at member
      exact submission.known (index.known ((inv.chain.main.2 q).mp flagged) member)
    have branch : Anc (parentOf d' g) m q ↔ Anc (parentOf d g) m q := submission.anc inv.chain.tree inv.chain.main.1
    cases submission with
    | side h pn admitted extended same =>
      rw [branch] at up
      exact old ((inv.chain.main.2 q).mpr up) (inv.chain.tree.anc_stored inv.chain.main.1 up)
    | moved _ pn admitted extended writes wrote =>
      by_cases new : q = m' ∨ ¬ Flagged d q
      · obtain ⟨b, -, -, read⟩ := (writes.get_written (wrote up new member)).read
        rw [read]
        rfl
      · rw [not_or, not_not] at new
        exact old new.2 (inv.chain.tree.anc_stored inv.chain.main.1 ((inv.chain.main.2 q).mp new.2))

end Submission

/-! ## Branches without repetitions -/

/-- No transaction comes again on its branch, and the index is right. -/
structure ExactIndex (d : Disk) (g : Byte64) : Prop where
  disjoint : DisjointTxs d g
  indexed : Indexed d

theorem ExactIndex.of_records (index : ExactIndex d g) (same : SameRecords d d') : ExactIndex d' g where
  disjoint a b stored up ne := by
    rw [same.chainNode] at stored
    rw [(SameNodes.of_eq same.chainNode).parentOf_eq] at up
    rw [txIds_congr (same.spec a), txIds_congr (same.spec b)]
    exact index.disjoint stored up ne
  indexed h id flagged member := by
    rw [Flagged.congr same.chainNode] at flagged
    rw [txIds_congr (same.spec h)] at member
    rw [same.index]
    exact index.indexed flagged member

theorem Submission.exactIndex (submission : Submission d g m child d' m') (inv : ChainInv d g m) (chain : ChainInv d' g m')
    (index : ExactIndex d g) (new : NewTxs d g child.toBlockSpec) : ExactIndex d' g := by
  have disjoint : ∀ {h pn}, Admitted d child h pn → Extended d child h d' → DisjointTxs d' g :=
    fun admitted extended => index.disjoint.extended inv.tree admitted extended
      fun a up => index.indexed.apart new admitted.clean up
  cases submission with
  | side h pn admitted extended same =>
    exact ⟨disjoint admitted extended, index.indexed.side inv chain admitted extended same⟩
  | moved _ pn admitted extended writes wrote =>
    have apart := disjoint admitted extended
    exact ⟨apart, index.indexed.moved chain apart extended writes wrote⟩

end Submission

/-! ## Runs -/

section Runs

variable [Sha512] {s s' : System} {a : Action} {g m m' : Byte64}

/-- What a call does to the records of a node with tip `m`; the last argument is the tip after it. -/
inductive Change (s : System) (g m : Byte64) (a : Action) (s' : System) : Byte64 → Prop where
  | same (records : SameRecords s.db s'.db) : Change s g m a s' m
  | submitted (m' : Byte64) (i : Nat) (b child : Block) (d₁ : Disk) (submits : a.submits = true)
      (target : a.target = some i) (block : s.blocks i = some b) (parent : child.phash = b.phash)
      (txs : child.txs = b.txs) (records : SameRecords s.db d₁) (canonical : Canonical d₁ g m)
      (submission : Submission d₁ g m child s'.db m') : Change s g m a s' m'

theorem StepResult.change {o : Option Outcome} (result : StepResult s a s' o) (inv : Canonical s.db g m)
    (synced : ∀ c, s.engine = some c → Synced c s.db m)
    (fine : a.submits = true → ∀ msg, o ≠ some (.error (.core .notFound msg))) :
    ∃ m', Change s g m a s' m' ∧ Canonical s'.db g m' := by
  cases result with
  | quiet s' o steps engine blocks contents =>
    have same := SameRecords.of_steps steps
    exact ⟨m, .same same, inv.of_records same steps.length_le⟩
  | added i c c' b child ws₀ ws order parent d₁ d' outcome submits target engine block state cleaned valid hashed root
      result =>
    have same := hashed.records
    have canonical := inv.of_records same hashed.persisted.steps.length_le
    obtain ⟨m', addition, canonical', -⟩ := added_canonical inv (synced c engine) valid hashed root result
      fun msg eq => fine submits msg (by rw [eq])
    rw [submitted_db]
    refine ⟨m', ?_, canonical'⟩
    by_cases ok : outcome = .ok
    · obtain ⟨m'', submission, chain⟩ := result.submission canonical ok fun h hash => hashed.putBlock root d₁ hash
      rw [← chain.tip_eq canonical'.chain]
      exact .submitted m'' i b child d₁ submits target block hashed.fields.1 hashed.fields.2.1 same canonical
        (by rw [submitted_db]; exact submission)
    · cases addition with
      | refused _ failed => exact .same (by rw [submitted_db]; exact same)
      | side h _ hash fresh extended worse => exact absurd rfl ok
      | moved _ _ _ hash fresh extended better => exact absurd rfl ok
  | stopped =>
    have steps : TrieSteps (fun _ => False) s.db (freshDisk s.db) := freshDisk_steps s.db
    exact ⟨m, .same (freshDisk_records s.db), inv.of_records (freshDisk_records s.db) steps.length_le⟩
  | restarted h spec d' t gn minerId restarts tip found rebased =>
    have steps : TrieSteps (fun _ => False) s.db d' := rebased.fresh_steps
    have same := SameRecords.of_steps steps
    exact ⟨m, .same same, inv.of_records same steps.length_le⟩

theorem Change.indexOf (change : Change s g m a s' m') (canonical : Canonical s'.db g m') (index : IndexOf s.db g m) :
    IndexOf s'.db g m' := by
  cases change with
  | same records => exact index.of_records records
  | submitted m' i b child d₁ submits target block parent txs records canonical₁ submission =>
    exact submission.indexOf canonical₁ canonical.chain (index.of_records records)

/-- The call does not fail in the engine's `Rebase`, and a block that it submits repeats no transaction of
an ancestor off the main list. -/
def NewTxsStep (g : Byte64) (s : System) (a : Action) : Prop :=
  RebaseOk s a ∧
    (a.submits = true → ∀ i b, a.target = some i → s.blocks i = some b → NewTxs s.db g b.toBlockSpec)

theorem Change.exactIndex (change : Change s g m a s' m') (canonical : Canonical s'.db g m') (step : NewTxsStep g s a)
    (index : ExactIndex s.db g) : ExactIndex s'.db g := by
  cases change with
  | same records => exact index.of_records records
  | submitted m' i b child d₁ submits target block parent txs records canonical₁ submission =>
    exact submission.exactIndex canonical₁.chain canonical.chain (index.of_records records)
      ((step.2 submits i b target block).of_records records parent txs)

theorem bootDisk_hasTransaction (genesisTime now : UInt64) (id : Byte64) :
    hasTransaction (bootDisk genesisTime now) id = none := by
  unfold bootDisk initDisk
  rw [hasTransaction_write_of_ne _ _ (by simp), hasTransaction_write_of_ne _ _ (by simp),
    hasTransaction_write_of_ne _ _ (by simp)]
  rfl

theorem indexOf_boot (genesisTime now : UInt64) : IndexOf (bootDisk genesisTime now) g m where
  sound found := by
    rw [bootDisk_hasTransaction] at found
    cases found
  known _ member := by
    rw [bootDisk_txIds] at member
    cases member

theorem exactIndex_boot (genesisTime now : UInt64) : ExactIndex (bootDisk genesisTime now) g where
  disjoint a b _ _ _ := by
    rw [bootDisk_txIds]
    exact List.disjoint_nil_left _
  indexed h id _ member := by
    rw [bootDisk_txIds] at member
    cases member

/-- The index of a node, at whichever tip it is. -/
theorem Reached.indexOf (reached : Reached RebaseOk g s) (canonical : Canonical s.db g m) : IndexOf s.db g m := by
  refine (reached.invariant (fun s => OnTip g s ∧ ∀ m, Canonical s.db g m → IndexOf s.db g m)
    (fun genesisTime now minerId started genesis => ?_) (fun s a ready inv fine => ?_)).2.2 m canonical
  · refine ⟨genesis ▸ onTip_boot started, fun m _ => ?_⟩
    rw [(boot_of_started started).2]
    exact indexOf_boot genesisTime now
  · refine ⟨onTip_next ready inv.1 fine, fun m'' canonical'' => ?_⟩
    obtain ⟨m, canonical, synced⟩ := inv.1
    obtain ⟨m', change, canonical'⟩ := (step_result ready a).change canonical synced fine.outcome
    rw [canonical''.chain.tip_eq canonical'.chain]
    exact change.indexOf canonical' (inv.2 m canonical)

theorem Reached.exactIndex (reached : Reached (NewTxsStep g) g s) : ExactIndex s.db g := by
  refine (reached.invariant (fun s => OnTip g s ∧ ExactIndex s.db g)
    (fun genesisTime now minerId started genesis => ?_) (fun s a ready inv step => ?_)).2.2
  · refine ⟨genesis ▸ onTip_boot started, ?_⟩
    rw [(boot_of_started started).2]
    exact exactIndex_boot genesisTime now
  · obtain ⟨m, canonical, synced⟩ := inv.1
    obtain ⟨m', change, canonical'⟩ := (step_result ready a).change canonical synced step.1.outcome
    exact ⟨onTip_next ready inv.1 step.1, change.exactIndex canonical' step inv.2⟩

end Runs

/-! ## The status of a transaction -/

/-- `TransactionStatus` returns the block of a flagged entry. -/
theorem transactionStatus_ok {d : Disk} {t : Byte64} {b : Block} {n : Option ChainNode} :
    transactionStatus d t = (some b, n, none) ↔
      ∃ h, hasTransaction d t = some h ∧ Flagged d h ∧ getBlock d h = some b ∧ getChainNode d h = n := by
  unfold transactionStatus
  constructor
  · intro status
    split at status
    · cases status
    · rename_i h found
      split at status
      · cases status
      · rename_i node foundNode
        split at status
        · cases status
        · rename_i mark
          split at status
          · cases status
          · rename_i block foundBlock
            cases status
            exact ⟨h, found, ⟨node, foundNode, by simpa using mark⟩, foundBlock, foundNode⟩
  · rintro ⟨h, found, ⟨node, foundNode, mark⟩, foundBlock, rfl⟩
    simp [found, foundNode, mark, foundBlock]

/-! ## An entry that was left behind -/

namespace Worked

attribute [local instance] workedSha512

/-- A child of `left`. -/
def leftChild : BlockSpec := { left with phash := digest leftDigest, depth := 2, wt := 2 }

/-- A child of `once` that has the transaction again. -/
def again : BlockSpec := { once with phash := digest onceDigest, depth := 2, wt := 2 }

/-- A child of `once` without transactions. -/
def branch : BlockSpec :=
  { left with phash := digest onceDigest, depth := 2, wt := 3, uncles := [digest leftDigest] }

/-- A child of `again`. -/
def againChild : BlockSpec :=
  { left with phash := digest againDigest, depth := 3, wt := 4, uncles := [digest leftDigest] }

/-- A child of `branch`. -/
def branchChild : BlockSpec :=
  { left with phash := digest branchDigest, depth := 3, wt := 5, uncles := [digest leftDigest] }

/-- The main list moves to `once` and `branch`, to `once` and `again`, and back. -/
def goBack : List Action := [left, leftChild, once, again, branch, againChild, branchChild].flatMap deliver

/-- The entry names `again`, so `TransactionStatus` does not find the transaction that `once` has. -/
theorem goBack_status :
    let s := (System.boot 1 1 [7]).run goBack
    Reached RebaseOk (genesisHash 1 1) s ∧ Flagged s.db (digest onceDigest) ∧
      transfer.id ∈ txIds s.db (digest onceDigest) ∧
      (transactionStatus s.db transfer.id).1 = none ∧
      (transactionStatus s.db transfer.id).2.2 = some (.core .txNotApplied "transaction not on canonical chain") := by
  have run : let s := (System.boot 1 1 [7]).run goBack
      System.Along RebaseOk (System.boot 1 1 [7]) goBack ∧
        (getChainNode s.db (digest onceDigest)).map (·.isMainList) = some true ∧
        transfer.id ∈ txIds s.db (digest onceDigest) ∧
        (transactionStatus s.db transfer.id).1 = none ∧
        (transactionStatus s.db transfer.id).2.2 = some (.core .txNotApplied "transaction not on canonical chain") := by
    decide +kernel
  obtain ⟨fine, mark, rest⟩ := run
  exact ⟨⟨1, 1, [7], goBack, started, rfl, fine, rfl⟩, Option.map_eq_some_iff.mp mark, rest⟩

end Worked

/-! ## The index is exact -/

section Exact

variable [Sha512] {g : Byte64} {s : System}

/-- **The index is exact**, in every run whose submitted blocks repeat no transaction of an ancestor off
the main list: `TransactionStatus` finds the transactions of the main list, in blocks of the main list. -/
theorem transactionStatus_exact (reached : Reached (NewTxsStep g) g s) (t : Byte64) :
    ((∃ b n, transactionStatus s.db t = (some b, n, none)) ↔ ∃ h, Flagged s.db h ∧ t ∈ txIds s.db h) ∧
    ∀ b n, transactionStatus s.db t = (some b, n, none) →
      ∃ h, b.hash = some h ∧ Flagged s.db h ∧ getBlock s.db h = some b ∧ t ∈ b.txIds := by
  have fine : Reached RebaseOk g s := reached.mono fun s a step => step.1
  obtain ⟨m, canonical, -⟩ := fine.onTip
  have found : ∀ {b n}, transactionStatus s.db t = (some b, n, none) →
      ∃ h, b.hash = some h ∧ Flagged s.db h ∧ getBlock s.db h = some b ∧ t ∈ b.txIds := by
    intro b n status
    obtain ⟨h, entry, flagged, block, -⟩ := transactionStatus_ok.mp status
    have member := (fine.indexOf canonical).sound entry
    rw [getBlock] at block
    obtain ⟨spec, stored, rfl⟩ := Option.map_eq_some_iff.mp block
    rw [txIds_of_spec stored] at member
    exact ⟨h, rfl, flagged, by rw [getBlock, stored]; rfl, member⟩
  refine ⟨⟨?_, ?_⟩, fun b n status => found status⟩
  · rintro ⟨b, n, status⟩
    obtain ⟨h, -, flagged, block, member⟩ := found status
    rw [getBlock] at block
    obtain ⟨spec, stored, rfl⟩ := Option.map_eq_some_iff.mp block
    exact ⟨h, flagged, by rw [txIds_of_spec stored]; exact member⟩
  · rintro ⟨h, flagged, member⟩
    obtain ⟨spec, stored⟩ := Option.isSome_iff_exists.mp (txIds_stored member)
    refine ⟨{ spec.toBlock with hash := some h }, getChainNode s.db h, transactionStatus_ok.mpr ⟨h, ?_, flagged, ?_, rfl⟩⟩
    · exact reached.exactIndex.indexed flagged member
    · rw [getBlock, stored]
      rfl

end Exact

section Worked

attribute [local instance] workedSha512

theorem transactionStatus_exact_once :
    let s := (System.boot 1 1 [7]).run (Worked.deliver Worked.once)
    (∃ h, Flagged s.db h ∧ Worked.transfer.id ∈ txIds s.db h) ∧
      ∃ b n, transactionStatus s.db Worked.transfer.id = (some b, n, none) := by
  intro s
  have run : System.Along (fun s a => RebaseOk s a ∧ Worked.onMain s a = true) (System.boot 1 1 [7])
        (Worked.deliver Worked.once) ∧
      (getChainNode s.db (digest onceDigest)).map (·.isMainList) = some true ∧
      Worked.transfer.id ∈ txIds s.db (digest onceDigest) := by decide +kernel
  obtain ⟨fits, mark, member⟩ := run
  have main : ∃ h, Flagged s.db h ∧ Worked.transfer.id ∈ txIds s.db h :=
    ⟨digest onceDigest, Option.map_eq_some_iff.mp mark, member⟩
  have start : Reached RebaseOk (genesisHash 1 1) (System.boot 1 1 [7]) := ⟨1, 1, [7], [], Worked.started, rfl, trivial, rfl⟩
  have fresh : System.Along (TxStep Set.univ (genesisHash 1 1)) (System.boot 1 1 [7]) (Worked.deliver Worked.once) :=
    Worked.txStep_along start fits fun _ _ => trivial
  have along : System.Along (NewTxsStep (genesisHash 1 1)) (System.boot 1 1 [7]) (Worked.deliver Worked.once) :=
    (fits.and fresh).mono fun s a step => ⟨step.1.1, fun submits i b target block => (step.2.2 submits i b target block).2⟩
  have reached : Reached (NewTxsStep (genesisHash 1 1)) (genesisHash 1 1) s :=
    ⟨1, 1, [7], Worked.deliver Worked.once, Worked.started, rfl, along, rfl⟩
  exact ⟨main, (transactionStatus_exact reached Worked.transfer.id).1.mpr main⟩

end Worked

end TrustNet
