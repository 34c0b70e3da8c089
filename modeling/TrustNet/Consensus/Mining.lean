import TrustNet.Consensus.Index
import TrustNet.Consensus.InHand

/-!
# Mining

A candidate is made on the tip and filled with transactions that the index does not
have. It is mined later, when other blocks may have been accepted. `mineCandidateBlock`
adds it wherever its parent is: it reports success also for a candidate that a block
of its weight, or of a higher one, has overtaken, and which is stored off the main list.
-/

namespace TrustNet
set_option autoImplicit false
open ParentTree (Anc)

section Model

variable [Sha512]

/-- The block that the callback of a mining call receives, if it receives no error. -/
def System.mined (s : System) (i : Nat) (apprvr : Option PowApprover) (order : List Entry) (tries : Nat) :
    Option Block :=
  match s.engine, s.blocks i with
  | some c, some b =>
    if b.isNetworkBlock = false ∧ order.Perm b.vars.entries then
      match mineCandidateBlock c s.db (System.withApprover b apprvr) order tries with
      | (_, _, child, .ok) => some child
      | _ => none
    else none
  | _, _ => none

end Model

/-! ## An overtaken candidate -/

namespace Worked

attribute [local instance] workedSha512

/-- A candidate is made and filled, two network blocks are accepted, and then the candidate is mined. -/
def overtake : List Action :=
  [.candidate 1 1, .addTransaction 1 transfer] ++ deliver right ++ deliver rightChild

theorem overtaken_mined :
    let s := (System.boot 1 1 [7]).run overtake
    let s' := s.next (.mine 1 none [] 1)
    Reached RebaseOk (genesisHash 1 1) s ∧ (s.mined 1 none [] 1).map (·.hash) = some (some (digest ownDigest)) ∧
      (s.mined 1 none [] 1).map (·.txs) = some [transfer] ∧
      s'.engine.map (·.tip.hash) = some (some (digest rightChildDigest)) ∧
      (transactionStatus s'.db transfer.id).1 = none := by
  have run : let s := (System.boot 1 1 [7]).run overtake
      let s' := s.next (.mine 1 none [] 1)
      System.Along RebaseOk (System.boot 1 1 [7]) overtake ∧
        (s.mined 1 none [] 1).map (·.hash) = some (some (digest ownDigest)) ∧
        (s.mined 1 none [] 1).map (·.txs) = some [transfer] ∧
        s'.engine.map (·.tip.hash) = some (some (digest rightChildDigest)) ∧
        (transactionStatus s'.db transfer.id).1 = none := by decide +kernel
  obtain ⟨fine, rest⟩ := run
  exact ⟨⟨1, 1, [7], overtake, started, rfl, fine, rfl⟩, rest⟩

end Worked

/-! ## The transactions of a block in hand -/

section Hand

variable [Sha512] {s s' : System} {a : Action} {g m m' : Byte64} {b : Block}

/-- The transactions of the ancestors are in the index, and the block has none of them. -/
structure FreshHand (d : Disk) (g : Byte64) (b : BlockSpec) : Prop where
  stored : (getChainNode d b.phash).isSome
  known : ∀ {a id}, Anc (parentOf d g) b.phash a → id ∈ txIds d a → (hasTransaction d id).isSome
  apart : ∀ {a}, Anc (parentOf d g) b.phash a → b.txIds.Disjoint (txIds d a)

theorem FreshHand.of_records {d d' : Disk} {b : BlockSpec} (fresh : FreshHand d g b) (same : SameRecords d d') :
    FreshHand d' g b where
  stored := by
    rw [same.chainNode]
    exact fresh.stored
  known up member := by
    rw [(SameNodes.of_eq same.chainNode).parentOf_eq] at up
    rw [txIds_congr (same.spec _)] at member
    rw [same.index]
    exact fresh.known up member
  apart up := by
    rw [(SameNodes.of_eq same.chainNode).parentOf_eq] at up
    rw [txIds_congr (same.spec _)]
    exact fresh.apart up

theorem FreshHand.submitted {d d' : Disk} {child : Block} {b : BlockSpec} (fresh : FreshHand d g b)
    (tree : ChainTree d g) (submission : Submission d g m child d' m') : FreshHand d' g b := by
  have old : ∀ {a}, Anc (parentOf d' g) b.phash a → Anc (parentOf d g) b.phash a ∧ txIds d' a = txIds d a := by
    intro a up
    rw [submission.anc tree fresh.stored] at up
    exact ⟨up, submission.txIds (tree.anc_stored fresh.stored up)⟩
  refine ⟨?_, fun {a id} up member => ?_, fun {a} up => ?_⟩
  · obtain ⟨h, pn, -, extended⟩ := submission.extended
    exact (extended.isSome _).mpr (Or.inr fresh.stored)
  · obtain ⟨up, same⟩ := old up
    rw [same] at member
    exact submission.known (fresh.known up member)
  · obtain ⟨up, same⟩ := old up
    rw [same]
    exact fresh.apart up

theorem Change.freshHand {b : BlockSpec} (change : Change s g m a s' m') (fresh : FreshHand s.db g b) :
    FreshHand s'.db g b := by
  cases change with
  | same records => exact fresh.of_records records
  | submitted m' i b₀ child d₁ submits target block parent txs records canonical submission =>
    exact (fresh.of_records records).submitted canonical.chain.tree submission

/-- The work on a block keeps its parent and transactions. -/
theorem FreshHand.congr {d : Disk} {b b' : BlockSpec} (fresh : FreshHand d g b) (parent : b'.phash = b.phash)
    (txs : b'.txs = b.txs) : FreshHand d g b' := by
  obtain ⟨stored, known, apart⟩ := fresh
  rw [← parent] at stored known apart
  refine ⟨stored, known, fun up => ?_⟩
  rw [BlockSpec.txIds, txs]
  exact apart up

/-- A transaction that the index does not have is none of an ancestor. -/
theorem FreshHand.filled {d : Disk} {b : BlockSpec} {tx : Transaction} (fresh : FreshHand d g b)
    (unknown : hasTransaction d tx.id = none) : FreshHand d g { b with txs := b.txs ++ [tx] } := by
  refine ⟨fresh.stored, fresh.known, fun {a} up id member memberA => ?_⟩
  simp only [BlockSpec.txIds, List.map_append, List.mem_append, List.map_cons, List.map_nil, List.mem_singleton] at member
  rcases member with member | rfl
  · exact fresh.apart up member memberA
  · have entry := fresh.known up memberA
    rw [unknown] at entry
    cases entry

/-- A candidate is a child of the tip, without transactions. -/
theorem FreshHand.candidate {c : BlockChainConsensus} {now : UInt64} {d' : Disk} (ready : SystemReady s)
    (canonical : Canonical s.db g m) (synced : Synced c s.db m) (index : IndexOf s.db g m)
    (made : newCandidateBlock c s.db now = (d', some b)) : FreshHand s.db g b.toBlockSpec := by
  rcases newCandidateBlock_cases ready.log c now synced.hash with ⟨-, eq⟩ | ⟨d₁, t, miners, rebased, eq⟩
  · rw [made] at eq
    cases eq
  · rw [made] at eq
    cases eq
    exact ⟨canonical.chain.main.1, index.known, fun _ => List.disjoint_nil_left _⟩

/-- **The candidates in hand have no transaction of an ancestor.** -/
theorem Reached.freshHand (reached : Reached RebaseOk g s) {j : Nat} (block : s.blocks j = some b)
    (own : b.isNetworkBlock = false) : FreshHand s.db g b.toBlockSpec := by
  refine (reached.invariant (fun s => Reached RebaseOk g s ∧
      ∀ j b, s.blocks j = some b → b.isNetworkBlock = false → FreshHand s.db g b.toBlockSpec)
    (fun genesisTime now minerId started genesis => ?_) (fun s a ready inv fine => ?_)).2.2 j b block own
  · refine ⟨⟨genesisTime, now, minerId, [], started, genesis, trivial, rfl⟩, fun j b found => ?_⟩
    rw [(boot_of_started started).2] at found
    cases found
  · obtain ⟨reached, hands⟩ := inv
    have one : System.Along RebaseOk s [a] := ⟨fine, trivial⟩
    refine ⟨reached.run one, fun j b' found own => ?_⟩
    obtain ⟨m, canonical, synced⟩ := reached.onTip
    obtain ⟨m', change, -⟩ := (step_result ready a).change canonical synced fine.outcome
    refine change.freshHand ?_
    cases hand_after ready found with
    | decoded spec call wire network =>
      rw [own] at network
      cases network
    | candidate now c d' call engine made =>
      exact FreshHand.candidate ready canonical (synced c engine) (reached.indexOf canonical) made
    | filled b tx block call unknown wire network =>
      rw [wire]
      exact (hands j b block (network.symm.trans own)).filled unknown
    | worked b block same =>
      obtain ⟨state, nonce, wire⟩ := same.wire
      rw [wire]
      exact (hands j b block (same.network.symm.trans own)).congr rfl rfl

end Hand

/-! ## Success -/

section Success

variable [Sha512] {s : System} {g m m' : Byte64} {c : BlockChainConsensus} {b child : Block} {i : Nat}
  {apprvr : Option PowApprover} {order : List Entry} {tries : Nat}

/-- A mining call that succeeded added the block. -/
theorem mined_added (ready : SystemReady s) (engine : s.engine = some c) (block : s.blocks i = some b)
    (mined : s.mined i apprvr order tries = some child) :
    b.isNetworkBlock = false ∧ ∃ parent inputs d₁ ws₀ ws c' d', Valid s.db b.toBlockSpec parent ∧ b.worldState = some ws₀ ∧
      Hashed s.db b ws₀ order inputs d₁ child ws ∧ child.state = ws.rootHash ∧ AddResult c d₁ child c' d' .ok ∧
      s.next (.mine i apprvr order tries) = (s.submitted i c' d' child .ok).1 := by
  have step : b.isNetworkBlock = false ∧ order.Perm b.vars.entries → ∀ {c' d' b' outcome},
      mineCandidateBlock c s.db (System.withApprover b apprvr) order tries = (c', d', b', outcome) →
      s.next (.mine i apprvr order tries) = (s.submitted i c' d' b' outcome).1 := by
    intro guard c' d' b' outcome mines
    simp only [System.next, System.step, System.onBlock, engine, block, if_pos guard, mines]
  simp only [System.mined, engine, block] at mined
  split at mined
  · rename_i guard
    refine ⟨guard.1, ?_⟩
    obtain ⟨ws₀, state, ok⟩ := ready.blocks i b block
    rcases mineCandidateBlock_cases ready.log state ok (ready.engine c engine).1 guard.1 apprvr order tries with
      ⟨e, miners, pow, -, eq⟩ | ⟨parent, d₁, child', ws, valid, hashed, ⟨e, -, eq⟩ | ⟨root, c', d', outcome, result, eq⟩⟩
    · simp only [eq] at mined
      cases mined
    · simp only [eq] at mined
      cases mined
    · rw [eq] at mined
      cases outcome with
      | ok =>
        cases mined
        exact ⟨parent, _, d₁, ws₀, ws, c', d', valid, state, hashed, root, result, step guard eq⟩
      | error e => cases mined
      | panic => cases mined
  · cases mined

/-- The entries of a new tip name it, if its ancestors have none of its transactions. -/
theorem Submission.own_entry {d d' : Disk} (submission : Submission d g m child d' m') (chain : ChainInv d g m)
    (fresh : FreshHand d g child.toBlockSpec) (hash : child.hash = some m') {id : Byte64}
    (member : id ∈ child.txIds) : hasTransaction d' id = some m' := by
  cases submission with
  | side h pn admitted extended same =>
    rw [admitted.hash, Option.some.injEq] at hash
    have stored := chain.main.1
    rw [← hash, admitted.fresh] at stored
    cases stored
  | moved _ pn admitted extended writes wrote =>
    have own : id ∈ TrustNet.txIds d' m' := by
      rw [extended.txIds, if_pos rfl]
      exact member
    obtain ⟨b, up, memberB, read⟩ := (writes.get_written (wrote Anc.refl (Or.inl rfl) own)).read
    rw [read]
    by_contra ne
    have ne : b ≠ m' := fun eq => ne (by rw [eq])
    have up := ((extended.anc_new chain.tree admitted.fresh fresh.stored).mp up).resolve_left ne
    rw [extended.txIds, if_neg ne] at memberB
    exact fresh.apart up member memberB

/-- The mined block had no rival: it is heavier than all blocks that were stored, the engine works on it,
and its transactions are found in it. -/
structure Included (s s' : System) (child : Block) : Prop where
  heavier : ∀ h spec, getSpec s.db h = some spec → spec.wt < child.wt
  tip : child.hash.isSome ∧ ∃ c', s'.engine = some c' ∧ c'.tip.hash = child.hash
  status : ∀ tx ∈ child.txs, ∃ b n, transactionStatus s'.db tx.id = (some b, n, none) ∧ b.hash = child.hash

/-- **Success means inclusion exactly for candidates that were not overtaken**: the weight of the tip is
below the weight of the candidate when it is mined. -/
theorem mined_included_iff (reached : Reached RebaseOk g s) (engine : s.engine = some c) (block : s.blocks i = some b)
    (mined : s.mined i apprvr order tries = some child) :
    Included s (s.next (.mine i apprvr order tries)) child ↔ c.weight < b.wt := by
  obtain ⟨own, parent, inputs, d₁, ws₀, ws, c', d', valid, -, hashed, root, result, next⟩ :=
    mined_added reached.ready engine block mined
  obtain ⟨m, canonical, synced⟩ := reached.onTip
  have synced := synced c engine
  obtain ⟨state, nonce, wire⟩ := hashed.workedOn.wire
  have weight : child.wt = b.wt := by rw [wire]
  constructor
  · intro included
    rw [synced.weight, ← weight]
    exact included.heavier m c.tip.toBlockSpec synced.spec
  · intro lighter
    have same := hashed.records
    have before := canonical.of_records same hashed.persisted.steps.length_le
    have fresh : FreshHand d₁ g child.toBlockSpec := by
      rw [wire]
      exact ((reached.freshHand block own).of_records same).congr rfl rfl
    obtain ⟨m', addition, canonical', synced'⟩ := added_canonical canonical synced valid hashed root result (by simp)
    obtain ⟨m'', submission, chain⟩ := result.submission before rfl fun h hash => hashed.putBlock root d₁ hash
    have eq := chain.tip_eq canonical'.chain
    subst eq
    -- A heavier block moves the tip.
    have hash : child.hash = some m'' := by
      cases addition with
      | side h _ hash fresh extended worse =>
        rw [weight] at worse
        exact absurd lighter (UInt64.not_lt.mpr (weight_le_of_forkRank worse))
      | moved _ _ _ hash fresh extended better => exact hash
      | refused _ failed => exact absurd rfl failed
    have engine' : (s.next (.mine i apprvr order tries)).engine = some c' := by
      rw [next]
      rfl
    have db' : (s.next (.mine i apprvr order tries)).db = d' := by rw [next, submitted_db]
    refine ⟨fun h spec found => ?_, ⟨by rw [hash]; rfl, c', engine', by rw [synced'.hash, hash]⟩, fun tx member => ?_⟩
    · rw [weight]
      refine UInt64.lt_of_le_of_lt ?_ lighter
      rw [synced.weight]
      exact weight_le_of_forkRank (canonical.best synced.spec found)
    · rw [db']
      have entry := submission.own_entry before.chain fresh hash (List.mem_map.mpr ⟨tx, member, rfl⟩)
      refine ⟨{ c'.tip.toBlockSpec.toBlock with hash := some m'' }, getChainNode d' m'',
        transactionStatus_ok.mpr ⟨m'', entry, (chain.main.2 m'').mpr Anc.refl, ?_, rfl⟩, hash.symm⟩
      rw [getBlock, synced'.spec]
      rfl

end Success

section Worked

attribute [local instance] workedSha512

/-- A candidate is made and filled. -/
def Worked.fill : List Action := [.candidate 1 1, .addTransaction 1 Worked.transfer]

theorem mined_included_fill :
    let s := (System.boot 1 1 [7]).run Worked.fill
    ∃ child, s.mined 1 none [] 1 = some child ∧ Included s (s.next (.mine 1 none [] 1)) child := by
  intro s
  have run : System.Along RebaseOk (System.boot 1 1 [7]) Worked.fill ∧
      s.engine.map (·.weight) = some 0 ∧ (s.blocks 1).map (·.wt) = some 1 ∧ (s.mined 1 none [] 1).isSome := by
    decide +kernel
  obtain ⟨fine, tip, own, success⟩ := run
  have reached : Reached RebaseOk (genesisHash 1 1) s := ⟨1, 1, [7], Worked.fill, Worked.started, rfl, fine, rfl⟩
  obtain ⟨c, engine, weight⟩ := Option.map_eq_some_iff.mp tip
  obtain ⟨b, block, weightB⟩ := Option.map_eq_some_iff.mp own
  obtain ⟨child, mined⟩ := Option.isSome_iff_exists.mp success
  exact ⟨child, mined, (mined_included_iff reached engine block mined).mpr (by rw [weight, weightB]; decide)⟩

end Worked

end TrustNet
