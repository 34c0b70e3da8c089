import TrustNet.Consensus.Availability
import TrustNet.Consensus.Index
import TrustNet.Consensus.Peers
import TrustNet.Consensus.Replay

/-!
# The order in which blocks arrive

The same blocks come to two nodes with the same genesis, in two orders, each block
after its parent and its uncles. Whether a block is valid depends on its ancestors and
its uncles only, and so does the state of its replay. Whether it is a duplicate of a
transaction depends on the blocks that are on the main list at that time. The nodes end
up with the same blocks if no two blocks have a transaction in common.
-/

namespace TrustNet
set_option autoImplicit false

/-- What arrives: the block, and the updates that go with it. -/
def Delivery.block (v : Delivery) : BlockSpec × List BlockOp := (v.spec, v.replay)

/-- The delivery did not come to its end, or a `Rebase` failed: that of the engine, or that of the decoded block to the
state of its parent. -/
def stalled : Option Outcome → Bool
  | none => true
  | some (.error (.core .notFound _)) => true
  | some (.error (.core .stateIncorrect msg)) => msg == "cannot initialize state"
  | some _ => false

section Model

variable [Sha512]

/-- The node after the delivery. -/
def System.take (i : Nat) (s : System) (v : Delivery) : System := (s.receive i v).1

/-- No `Rebase` fails in the delivery. -/
def Smooth (i : Nat) (s : System) (v : Delivery) : Prop := stalled (s.receive i v).2 = false

instance (i : Nat) (s : System) (v : Delivery) : Decidable (Smooth i s v) :=
  inferInstanceAs (Decidable (stalled (s.receive i v).2 = false))

/-- A set of blocks for nodes with genesis `g`: no hash comes twice or is the null hash, and no two blocks have a
transaction in common. -/
structure Blocks (g : Byte64) (B : List (BlockSpec × List BlockOp)) : Prop where
  hashes : (B.map fun b => b.1.digest).Nodup
  proper : ∀ b ∈ B, b.1.digest ≠ genesisParent
  genesis : g ≠ genesisParent
  apart : B.Pairwise fun b b' => b.1.txIds.Disjoint b'.1.txIds

/-- The blocks of `B` arrive at a node: each after its parent and its uncles, each is hashed, and no `Rebase` fails. -/
structure Arrival (B : List (BlockSpec × List BlockOp)) (i : Nat) (s : System) (vs : List Delivery) : Prop where
  blocks : (vs.map Delivery.block).Perm B
  ordered : vs.Pairwise fun v w => w.spec.digest ∉ v.spec.phash :: v.spec.uncles
  tries : ∀ v ∈ vs, v.tries ≠ 0
  smooth : Transition.Along (System.take i) (Smooth i) s vs

end Model

/-! ## Two blocks with one transaction -/

namespace Worked

attribute [local instance] workedSha512

/-- A rival of `once` with the same transaction. -/
def onceAgain : BlockSpec := { once with miner := [2] }

/-- Two siblings have a transaction in common: a node stores the first of them only, whichever it is. -/
theorem first_come_first_served :
    let s := System.boot 1 1 [7]
    let vs := [bare once, bare onceAgain]
    s.engine.isSome ∧ (∀ v ∈ vs, ∀ w ∈ vs, w.spec.digest ∉ v.spec.phash :: v.spec.uncles) ∧
      (vs.map fun v => v.spec.digest).Nodup ∧
      Transition.Along (System.take 0) (Smooth 0) s vs ∧ Transition.Along (System.take 0) (Smooth 0) s vs.reverse ∧
      getSpec (Transition.run (System.take 0) s vs).db once.digest = some once ∧
      getSpec (Transition.run (System.take 0) s vs.reverse).db once.digest = none := by decide +kernel

end Worked

/-! ## One delivery -/

section Intake

variable [Sha512] {g : Byte64} {s s' : System} {i : Nat} {v : Delivery} {o : Option Outcome}

/-- The database only grows. -/
theorem Received.grows (received : Received s i v s' o) : s.db.log <:+ s'.db.log := by
  cases received with
  | idle _ steps => exact steps.suffix
  | invalid _ b b' e steps wire failed => exact steps.suffix
  | missing _ parent steps valid missing => exact steps.suffix
  | differs _ d t ws b child submitted differs => exact submitted.steps.suffix
  | added d d₁ d' t ws b child c c' outcome engine submitted root result =>
    rw [submitted_db]
    exact submitted.steps.suffix.trans result.writes.suffix

/-- What a delivery does to the stored blocks. -/
inductive Intake (d d' : Disk) (spec : BlockSpec) : Option Outcome → Prop where
  | stored (fresh : getSpec d spec.digest = none)
      (specs : ∀ h, getSpec d' h = if h = spec.digest then some spec else getSpec d h) : Intake d d' spec (some .ok)
  | refused (o : Option Outcome) (failed : o ≠ some .ok) (specs : ∀ h, getSpec d' h = getSpec d h) : Intake d d' spec o

omit [Sha512] in
theorem not_stalled {outcome : Outcome} (smooth : stalled (some outcome) = false) (msg : String) :
    outcome ≠ .error (.core .notFound msg) := by
  rintro rfl
  cases smooth

/-- A delivery stores the block under the hash of its fields, or leaves the stored blocks as they are. -/
theorem Received.intake (received : Received s i v s' o) (onTip : OnTip g s) (smooth : stalled o = false) :
    Intake s.db s'.db v.spec o := by
  cases received with
  | idle _ steps => cases smooth
  | invalid _ b b' e steps wire failed => exact .refused _ (by simp) (SameRecords.of_steps steps).spec
  | missing _ parent steps valid missing => exact .refused _ (by simp) (SameRecords.of_steps steps).spec
  | differs _ d t ws b child submitted differs => exact .refused _ (by simp) (SameRecords.of_steps submitted.steps).spec
  | added d d₁ d' t ws b child c c' outcome engine submitted root result =>
    have same := SameRecords.of_steps submitted.steps
    obtain ⟨m, canonical, synced⟩ := onTip
    have parent : (getSpec d₁ child.phash).isSome := by
      obtain ⟨parent, miners, valid, -⟩ := submitted.decoded
      rw [same.spec, submitted.wire.1, valid.stored]
      rfl
    obtain ⟨m', addition, -⟩ := result.canonical (canonical.of_records same submitted.steps.length_le)
      ((synced c engine).of_records same) (fun h hash => submitted.putBlock root hash) parent (not_stalled smooth)
    have stored : ∀ {h}, child.hash = some h → getSpec d₁ h = none → Extended d₁ child h d' →
        Intake s.db d' v.spec (some .ok) := by
      intro h hash fresh extended
      have eq : h = v.spec.digest := by
        rw [submitted.hash hash, root]
        rfl
      subst eq
      rw [same.spec] at fresh
      refine .stored fresh fun q => ?_
      rw [extended.spec, submitted.wire.1, same.spec]
    rw [submitted_db]
    cases addition with
    | refused _ failed => exact .refused _ (by simpa using failed) same.spec
    | side h _ hash fresh extended worse => exact stored hash fresh extended
    | moved _ _ _ hash fresh extended better => exact stored hash fresh extended

/-- A stored block stays. -/
theorem Intake.kept {d d' : Disk} {spec : BlockSpec} (intake : Intake d d' spec o) : SpecsKept d d' := by
  intro h stored found
  cases intake with
  | stored fresh specs =>
    rw [specs, if_neg, found]
    rintro rfl
    rw [fresh] at found
    cases found
  | refused _ failed specs =>
    rw [specs]
    exact found

/-- A delivered block has the hash of its fields, unless the one try had no time. -/
theorem Submitted.hashed {d d₁ : Disk} {t ws : MptWorldState} {b child : Block}
    (submitted : Submitted s v d t b d₁ ws child) (once : v.tries ≠ 0) (root : ws.rootHash = v.spec.state) :
    child.hash = some v.spec.digest := by
  have wire := submitted.wire.1
  obtain ⟨⟨parent, miners, -, -, eqB⟩, -, -, -, ⟨miners', rfl⟩⟩ := submitted
  obtain ⟨vars, eq⟩ := replay_eq (v.decoded miners t) d v.replay
  have approved : b.approves (b.hashAt ws.rootHash) = true := by
    rw [eqB, eq]
    rfl
  have hash : b.tryHash ws.rootHash v.tries = some (b.hashAt ws.rootHash) := if_pos ⟨once, approved⟩
  change b.tryHash ws.rootHash v.tries = _
  rw [hash, root]
  rw [show b.toBlockSpec = v.spec from wire]
  rfl

end Intake

/-! ## The same block at two nodes -/

section Transfer

variable [Sha512] {X : Set Bytes} {g : Byte64} {s s₁ s' s₁' : System} {i i' : Nat} {v v' : Delivery} {o : Option Outcome}

/-- A block that is stored has its parent and its uncles. -/
theorem Received.needs (received : Received s i v s₁ (some .ok)) (h : Byte64) (listed : h ∈ v.spec.phash :: v.spec.uncles) :
    (getSpec s.db h).isSome := by
  cases received with
  | added d d₁ d' t ws b child c c' outcome engine submitted root result =>
    obtain ⟨parent, miners, valid, -⟩ := submitted.decoded
    rcases List.mem_cons.mp listed with rfl | uncle
    · rw [valid.stored]
      rfl
    · exact (valid.uncles h uncle).2

/-- **What one node stores, another node stores** that has the same parent and uncles, not the block, and none of its
transactions. -/
theorem Received.transfer (first : Received s i v s₁ (some .ok)) (second : Received s' i' v' s₁' o)
    (smooth : stalled o = false) (once : v'.tries ≠ 0) (block : v.block = v'.block) (sound : Sound512 X g)
    (reached : Reached RebaseOk g s) (reached' : Reached RebaseOk g s') (peer : Peer X g s.db) (peer' : Peer X g s'.db)
    (trie : HashSound fun n => Known s₁.db n ∨ Known s₁'.db n)
    (same : ∀ h ∈ v.spec.phash :: v.spec.uncles, getSpec s'.db h = getSpec s.db h)
    (fresh : getSpec s'.db v.spec.digest = none) (clean : ∀ tx ∈ v.spec.txs, hasTransaction s'.db tx.id = none) :
    o = some .ok := by
  have spec : v.spec = v'.spec := congrArg Prod.fst block
  have replay : v.replay = v'.replay := congrArg Prod.snd block
  have whole := (reached.contents (trie.mono fun n known => Or.inl (known.mono first.grows n))).whole
  have whole' := (reached'.contents (trie.mono fun n known => Or.inr (known.mono second.grows n))).whole
  cases first with
  | added d d₁ d' t ws b child c c' outcome engine submitted root result =>
    obtain ⟨parent, miners, valid, -⟩ := submitted.decoded
    rw [submitted_db] at trie
    have before : ∀ n, Known d₁ n → Known d' n := Known.mono result.writes.suffix
    have sameRoot : ∀ {d₂ d₂' t' ws' b' child'}, Submitted s' v' d₂ t' b' d₂' ws' child' →
        (∀ n, Known d₂' n → Known s₁'.db n) → ws'.rootHash = v'.spec.state := by
      intro d₂ d₂' t' ws' b' child' submitted' grows
      rw [← spec, ← root]
      refine (submitted.root_eq submitted' reached.ready reached'.ready whole whole' (trie.mono fun n => ?_) (by rw [spec])
        (same _ List.mem_cons_self).symm replay).symm
      exact Or.imp (before n) (grows n)
    cases second with
    | idle _ steps => cases smooth
    | invalid _ b₂ b₂' e steps wire failed =>
      have records := SameRecords.of_steps steps
      have here := peer'.of_records records steps.length_le
      have valid' := peer.valid sound here valid fun h member => (records.spec h).trans (same h member)
      rw [spec, ← wire] at valid'
      obtain ⟨miners, validated⟩ := validateBlock_of_valid valid'
      rw [failed] at validated
      cases validated
    | missing _ parent' steps valid' missing => cases smooth
    | differs _ d₂ t' ws' b₂ child' submitted' differs => exact absurd (sameRoot submitted' fun _ known => known) differs
    | added d₂ d₂' d₃ t' ws' b₂ child' c₂ c₂' outcome' engine' submitted' root' result' =>
      have records := SameRecords.of_steps submitted'.steps
      obtain ⟨m, canonical⟩ := peer'.canonical
      have canonical' := canonical.of_records records submitted'.steps.length_le
      have stored : (getSpec d₂' child'.phash).isSome := by
        rw [submitted'.wire.1, ← spec, records.spec, same _ List.mem_cons_self, valid.stored]
        rfl
      rcases result'.ends canonical' (submitted'.hashed once root') stored (not_stalled smooth) with
        rfl | ⟨rfl, found⟩ | ⟨rfl, duplicate⟩
      · rfl
      · rw [records.spec, ← spec, fresh] at found
        cases found
      · rw [submitted'.wire.1, ← spec, List.any_eq_true] at duplicate
        obtain ⟨tx, member, duplicate⟩ := duplicate
        have none' : hasTransaction d₂' tx.id = none := by
          rw [records.index]
          exact clean tx member
        simp [isDuplicateTx, transactionStatus, none'] at duplicate

end Transfer

/-! ## A run of deliveries -/

section Run

variable [Sha512] {g h : Byte64} {root : BlockSpec} {i : Nat} {s : System} {v : Delivery} {seen vs : List Delivery}

/-- The node has the genesis block `root`, and otherwise blocks that were delivered. -/
structure Holdings (g : Byte64) (root : BlockSpec) (seen : List Delivery) (s : System) : Prop where
  reached : Reached RebaseOk g s
  genesis : getSpec s.db g = some root
  own : ∀ h spec, getSpec s.db h = some spec → h ≠ g → ∃ v ∈ seen, v.spec = spec ∧ spec.digest = h

theorem Holdings.received (holdings : Holdings g root seen s) (i : Nat) (v : Delivery) :
    Received s i v (s.take i v) (s.receive i v).2 := receive_received holdings.reached.ready i v

theorem Holdings.intake (holdings : Holdings g root seen s) (smooth : Smooth i s v) :
    Intake s.db (s.take i v).db v.spec (s.receive i v).2 :=
  (holdings.received i v).intake holdings.reached.onTip smooth

/-- One delivery. -/
theorem Holdings.take (holdings : Holdings g root seen s) (smooth : Smooth i s v) :
    Holdings g root (seen ++ [v]) (s.take i v) := by
  have intake := holdings.intake smooth
  have old : ∀ {h spec}, getSpec s.db h = some spec → h ≠ g → ∃ w ∈ seen ++ [v], w.spec = spec ∧ spec.digest = h := by
    intro h spec found ne
    obtain ⟨w, member, eq⟩ := holdings.own h spec found ne
    exact ⟨w, List.mem_append_left _ member, eq⟩
  refine ⟨holdings.reached.receive i v fun msg eq => ?_, intake.kept _ _ holdings.genesis, fun h spec found ne => ?_⟩
  · rw [Smooth, eq] at smooth
    cases smooth
  · generalize (s.receive i v).2 = o at intake
    cases intake with
    | stored fresh specs =>
      rw [specs] at found
      split at found
      · rename_i eq
        cases found
        exact ⟨v, by simp, rfl, eq.symm⟩
      · exact old found ne
    | refused _ failed specs =>
      rw [specs] at found
      exact old found ne

/-- A whole run: what is stored stays. -/
theorem Holdings.run (holdings : Holdings g root seen s) (along : Transition.Along (System.take i) (Smooth i) s vs) :
    Holdings g root (seen ++ vs) (Transition.run (System.take i) s vs) ∧
      SpecsKept s.db (Transition.run (System.take i) s vs).db ∧
      s.db.log <:+ (Transition.run (System.take i) s vs).db.log := by
  induction vs generalizing s seen with
  | nil =>
    rw [List.append_nil]
    exact ⟨holdings, fun _ _ found => found, List.suffix_refl _⟩
  | cons v vs ih =>
    obtain ⟨after, kept, grows⟩ := ih (holdings.take along.1) along.2
    rw [List.append_assoc] at after
    exact ⟨after, fun h spec found => kept h spec ((holdings.intake along.1).kept h spec found),
      (holdings.received i v).grows.trans grows⟩

/-- A block that does not come is not stored. -/
theorem Holdings.absent (holdings : Holdings g root seen s) (along : Transition.Along (System.take i) (Smooth i) s vs)
    (fresh : getSpec s.db h = none) (others : ∀ v ∈ vs, v.spec.digest ≠ h) :
    getSpec (Transition.run (System.take i) s vs).db h = none := by
  induction vs generalizing s seen with
  | nil => exact fresh
  | cons v vs ih =>
    refine ih (holdings.take along.1) along.2 ?_ fun w member => others w (List.mem_cons_of_mem _ member)
    have intake := holdings.intake along.1
    generalize (s.receive i v).2 = o at intake
    cases intake with
    | stored _ specs =>
      rw [specs, if_neg (Ne.symm (others v List.mem_cons_self))]
      exact fresh
    | refused _ failed specs =>
      rw [specs]
      exact fresh

end Run

/-! ## Two orders -/

section Orders

variable [Sha512] {g : Byte64} {root : BlockSpec} {B : List (BlockSpec × List BlockOp)} {i i' : Nat}
  {s s' s₁ s₂ : System} {v : Delivery} {before vs vs' : List Delivery}

/-- The data that is hashed for the blocks. -/
def hashedData (B : List (BlockSpec × List BlockOp)) : Set Bytes :=
  {data | ∃ b ∈ B, data = b.1.preimage b.1.state ++ uint64Bytes b.1.nonce}

theorem Blocks.sound (blocks : Blocks g B) : Sound512 (hashedData B) g := by
  refine ⟨?_, ?_, blocks.genesis⟩
  · rintro _ ⟨b, member, rfl⟩ _ ⟨b', member', rfl⟩ same
    rw [List.inj_on_of_nodup_map blocks.hashes member member' same]
  · rintro _ ⟨b, member, rfl⟩
    exact blocks.proper b member

/-- A node that got blocks of `B` only is a node of the network. -/
theorem Holdings.peer (holdings : Holdings g root before s) (blocks : Blocks g B) (given : ∀ w ∈ before, w.block ∈ B) :
    Peer (hashedData B) g s.db := by
  obtain ⟨m, canonical, -⟩ := holdings.reached.onTip
  refine ⟨⟨m, canonical⟩, holdings.reached.dag, fun h spec found ne => ?_, ?_⟩
  · obtain ⟨w, member, rfl, rfl⟩ := holdings.own h spec found ne
    refine ⟨_, ⟨w.block, given w member, rfl⟩, rfl, ?_⟩
    simp only [Delivery.block, BlockSpec.preimage, List.append_assoc]
    exact List.take_left' w.spec.phash.length_eq
  · cases found : getSpec s.db genesisParent with
    | none => rfl
    | some spec =>
      obtain ⟨w, member, rfl, eq⟩ := holdings.own _ spec found (Ne.symm blocks.genesis)
      have proper : w.spec.digest ≠ genesisParent := blocks.proper w.block (given w member)
      exact absurd eq proper

theorem Arrival.given (arrival : Arrival B i s vs) {w : Delivery} (member : w ∈ vs) : w.block ∈ B :=
  arrival.blocks.mem_iff.mp (List.mem_map_of_mem member)

/-- Every block comes once. -/
theorem Arrival.hashes (arrival : Arrival B i s vs) (blocks : Blocks g B) : (vs.map fun v => v.spec.digest).Nodup := by
  have perm := arrival.blocks.map fun b => b.1.digest
  rw [List.map_map] at perm
  exact perm.nodup_iff.mpr blocks.hashes

theorem Arrival.apart (arrival : Arrival B i s vs) (blocks : Blocks g B) :
    vs.Pairwise fun v w => v.spec.txIds.Disjoint w.spec.txIds := by
  have pairs : (vs.map Delivery.block).Pairwise fun b b' => b.1.txIds.Disjoint b'.1.txIds :=
    (arrival.blocks.pairwise_iff fun disjoint => List.Disjoint.symm disjoint).mpr blocks.apart
  rw [List.pairwise_map] at pairs
  exact pairs

section Moment

variable {r : System} {earlier later : List Delivery} (arrival : Arrival B i s (earlier ++ v :: later))
  (there : Holdings g root earlier r)
include arrival there

/-- A block comes to a node that does not have it. -/
theorem Arrival.fresh (blocks : Blocks g B) (ne : v.spec.digest ≠ g) : getSpec r.db v.spec.digest = none := by
  cases found : getSpec r.db v.spec.digest with
  | none => rfl
  | some spec =>
    obtain ⟨w, member, rfl, eq⟩ := there.own _ spec found ne
    have hashes := arrival.hashes blocks
    rw [List.map_append, List.map_cons, List.nodup_append] at hashes
    exact absurd eq (hashes.2.2 _ (List.mem_map_of_mem member) _ List.mem_cons_self)

/-- None of its transactions came before. -/
theorem Arrival.clean (blocks : Blocks g B) (plain : root.txs = []) {tx : Transaction} (member : tx ∈ v.spec.txs) :
    hasTransaction r.db tx.id = none := by
  cases found : hasTransaction r.db tx.id with
  | none => rfl
  | some q =>
    obtain ⟨m, canonical, -⟩ := there.reached.onTip
    have indexed := (there.reached.indexOf canonical).sound found
    obtain ⟨spec, foundQ⟩ := Option.isSome_iff_exists.mp (txIds_stored indexed)
    rw [txIds_of_spec foundQ] at indexed
    by_cases eq : q = g
    · rw [eq, there.genesis, Option.some.injEq] at foundQ
      rw [BlockSpec.txIds, ← foundQ, plain] at indexed
      cases indexed
    · obtain ⟨w, memberW, rfl, -⟩ := there.own q spec foundQ eq
      have apart := (List.pairwise_append.mp (arrival.apart blocks)).2.2 w memberW v List.mem_cons_self
      exact absurd (List.mem_map_of_mem member) (apart indexed)

/-- Its parent and its uncles came before. -/
theorem Arrival.in_place (along : Transition.Along (System.take i) (Smooth i) r (v :: later)) {h : Byte64}
    (listed : h ∈ v.spec.phash :: v.spec.uncles) (ne : h ≠ v.spec.digest) :
    getSpec r.db h = getSpec (Transition.run (System.take i) r (v :: later)).db h := by
  cases found : getSpec r.db h with
  | some spec => exact ((there.run along).2.1 h spec found).symm
  | none =>
    refine (there.absent along found fun w member => ?_).symm
    rcases List.mem_cons.mp member with rfl | member
    · exact Ne.symm ne
    · rintro rfl
      exact (List.pairwise_cons.mp (List.pairwise_append.mp arrival.ordered).2.1).1 w member listed

end Moment

/-- **A block that one node stores comes to be stored by the other**, if what the first had then is what the other has
in the end. -/
theorem Arrival.stores (blocks : Blocks g B) (plain : root.txs = []) (other : Arrival B i' s' vs')
    (start : Holdings g root [] s') (here : Holdings g root before s₁) (given : ∀ w ∈ before, w.block ∈ B)
    (member : v.block ∈ B) (received : Received s₁ i v s₂ (some .ok)) (fresh : getSpec s₁.db v.spec.digest = none)
    (kept : SpecsKept s₁.db (Transition.run (System.take i') s' vs').db)
    (trie : HashSound fun n => Known s₂.db n ∨ Known (Transition.run (System.take i') s' vs').db n) :
    getSpec (Transition.run (System.take i') s' vs').db v.spec.digest = some v.spec := by
  -- The moment at which the block comes to the other node.
  obtain ⟨v', memberV, block⟩ := List.mem_map.mp (other.blocks.mem_iff.mpr member)
  have spec : v'.spec = v.spec := congrArg Prod.fst block
  obtain ⟨earlier, later, rfl⟩ := List.mem_iff_append.mp memberV
  obtain ⟨along, alongLater⟩ := Transition.along_append.mp other.smooth
  obtain ⟨there, -, -⟩ := start.run along
  rw [List.nil_append] at there
  rw [Transition.run_append] at kept trie ⊢
  generalize Transition.run (System.take i') s' earlier = r at there alongLater kept trie ⊢
  obtain ⟨-, rest, grows⟩ := (there.take alongLater.1).run alongLater.2
  -- What it needs is there by then.
  have same : ∀ h ∈ v.spec.phash :: v.spec.uncles, getSpec r.db h = getSpec s₁.db h := by
    intro h listed
    obtain ⟨specH, found⟩ := Option.isSome_iff_exists.mp (received.needs h listed)
    rw [found, ← kept h specH found]
    refine other.in_place there alongLater (by rw [spec]; exact listed) ?_
    rintro rfl
    rw [spec, fresh] at found
    cases found
  have ne : v'.spec.digest ≠ g := by
    intro eq
    rw [← spec, eq, here.genesis] at fresh
    cases fresh
  have freshR := other.fresh there blocks ne
  rw [spec] at freshR
  have clean : ∀ tx ∈ v.spec.txs, hasTransaction r.db tx.id = none :=
    fun tx member => other.clean there blocks plain (by rw [spec]; exact member)
  have givenE : ∀ w ∈ earlier, w.block ∈ B := fun w member => other.given (List.mem_append_left _ member)
  have accepted := received.transfer (there.received i' v') alongLater.1 (other.tries v' memberV) block.symm blocks.sound
    here.reached there.reached (here.peer blocks given) (there.peer blocks givenE)
    (trie.mono fun n => Or.imp_right (Known.mono grows n)) same freshR clean
  have intake := there.intake alongLater.1
  rw [accepted] at intake
  cases intake with
  | stored _ specs =>
    apply rest
    rw [specs, spec, if_pos rfl]
  | refused _ failed specs => exact absurd rfl failed

/-- What the one stores, the other stores. -/
theorem Arrival.kept (blocks : Blocks g B) (plain : root.txs = []) (first : Arrival B i s vs) (second : Arrival B i' s' vs')
    (start : Holdings g root [] s) (start' : Holdings g root [] s')
    (trie : HashSound fun n => Known (Transition.run (System.take i) s vs).db n ∨
      Known (Transition.run (System.take i') s' vs').db n) :
    SpecsKept (Transition.run (System.take i) s vs).db (Transition.run (System.take i') s' vs').db := by
  suffices prefixes : ∀ before after, vs = before ++ after →
      SpecsKept (Transition.run (System.take i) s before).db (Transition.run (System.take i') s' vs').db from
    prefixes vs [] (List.append_nil vs).symm
  intro before
  induction before using List.reverseRecOn with
  | nil =>
    intro after _ h spec found
    by_cases eq : h = g
    · rw [eq] at found ⊢
      rw [Transition.run_nil, start.genesis] at found
      rw [(start'.run second.smooth).1.genesis]
      exact found
    · obtain ⟨w, member, -⟩ := start.own h spec found eq
      cases member
  | append_singleton before v ih =>
    intro after split
    rw [List.append_assoc, List.singleton_append] at split
    subst split
    have kept := ih (v :: after) rfl
    obtain ⟨along, smooth, later⟩ := Transition.along_append.mp first.smooth
    obtain ⟨here, -, -⟩ := start.run along
    rw [List.nil_append] at here
    rw [Transition.run_append, Transition.run_cons] at trie
    rw [Transition.run_append, Transition.run_cons, Transition.run_nil]
    generalize Transition.run (System.take i) s before = s₁ at kept smooth later here trie ⊢
    obtain ⟨-, -, grows⟩ := (here.take smooth).run later
    have intake := here.intake smooth
    have received := here.received i v
    generalize (s₁.receive i v).2 = o at intake received
    intro h spec found
    cases intake with
    | stored fresh specs =>
      rw [specs] at found
      split at found
      · rename_i eq
        cases found
        rw [eq]
        refine Arrival.stores blocks plain second start' here (fun w member => first.given (List.mem_append_left _ member))
          (first.given (List.mem_append_right _ List.mem_cons_self)) received fresh kept (trie.mono fun n => ?_)
        exact Or.imp_left (Known.mono grows n)
      · exact kept h spec found
    | refused _ failed specs =>
      rw [specs] at found
      exact kept h spec found

/-- A new node. -/
theorem holdings_boot {t now : UInt64} {minerId : Bytes} (started : (System.boot t now minerId).engine.isSome) :
    Holdings (genesisHash t now) (hashedGenesis t now).toBlockSpec [] (System.boot t now minerId) := by
  have specs : ∀ h, getSpec (System.boot t now minerId).db h =
      if h = genesisHash t now then some (hashedGenesis t now).toBlockSpec else none := by
    intro h
    rw [(boot_of_started started).2]
    exact bootDisk_getSpec t now h
  refine ⟨⟨t, now, minerId, [], started, rfl, trivial, rfl⟩, ?_, fun h spec found ne => ?_⟩
  · rw [specs, if_pos rfl]
  · rw [specs, if_neg ne] at found
    cases found

/-- **The order of arrival does not matter**: two new nodes with the same genesis block, to which the same blocks come in
two orders, store the same blocks in the end. -/
theorem arrival_order_irrelevant {t now t' now' : UInt64} {minerId minerId' : Bytes}
    (started : (System.boot t now minerId).engine.isSome) (started' : (System.boot t' now' minerId').engine.isSome)
    (genesis : hashedGenesis t now = hashedGenesis t' now') (blocks : Blocks (genesisHash t now) B)
    (first : Arrival B i (System.boot t now minerId) vs) (second : Arrival B i' (System.boot t' now' minerId') vs')
    (trie : HashSound fun n => Known (Transition.run (System.take i) (System.boot t now minerId) vs).db n ∨
      Known (Transition.run (System.take i') (System.boot t' now' minerId') vs').db n) (h : Byte64) :
    getSpec (Transition.run (System.take i) (System.boot t now minerId) vs).db h =
      getSpec (Transition.run (System.take i') (System.boot t' now' minerId') vs').db h := by
  have start := holdings_boot started
  have start' := holdings_boot started'
  have hash : genesisHash t now = genesisHash t' now' := Option.some.inj (congrArg Block.hash genesis)
  rw [← genesis, ← hash] at start'
  have kept := Arrival.kept blocks rfl first second start start' trie
  have kept' := Arrival.kept blocks rfl second first start' start (trie.mono fun n => Or.symm)
  apply Option.ext
  intro spec
  exact ⟨kept h spec, kept' h spec⟩

end Orders

section Worked

attribute [local instance] workedSha512

/-- Blocks with and without updates and transactions, one a child of another. -/
def Worked.arriving : List Delivery :=
  [Worked.bare Worked.once, ⟨Worked.small, [.update [97] [1]], [⟨[97], some [1]⟩], 1⟩, Worked.bare Worked.smallChild]

/-- The same blocks in another order. -/
def Worked.otherOrder : List Delivery :=
  [⟨Worked.small, [.update [97] [1]], [⟨[97], some [1]⟩], 1⟩, Worked.bare Worked.smallChild, Worked.bare Worked.once]

theorem Worked.arriving_run :
    let B := Worked.arriving.map Delivery.block
    (B.map fun b => b.1.digest).Nodup ∧ (∀ b ∈ B, b.1.digest ≠ genesisParent) ∧ genesisHash 1 1 ≠ genesisParent ∧
      (B.Pairwise fun b b' => ∀ id ∈ b.1.txIds, id ∉ b'.1.txIds) ∧
      (∀ vs ∈ [Worked.arriving, Worked.otherOrder], (vs.map Delivery.block).Perm B ∧
        (vs.Pairwise fun v w => w.spec.digest ∉ v.spec.phash :: v.spec.uncles) ∧ (∀ v ∈ vs, v.tries ≠ 0) ∧
        Transition.Along (System.take 0) (Smooth 0) (System.boot 1 1 [7]) vs ∧
        Worked.Covered (Transition.run (System.take 0) (System.boot 1 1 [7]) vs).db) ∧
      (getSpec (Transition.run (System.take 0) (System.boot 1 1 [7]) Worked.arriving).db Worked.smallChild.digest).isSome := by
  decide +kernel

theorem arrival_order_irrelevant_arriving :
    let d := (Transition.run (System.take 0) (System.boot 1 1 [7]) Worked.arriving).db
    let d' := (Transition.run (System.take 0) (System.boot 1 1 [7]) Worked.otherOrder).db
    (getSpec d Worked.smallChild.digest).isSome ∧
      getSpec d Worked.smallChild.digest = getSpec d' Worked.smallChild.digest := by
  obtain ⟨hashes, proper, genesis, apart, orders, stored⟩ := Worked.arriving_run
  obtain ⟨perm, ordered, tries, smooth, covered⟩ := orders Worked.arriving (by simp)
  obtain ⟨perm', ordered', tries', smooth', covered'⟩ := orders Worked.otherOrder (by simp)
  exact ⟨stored, arrival_order_irrelevant Worked.started Worked.started rfl
    ⟨hashes, proper, genesis, apart.imp fun apart id first second => apart id first second⟩
    ⟨perm, ordered, tries, smooth⟩ ⟨perm', ordered', tries', smooth'⟩ (Worked.hashSound_of_both covered covered') _⟩

end Worked

end TrustNet
