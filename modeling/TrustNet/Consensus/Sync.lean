import TrustNet.Consensus.Descendents
import TrustNet.Consensus.Index
import TrustNet.Consensus.Peers
import TrustNet.Consensus.Receive

/-!
# Feeding a batch to another node

A node that asks for the descendents of a block has its ancestors, and their uncles.
The batch gives it every block of the main list after its uncles, so a block of the
main list always finds its parent and its uncles. An uncle may not: it can be the child
of a block that is neither an ancestor nor an uncle of one, and then comes without it.
-/

namespace TrustNet
set_option autoImplicit false
open ParentTree (Anc Ranked)

/-- The block could not be placed: its parent is not there, or an uncle was turned down. -/
def OutOfPlace (e : Err) : Prop := (∃ msg, e = .core .blockOrphan msg) ∨ e = .core .blockValidation "invalid uncle"

/-! ## A batch with an orphan -/

namespace Worked

attribute [local instance] workedSha512

/-- A child of `leftChild` with `rightChild` as uncle. -/
def leftGrandchild : BlockSpec :=
  { left with phash := digest leftChildDigest, depth := 3, wt := 4, uncles := [digest rightChildDigest] }

/-- The blocks that the server accepts. -/
def forked : List Action := [left, right, rightChild, leftChild, leftGrandchild].flatMap deliver

/-- The batch below genesis has `rightChild`, but not its parent: a new node cannot place it. -/
theorem forked_batch :
    let s := (System.boot 1 1 [7]).run forked
    let r := System.boot 1 1 [7]
    Reached RebaseOk (genesisHash 1 1) s ∧ Flagged s.db (genesisHash 1 1) ∧ (getSpec r.db (genesisHash 1 1)).isSome ∧
      ∃ batch, descendents s.db (genesisHash 1 1) 10 = some (batch, none) ∧
        (r.feed 0 (batch.map fun b => bare b.spec)).2 = some (.error (.core .blockOrphan "cannot find parent")) := by
  have run : let s := (System.boot 1 1 [7]).run forked
      let r := System.boot 1 1 [7]
      System.Along RebaseOk (System.boot 1 1 [7]) forked ∧
        (getChainNode s.db (genesisHash 1 1)).map (·.isMainList) = some true ∧ (getSpec r.db (genesisHash 1 1)).isSome ∧
        (descendents s.db (genesisHash 1 1) 10).map (·.2) = some none ∧
        (descendents s.db (genesisHash 1 1) 10).map (fun reply => (r.feed 0 (reply.1.map fun b => bare b.spec)).2) =
          some (some (.error (.core .blockOrphan "cannot find parent"))) := by decide +kernel
  obtain ⟨fine, mark, genesis, ok, fails⟩ := run
  obtain ⟨⟨batch, error⟩, reply, none'⟩ := Option.map_eq_some_iff.mp ok
  simp only at none'
  subst none'
  rw [reply, Option.map_some, Option.some.injEq] at fails
  exact ⟨⟨1, 1, [7], forked, started, rfl, fine, rfl⟩, Option.map_eq_some_iff.mp mark, genesis, batch, reply, fails⟩

end Worked

/-! ## One block -/

/-- With the parent and the uncles in place, only depth and weight can be wrong. -/
theorem validateBlock_in_place {d : Disk} {b b' : Block} {e : Err} (failed : validateBlock d b = (b', .error e))
    (parent : (getSpec d b.phash).isSome) (uncles : ∀ u ∈ b.uncles, UncleOk d b.phash u) : ¬ OutOfPlace e := by
  obtain ⟨spec, found⟩ := Option.isSome_iff_exists.mp parent
  obtain ⟨miners, checked⟩ := validateUncles_of_ok (spec.wt + 1) uncles
  unfold validateBlock at failed
  rw [getBlock_eq, found] at failed
  simp only [Option.map_some, BlockSpec.toBlock] at failed
  split at failed
  · cases failed
    simp [OutOfPlace]
  · rw [checked] at failed
    simp only at failed
    split at failed
    · cases failed
      simp [OutOfPlace]
    · cases failed

section Receive

variable [Sha512] {X : Set Bytes} {g : Byte64} {r r' : System} {i : Nat} {v : Delivery} {o : Option Outcome}

/-- **A block whose parent and uncles are there is not out of place.** -/
theorem Received.in_place {ds : Disk} {h : Byte64} (sound : Sound512 X g) (server : Peer X g ds) (inReach : UnclesInReach ds)
    (stored : getSpec ds h = some v.spec) (ne : h ≠ g) (peer : Peer X g r.db)
    (parent : (getSpec r.db v.spec.phash).isSome) (uncles : ∀ u ∈ v.spec.uncles, (getSpec r.db u).isSome)
    (received : Received r i v r' o) {e : Err} (failed : o = some (.error e)) : ¬ OutOfPlace e := by
  cases received with
  | idle => cases failed
  | invalid _ b b' e' steps wire invalid =>
    cases failed
    have same := SameRecords.of_steps steps
    have here := peer.of_records same steps.length_le
    obtain ⟨⟨parentS, storedP, -⟩, storedU⟩ := server.dag.follows stored ne
    have commonP : Common ds r'.db v.spec.phash := ⟨by rw [storedP]; rfl, by rw [same.spec]; exact parent⟩
    refine validateBlock_in_place invalid (by rw [wire]; exact commonP.2) ?_
    rw [wire]
    intro u listed
    have commonU : Common ds r'.db u := ⟨storedU u listed, by rw [same.spec]; exact uncles u listed⟩
    refine ⟨?_, commonU.2⟩
    rw [← server.uncleInReach sound here commonP commonU]
    exact inReach stored listed
  | missing _ parent steps valid missing =>
    cases failed
    simp [OutOfPlace]
  | differs _ d t ws b child submitted differs =>
    cases failed
    simp [OutOfPlace]
  | added d d₁ d' t ws b child c c' outcome engine submitted root result =>
    cases failed
    cases result with
    | duplicateBlock h hash stored => simp [OutOfPlace]
    | duplicateTx h hash fresh duplicate => simp [OutOfPlace]
    | noParent h hash fresh missing => simp [OutOfPlace]
    | rebaseFailed h pn msg admitted better missing => simp [OutOfPlace]
    | moved h pn d₂ _ state _ admitted better rebased switched => exact absurd (congrArg Prod.snd switched) (switchMainList_ne_error _ _ _ _)

/-- The block was stored, or the node had it. -/
def Settled (o : Option Outcome) : Prop := o = some .ok ∨ ∃ msg, o = some (.error (.core .duplicateBlock msg))

/-- The node has the block afterwards, and stays a node of the network. -/
theorem Received.settled {ds : Disk} {h : Byte64} (server : Peer X g ds) (stored : getSpec ds h = some v.spec)
    (ne : h ≠ g) (keyed : v.spec.digest = h) (reached' : Reached RebaseOk g r') (peer : Peer X g r.db)
    (received : Received r i v r' o) (settled : Settled o) :
    Peer X g r'.db ∧ (getSpec r'.db h).isSome ∧ ∀ q, (getSpec r.db q).isSome → (getSpec r'.db q).isSome := by
  cases received with
  | idle => simp [Settled] at settled
  | invalid _ b b' e' steps wire invalid =>
    rcases validateBlock_error invalid with ⟨msg, rfl⟩ | ⟨msg, rfl⟩
    · simp [Settled] at settled
    · simp [Settled] at settled
  | missing _ parent steps valid missing => simp [Settled] at settled
  | differs _ d t ws b child submitted differs => simp [Settled] at settled
  | added d d₁ d' t ws b child c c' outcome engine submitted root result =>
    have same := SameRecords.of_steps submitted.steps
    have before := peer.of_records same submitted.steps.length_le
    obtain ⟨m, canonical⟩ := before.canonical
    have digest : ∀ {h'}, child.hash = some h' → h' = h := by
      intro h' hash
      rw [submitted.hash hash, root]
      exact keyed
    rw [submitted_db]
    rcases settled with ok | ⟨msg, duplicate⟩
    · cases ok
      obtain ⟨m', submission, -⟩ := result.submission canonical rfl fun h hash => submitted.putBlock root hash
      obtain ⟨h', pn, admitted, extended⟩ := submission.extended
      have eq := digest admitted.hash
      subst eq
      obtain ⟨m₁, canonical', -⟩ := reached'.onTip
      have dag' := reached'.dag
      rw [submitted_db] at canonical' dag'
      refine ⟨⟨⟨m₁, canonical'⟩, dag', fun q spec found neG => ?_, ?_⟩, ?_, fun q found => ?_⟩
      · rw [extended.spec] at found
        split at found
        · rename_i eq
          rw [submitted.wire.1, Option.some.injEq] at found
          rw [← found, eq]
          exact server.origin _ _ stored ne
        · exact before.origin q spec found neG
      · rw [extended.spec, if_neg]
        · exact before.rootless
        · intro eq
          rw [← eq, server.rootless] at stored
          cases stored
      · rw [extended.spec, if_pos rfl]
        rfl
      · rw [extended.spec]
        split
        · rfl
        · rw [same.spec]
          exact found
    · cases duplicate
      cases result with
      | duplicateBlock h' hash found =>
        have eq := digest hash
        subst eq
        refine ⟨before, ?_, fun q found => by rw [same.spec]; exact found⟩
        rw [← canonical.stored_iff]
        exact found
      | moved h' pn d₂ _ state _ admitted better rebased switched =>
        exact absurd (congrArg Prod.snd switched) (switchMainList_ne_error _ _ _ _)

/-! ## A list of blocks -/

/-- The blocks are stored in `ds` under their hashes, and each finds its parent and its uncles among those that
are known before it. -/
inductive InPlace (ds : Disk) (g : Byte64) : (Byte64 → Prop) → List Byte64 → Prop where
  | nil (known : Byte64 → Prop) : InPlace ds g known []
  | cons {known : Byte64 → Prop} {h : Byte64} {spec : BlockSpec} {rest : List Byte64} (stored : getSpec ds h = some spec)
      (ne : h ≠ g) (keyed : spec.digest = h) (parent : known spec.phash) (uncles : ∀ u ∈ spec.uncles, known u)
      (later : InPlace ds g (fun x => x = h ∨ known x) rest) : InPlace ds g known (h :: rest)

/-- **A list in place is fed without a block out of place.** -/
theorem InPlace.feed {ds : Disk} {known : Byte64 → Prop} {hashes : List Byte64} (sound : Sound512 X g)
    (server : Peer X g ds) (inReach : UnclesInReach ds) (inPlace : InPlace ds g known hashes) {vs : List Delivery}
    (wire : vs.map (fun v => some v.spec) = hashes.map (getSpec ds)) (reached : Reached RebaseOk g r)
    (peer : Peer X g r.db) (stores : ∀ x, known x → (getSpec r.db x).isSome) {e : Err}
    (failed : (r.feed i vs).2 = some (.error e)) : ¬ OutOfPlace e := by
  induction inPlace generalizing r vs with
  | nil known =>
    rw [List.map_nil, List.map_eq_nil_iff] at wire
    rw [wire] at failed
    cases failed
  | @cons known h spec rest stored ne keyed parent uncles later ih =>
    rw [List.map_cons, stored] at wire
    obtain ⟨v, vs, rfl, same, tail⟩ := List.map_eq_cons_iff.mp wire
    cases same
    have received := receive_received reached.ready i v
    have inPlace : (r.receive i v).2 = some (.error e) → ¬ OutOfPlace e :=
      received.in_place sound server inReach stored ne peer (stores _ parent) fun u listed => stores u (uncles u listed)
    have next : Settled (r.receive i v).2 → ((r.receive i v).1.feed i vs).2 = some (.error e) → ¬ OutOfPlace e := by
      intro settled failed
      have reached' := reached.receive i v fun msg eq => by
        rw [eq] at settled
        simp [Settled] at settled
      obtain ⟨peer', has, keeps⟩ := received.settled server stored ne keyed reached' peer settled
      refine ih tail reached' peer' (fun x known => ?_) failed
      rcases known with rfl | known
      · exact has
      · exact keeps x (stores x known)
    unfold System.feed at failed
    generalize r.receive i v = result at inPlace next failed
    obtain ⟨r', o⟩ := result
    split at failed
    · rename_i eq
      cases eq
      exact next (Or.inl rfl) failed
    · rename_i msg eq
      cases eq
      exact next (Or.inr ⟨msg, rfl⟩) failed
    · rename_i eq
      cases eq
      exact inPlace failed

end Receive

/-! ## Batches that are self-contained -/

/-- The uncles that a stored block lists. -/
def unclesOf (d : Disk) (h : Byte64) : List Byte64 := ((getSpec d h).map (·.uncles)).getD []

/-- What a node knows before the uncle that follows `earlier` in the list of `b`: the strict ancestors of `b`, their
uncles, and the earlier uncles of `b`. -/
def Provided (d : Disk) (g b : Byte64) (earlier : List Byte64) (x : Byte64) : Prop :=
  x ∈ earlier ∨ ∃ a, Anc (parentOf d g) b a ∧ a ≠ b ∧ (x = a ∨ x ∈ unclesOf d a)

section Batch

variable [Sha512] {X : Set Bytes} {d : Disk} {g m p : Byte64}

/-- The main list below `p` can be sent on: its blocks and their uncles are stored under the hashes of their
fields, and every uncle finds its parent and its own uncles. -/
structure SelfContained (d : Disk) (g p : Byte64) : Prop where
  keyed : ∀ {b h spec}, Flagged d b → Anc (parentOf d g) b p → h = b ∧ b ≠ p ∨ h ∈ unclesOf d b →
    getSpec d h = some spec → spec.digest = h
  placed : ∀ {b earlier u later spec}, Flagged d b → Anc (parentOf d g) b p → b ≠ p →
    unclesOf d b = earlier ++ u :: later → getSpec d u = some spec →
    Provided d g b earlier spec.phash ∧ ∀ w ∈ spec.uncles, Provided d g b earlier w

theorem InPlace.mono {known known' : Byte64 → Prop} {hashes : List Byte64} (more : ∀ x, known x → known' x)
    (inPlace : InPlace d g known hashes) : InPlace d g known' hashes := by
  induction inPlace generalizing known' with
  | nil known => exact .nil known'
  | cons stored ne keyed parent uncles later ih =>
    exact .cons stored ne keyed (more _ parent) (fun u listed => more u (uncles u listed))
      (ih fun x known => known.imp_right (more x))

theorem InPlace.append {known : Byte64 → Prop} {first second : List Byte64} (inPlace : InPlace d g known first)
    (rest : InPlace d g (fun x => x ∈ first ∨ known x) second) : InPlace d g known (first ++ second) := by
  induction inPlace with
  | nil known => exact rest.mono fun x known => known.resolve_left (by simp)
  | cons stored ne keyed parent uncles later ih =>
    refine .cons stored ne keyed parent uncles (ih (rest.mono fun x known => ?_))
    rcases known with member | known
    · rcases List.mem_cons.mp member with rfl | member
      · exact Or.inr (Or.inl rfl)
      · exact Or.inl member
    · exact Or.inr (Or.inr known)

/-- Blocks that need nothing of each other. -/
theorem InPlace.of_forall {known : Byte64 → Prop} {hashes : List Byte64}
    (each : ∀ h ∈ hashes, ∃ spec, getSpec d h = some spec ∧ h ≠ g ∧ spec.digest = h ∧ known spec.phash ∧
      ∀ u ∈ spec.uncles, known u) : InPlace d g known hashes := by
  induction hashes with
  | nil => exact .nil known
  | cons h hashes ih =>
    obtain ⟨spec, stored, ne, keyed, parent, uncles⟩ := each h List.mem_cons_self
    refine .cons stored ne keyed parent uncles ((ih fun h member => ?_).mono fun x known => Or.inr known)
    exact each h (List.mem_cons_of_mem _ member)

/-- The ancestors of `c` and their uncles are known. -/
def KnownAt (d : Disk) (g c : Byte64) (known : Byte64 → Prop) : Prop :=
  ∀ a, Anc (parentOf d g) c a → known a ∧ ∀ u ∈ unclesOf d a, known u

omit [Sha512] in
theorem mem_unclesOf {h u : Byte64} : u ∈ unclesOf d h ↔ ∃ spec, getSpec d h = some spec ∧ u ∈ spec.uncles := by
  unfold unclesOf
  cases getSpec d h with
  | none => simp
  | some spec => simp

/-- An uncle of a stored block is stored, and is not genesis. -/
theorem Peer.uncle_stored (peer : Peer X g d) (before : UnclesBefore d g) (inReach : UnclesInReach d) {b u : Byte64}
    (listed : u ∈ unclesOf d b) : u ≠ g ∧ ∃ spec, getSpec d u = some spec := by
  obtain ⟨spec, found, member⟩ := mem_unclesOf.mp listed
  refine ⟨?_, Option.isSome_iff_exists.mp (before found member).1⟩
  rintro rfl
  have reach := inReach found member
  rw [peer.genesis_not_uncle] at reach
  cases reach

variable (peer : Peer X g d) (before : UnclesBefore d g) (inReach : UnclesInReach d) (contained : SelfContained d g p)
include peer before inReach contained

/-- The uncles of a block of the main list, one after the other. -/
theorem SelfContained.uncles {b : Byte64} (main : Flagged d b) (up : Anc (parentOf d g) b p) (below : b ≠ p)
    {known : Byte64 → Prop} (ancestors : ∀ a, Anc (parentOf d g) b a → a ≠ b → known a ∧ ∀ u ∈ unclesOf d a, known u)
    (earlier : List Byte64) {later : List Byte64} (split : unclesOf d b = earlier ++ later) :
    InPlace d g (fun x => x ∈ earlier ∨ known x) later := by
  induction later generalizing earlier with
  | nil => exact .nil _
  | cons u later ih =>
    obtain ⟨neG, spec, stored⟩ := peer.uncle_stored before inReach (u := u) (by rw [split]; simp)
    obtain ⟨parent, uncles⟩ := contained.placed main up below split stored
    have provided : ∀ {x}, Provided d g b earlier x → x ∈ earlier ∨ known x := by
      rintro x (member | ⟨a, upA, neA, rfl | listed⟩)
      · exact Or.inl member
      · exact Or.inr (ancestors x upA neA).1
      · exact Or.inr ((ancestors a upA neA).2 x listed)
    refine .cons stored neG (contained.keyed main up (Or.inr (by rw [split]; simp)) stored) (provided parent)
      (fun w listed => provided (uncles w listed)) ?_
    refine (ih (earlier ++ [u]) (by rw [split]; simp)).mono fun x known => ?_
    rw [List.mem_append, List.mem_singleton] at known
    tauto

/-- The main list below `c`, every block after its uncles. -/
theorem SelfContained.path {c : Byte64} {hs : List Byte64} (chain : ChainInv d g m) (path : MainPath d g m c hs)
    (up : Anc (parentOf d g) c p) {known : Byte64 → Prop} (knownAt : KnownAt d g c known) :
    InPlace d g known (hs.flatMap fun h => unclesOf d h ++ [h]) := by
  obtain ⟨rank, ranked, -⟩ := chain.tree.ranked
  induction path generalizing known with
  | nil => exact .nil known
  | @cons c b rest edge main path ih =>
    have flagged := (chain.main.2 b).mpr main
    have upB : Anc (parentOf d g) b p := (Anc.single edge).trans up
    have below : b ≠ p := by
      rintro rfl
      exact ranked.not_anc_child edge up
    obtain ⟨ne, spec, stored, parent, -⟩ := peer.spec_of_edge edge
    have ancestors : ∀ a, Anc (parentOf d g) b a → a ≠ b → known a ∧ ∀ u ∈ unclesOf d a, known u := by
      intro a upA neA
      rcases upA.cases_head with rfl | ⟨q, edge', rest⟩
      · exact absurd rfl neA
      · rw [edge, Option.some.injEq] at edge'
        rw [← edge'] at rest
        exact knownAt a rest
    have uncles := contained.uncles peer before inReach flagged upB below ancestors [] rfl
    simp only [List.flatMap_cons, List.append_assoc]
    refine (uncles.mono fun x known => known.resolve_left (by simp)).append ?_
    refine .cons stored ne (contained.keyed flagged upB (Or.inl ⟨rfl, below⟩) stored) ?_ (fun u listed => ?_) ?_
    · rw [parent]
      exact Or.inr (knownAt c Anc.refl).1
    · exact Or.inl (mem_unclesOf.mpr ⟨spec, stored, listed⟩)
    · refine ih upB fun a upA => ?_
      by_cases eq : a = b
      · subst eq
        exact ⟨Or.inl rfl, fun u listed => Or.inr (Or.inl listed)⟩
      · obtain ⟨knownA, knownU⟩ := ancestors a upA eq
        exact ⟨Or.inr (Or.inr knownA), fun u listed => Or.inr (Or.inr (knownU u listed))⟩

/-- The uncles of the first block are known to a node that has them as this one has. -/
theorem SelfContained.own {d' : Disk} (main : Flagged d p) (other : Peer X g d')
    (stores : ∀ u ∈ unclesOf d p, getSpec d' u = getSpec d u) :
    InPlace d g (fun x => (getSpec d' x).isSome) (unclesOf d p) := by
  refine InPlace.of_forall fun u listed => ?_
  obtain ⟨ne, spec, stored⟩ := peer.uncle_stored before inReach listed
  obtain ⟨⟨parent, storedP, -⟩, uncles⟩ := other.dag.follows ((stores u listed).trans stored) ne
  exact ⟨spec, stored, ne, contained.keyed main Anc.refl (Or.inr listed) stored, by rw [storedP]; rfl, uncles⟩

end Batch

/-! ## What is sent -/

section Wire

variable {d : Disk} {g m p : Byte64}

theorem getBlock_spec {h : Byte64} {b : Block} (found : getBlock d h = some b) : some b.spec = getSpec d h := by
  rw [getBlock] at found
  obtain ⟨spec, stored, rfl⟩ := Option.map_eq_some_iff.mp found
  rw [stored]
  rfl

theorem filterMap_specs {hashes : List Byte64} (stored : ∀ h ∈ hashes, (getSpec d h).isSome) :
    (hashes.filterMap (getBlock d)).map (fun b => some b.spec) = hashes.map (getSpec d) := by
  induction hashes with
  | nil => rfl
  | cons h hashes ih =>
    obtain ⟨b, block, -⟩ := getBlock_isSome (stored h List.mem_cons_self)
    rw [List.filterMap_cons_some block, List.map_cons, List.map_cons, getBlock_spec block,
      ih fun h member => stored h (List.mem_cons_of_mem _ member)]

theorem uncleBlocks_eq (d : Disk) (h : Byte64) : uncleBlocks d h = (unclesOf d h).filterMap (getBlock d) := by
  unfold uncleBlocks unclesOf
  cases getSpec d h with
  | none => rfl
  | some spec => rfl

theorem served_eq (d : Disk) (h : Byte64) : served d h = (unclesOf d h ++ [h]).filterMap (getBlock d) := by
  rw [served, uncleBlocks_eq, List.filterMap_append]
  cases block : getBlock d h with
  | none => simp [block]
  | some b => simp [block]

/-- The blocks of a batch, by their hashes. -/
theorem batch_specs (before : UnclesBefore d g) (inv : Canonical d g m) {own : List Byte64} {hs : List Byte64}
    (path : MainPath d g m p hs) (uncles : ∀ u ∈ own, u ∈ unclesOf d p) :
    (own.filterMap (getBlock d) ++ hs.flatMap (served d)).map (fun b => some b.spec) =
      (own ++ hs.flatMap fun h => unclesOf d h ++ [h]).map (getSpec d) := by
  obtain ⟨rank, ranked, -⟩ := inv.chain.tree.ranked
  have eq : hs.flatMap (served d) = (hs.flatMap fun h => unclesOf d h ++ [h]).filterMap (getBlock d) := by
    rw [List.filterMap_flatMap, funext (served_eq d)]
  have storedU : ∀ {h u}, u ∈ unclesOf d h → (getSpec d u).isSome := by
    intro h u listed
    obtain ⟨spec, found, member⟩ := mem_unclesOf.mp listed
    exact (before found member).1
  rw [eq, ← List.filterMap_append]
  refine filterMap_specs fun h member => ?_
  rcases List.mem_append.mp member with member | member
  · exact storedU (uncles h member)
  · obtain ⟨b, memberB, place⟩ := List.mem_flatMap.mp member
    rcases List.mem_append.mp place with listed | same
    · exact storedU listed
    · rw [List.mem_singleton.mp same, ← inv.stored_iff]
      exact inv.chain.tree.anc_stored inv.chain.main.1 (path.descends ranked memberB).1

end Wire

section Theorem

variable [Sha512] {X : Set Bytes} {g p : Byte64} {s r : System}

/-- **A self-contained batch is fed without a block out of place**, whatever its size, to every node that has
the ancestors of its first block and their uncles. -/
theorem batch_in_place (sound : Sound512 X g) (server : Reached (Hashing X) g s) (receiver : Reached (Hashing X) g r)
    (main : Flagged s.db p) (stores : ∀ a, Anc (parentOf s.db g) p a → getSpec r.db a = getSpec s.db a ∧
      ∀ u ∈ unclesOf s.db a, getSpec r.db u = getSpec s.db u)
    (contained : SelfContained s.db g p) {max : Int} {batch : List Block} {error : Option Err}
    (reply : descendents s.db p max = some (batch, error)) (i : Nat) {vs : List Delivery}
    (wire : vs.map (·.spec) = batch.map Block.spec) :
    ¬ ∃ e, (r.feed i vs).2 = some (.error e) ∧ OutOfPlace e := by
  rintro ⟨e, failed, outOfPlace⟩
  obtain ⟨m, inv, -⟩ := server.rebaseOk.onTip
  have before := server.rebaseOk.unclesBefore
  have inReach := server.unclesInReach sound
  have peer := server.peer sound
  have other := receiver.peer sound
  have positive : 0 ≤ max := by
    by_contra negative
    have capacity : min max maxBlocks < 0 := by simp [maxBlocks]; omega
    simp [descendents, capacity] at reply
  obtain ⟨own, hs, eq, path, uncles, -, -⟩ := descendents_spec inv before main max positive
  rw [eq, Option.some.injEq, Prod.mk.injEq] at reply
  obtain ⟨rfl, -⟩ := reply
  -- The hashes of the batch, in order.
  obtain ⟨ownHashes, ownEq, ownIn, ownPlace⟩ : ∃ hashes, own = hashes.filterMap (getBlock s.db) ∧
      (∀ u ∈ hashes, u ∈ unclesOf s.db p) ∧ InPlace s.db g (fun x => (getSpec r.db x).isSome) hashes := by
    rcases uncles with rfl | rfl
    · exact ⟨[], rfl, by simp, .nil _⟩
    · exact ⟨unclesOf s.db p, uncleBlocks_eq s.db p, fun u listed => listed,
        contained.own peer before inReach main other (stores p Anc.refl).2⟩
  have rest : InPlace s.db g (fun x => (getSpec r.db x).isSome) (hs.flatMap fun h => unclesOf s.db h ++ [h]) := by
    refine contained.path peer before inReach inv.chain path Anc.refl fun a up => ?_
    obtain ⟨sameA, sameU⟩ := stores a up
    refine ⟨?_, fun u listed => ?_⟩
    · rw [sameA, ← inv.stored_iff]
      exact inv.chain.tree.anc_stored (inv.chain.tree.anc_stored inv.chain.main.1 ((inv.chain.main.2 p).mp main)) up
    · rw [sameU u listed]
      obtain ⟨-, spec, stored⟩ := peer.uncle_stored before inReach listed
      rw [stored]
      rfl
  refine (ownPlace.append (rest.mono fun x known => Or.inr known)).feed sound peer inReach ?_ receiver.rebaseOk other
    (fun x known => known) failed outOfPlace
  have specs := congrArg (List.map some) wire
  rw [List.map_map, List.map_map, ownEq] at specs
  exact specs.trans (batch_specs before inv path ownIn)

end Theorem

section Worked

attribute [local instance] workedSha512

/-- The node that has the rivals and the child of both. -/
abbrev Worked.ahead : System := (System.boot 1 1 [7]).run Worked.joined

/-- The data that it hashed. -/
abbrev Worked.aheadHashed : List Bytes := hashedOn (System.boot 1 1 [7]) Worked.joined

/-- What the run comes to: no two hashed data collide, and the only uncle is the right block, a child of genesis. -/
theorem Worked.ahead_run :
    System.Along RebaseOk (System.boot 1 1 [7]) Worked.joined ∧
    ((∀ x ∈ Worked.aheadHashed, ∀ y ∈ Worked.aheadHashed, sum512 x = sum512 y → x = y) ∧
      (∀ x ∈ Worked.aheadHashed, sum512 x ≠ genesisParent) ∧ genesisHash 1 1 ≠ genesisParent) ∧
    (∀ b ∈ acceptedBlocks Worked.ahead.db, (b.1 ≠ genesisHash 1 1 → b.2.digest = b.1) ∧
      (b.2.uncles = [] ∨ b.2.uncles = [digest rightDigest]) ∧
      (b.1 = digest rightDigest → b.2.phash = genesisHash 1 1 ∧ b.2.uncles = [])) ∧
    digest rightDigest ≠ genesisHash 1 1 ∧ unclesOf Worked.ahead.db (genesisHash 1 1) = [] := by
  decide +kernel

theorem Worked.ahead_reached : Reached (Hashing {data | data ∈ Worked.aheadHashed}) (genesisHash 1 1) Worked.ahead := by
  have hashes : System.Along (HashesIn {data | data ∈ Worked.aheadHashed}) (System.boot 1 1 [7]) Worked.joined :=
    hashedOn_along fun _ member => member
  exact ⟨1, 1, [7], Worked.joined, Worked.started, rfl, Worked.ahead_run.1.and hashes, rfl⟩

theorem Worked.ahead_sound : Sound512 {data | data ∈ Worked.aheadHashed} (genesisHash 1 1) := by
  obtain ⟨-, check, -⟩ := Worked.ahead_run
  exact ⟨fun x memberX y memberY => check.1 x memberX y memberY, check.2.1, check.2.2⟩

/-- Its uncle is a child of genesis. -/
theorem Worked.ahead_contained : SelfContained Worked.ahead.db (genesisHash 1 1) (genesisHash 1 1) := by
  obtain ⟨-, -, blocks, right, -⟩ := Worked.ahead_run
  have uncles : ∀ h, unclesOf Worked.ahead.db h = [] ∨ unclesOf Worked.ahead.db h = [digest rightDigest] := by
    intro h
    unfold unclesOf
    cases found : getSpec Worked.ahead.db h with
    | none => exact Or.inl rfl
    | some spec => exact (blocks _ (mem_acceptedBlocks found)).2.1
  refine ⟨fun {b h spec} _ _ sent stored => ?_, fun {b earlier u later spec} _ up below split stored => ?_⟩
  · refine (blocks _ (mem_acceptedBlocks stored)).1 ?_
    rcases sent with ⟨rfl, ne⟩ | listed
    · exact ne
    · rcases uncles b with none' | one
      · rw [none'] at listed
        cases listed
      · rw [one, List.mem_singleton] at listed
        exact listed ▸ right
  · have one : [digest rightDigest] = earlier ++ u :: later := by
      rcases uncles b with none' | one
      · rw [none'] at split
        simp at split
      · exact one.symm.trans split
    obtain ⟨rfl, rfl, rfl⟩ : earlier = [] ∧ u = digest rightDigest ∧ later = [] := by
      cases earlier with
      | nil => simpa using one.symm
      | cons x earlier => simp at one
    obtain ⟨-, -, child⟩ := blocks _ (mem_acceptedBlocks stored)
    obtain ⟨parent, none'⟩ := child rfl
    refine ⟨Or.inr ⟨genesisHash 1 1, up, Ne.symm below, Or.inl parent⟩, fun w listed => ?_⟩
    rw [none'] at listed
    cases listed

theorem batch_in_place_joined :
    let r := System.boot 1 1 [7]
    ∃ batch, descendents Worked.ahead.db (genesisHash 1 1) 10 = some (batch, none) ∧
      batch.map Block.spec = [Worked.left, Worked.right, Worked.nephew] ∧
      ¬ ∃ e, (r.feed 0 (batch.map fun b => Worked.bare b.spec)).2 = some (.error e) ∧ OutOfPlace e := by
  intro r
  have run : (getChainNode Worked.ahead.db (genesisHash 1 1)).map (·.isMainList) = some true ∧
      getSpec r.db (genesisHash 1 1) = getSpec Worked.ahead.db (genesisHash 1 1) ∧
      (descendents Worked.ahead.db (genesisHash 1 1) 10).map (fun reply => (reply.1.map Block.spec, reply.2)) =
        some ([Worked.left, Worked.right, Worked.nephew], none) := by
    decide +kernel
  obtain ⟨mark, same, reply⟩ := run
  obtain ⟨-, -, -, -, alone⟩ := Worked.ahead_run
  obtain ⟨⟨batch, error⟩, reply, ends⟩ := Option.map_eq_some_iff.mp reply
  simp only [Prod.mk.injEq] at ends
  obtain ⟨specs, rfl⟩ := ends
  have receiver : Reached (Hashing {data | data ∈ Worked.aheadHashed}) (genesisHash 1 1) r :=
    ⟨1, 1, [7], [], Worked.started, rfl, trivial, rfl⟩
  refine ⟨batch, reply, specs, batch_in_place Worked.ahead_sound Worked.ahead_reached receiver
    (Option.map_eq_some_iff.mp mark) (fun a up => ?_) Worked.ahead_contained reply 0 ?_⟩
  · rcases up.cases_head with rfl | ⟨q, edge, -⟩
    · refine ⟨same, fun u listed => ?_⟩
      rw [alone] at listed
      cases listed
    · simp [parentOf] at edge
  · rw [List.map_map]
    rfl

end Worked

end TrustNet
