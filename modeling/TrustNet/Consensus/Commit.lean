import TrustNet.Consensus.Records

/-!
# What hashing a block writes

`computeHash` persists the overlay into the trie. Its writes are trie writes
that clean up exactly the roots in `cleanedRoots`, and the root it ends with is
available whenever the root it started from was.
-/

namespace TrustNet
set_option autoImplicit false
open WriteLog (WritesOnly)

variable [Sha512] {d d' : Disk} {cleaned : Byte64 → Prop} {h : Byte64}

/-! ## Availability -/

theorem TrieLog.getNode_isSome (log : TrieLog d) {k : Key} (trie : k.isTrie = true) :
    (getNode d k).isSome = (d.get k).isSome := by
  unfold getNode
  simp only [Disk.get_eq]
  cases read : WriteLog.get d k with
  | none => rfl
  | some v =>
    cases log _ (WriteLog.mem_of_get read) trie with
    | node n mark => rfl
    | txRoot h n empty => rfl

/-- A root stays available in writes that do not delete its two records. -/
theorem Available.of_writes {P : Key × Option Value → Prop} (log : TrieLog d) (log' : TrieLog d')
    (writes : WritesOnly P d d') (state : ¬ P (.state h, none)) (root : ¬ P (.txRoot h, none))
    (available : Available d h) : Available d' h := by
  constructor
  · have present := available.1
    unfold getState at present ⊢
    rw [log.getNode_isSome rfl] at present
    rw [log'.getNode_isSome rfl]
    exact writes.isSome state present
  · have present := available.2
    rw [log.getNode_isSome rfl] at present
    rw [log'.getNode_isSome rfl]
    exact writes.isSome root present

/-- A root stays available in trie writes that do not clean it up. -/
theorem Available.steps (log : TrieLog d) (steps : TrieSteps cleaned d d') (kept : ¬ cleaned h)
    (available : Available d h) : Available d' h := by
  refine available.of_writes log (log.steps steps) steps (fun write => ?_) (fun write => ?_)
  · cases write with
    | dropEmpty hit => exact kept hit
  · cases write with
    | dropRoot h hit => exact kept hit

omit [Sha512] in
/-- Writes outside the trie tables do not matter for availability. -/
theorem Available.writes {P : Key × Option Value → Prop} (writes : WritesOnly P d d')
    (other : ∀ w, P w → w.1.isTrie = false) (available : Available d h) : Available d' h := by
  have state := getNode_of_writes (k := .state h) writes fun _ write => by cases other _ write
  have root := getNode_of_writes (k := .txRoot h) writes fun _ write => by cases other _ write
  unfold Available getState at available ⊢
  rw [state, root]
  exact available

omit [Sha512] in
theorem getNode_write_self (d : Disk) (k : Key) (n : Node) : getNode (d.write k (some (.node n))) k = some n := by
  simp [getNode]

/-- A walk that returns a hash has just stored the node it returns. -/
theorem updateDepthFirst_stored (d : Disk) (n : Node) (keyHex : List (Fin 16)) (value : Bytes)
    (hit : (updateDepthFirst putState getState d n keyHex value).2.2 ≠ null) :
    (getState (updateDepthFirst putState getState d n keyHex value).1
      (updateDepthFirst putState getState d n keyHex value).2.2).isSome := by
  cases keyHex with
  | nil =>
    simp only [updateDepthFirst]
    exact Option.isSome_iff_exists.mpr ⟨_, getNode_write_self _ _ _⟩
  | cons k keyHex =>
    rw [updateDepthFirst_cons] at hit ⊢
    generalize updateDepthFirst putState getState d (childNode d n k) keyHex value = walk at hit ⊢
    obtain ⟨d', _, childHash⟩ := walk
    simp only at hit ⊢
    split at hit
    · exact absurd rfl hit
    · rename_i ne
      rw [if_neg ne]
      exact Option.isSome_iff_exists.mpr ⟨_, getNode_write_self _ _ _⟩

theorem deleteDepthFirst_stored (d : Disk) (n : Node) (keyHex : List (Fin 16))
    (hit : (deleteDepthFirst putState getState d n keyHex).2.2 ≠ null) :
    (getState (deleteDepthFirst putState getState d n keyHex).1
      (deleteDepthFirst putState getState d n keyHex).2.2).isSome := by
  cases keyHex with
  | nil =>
    simp only [deleteDepthFirst]
    exact Option.isSome_iff_exists.mpr ⟨_, getNode_write_self _ _ _⟩
  | cons k keyHex =>
    rw [deleteDepthFirst_cons] at hit ⊢
    split at hit
    · rename_i child
      rw [if_pos child]
      cases found : getState d (n.idxs k) with
      | none => simp [found] at hit
      | some child =>
        simp only [found] at hit ⊢
        generalize deleteDepthFirst putState getState d child keyHex = walk at hit ⊢
        obtain ⟨d', _, childHash⟩ := walk
        simp only at hit ⊢
        split at hit
        · exact absurd rfl hit
        · rename_i ne
          rw [if_neg ne]
          exact Option.isSome_iff_exists.mpr ⟨_, getNode_write_self _ _ _⟩
    · exact absurd rfl hit

/-! ## One entry of the overlay -/

/-- The world state of an engine or of a block: no transaction trie, and a proper root. -/
structure MptWorldState.Ready (ws : MptWorldState) : Prop where
  txNode : ws.txNode.IsEmpty
  rootHash : ws.rootHash ≠ null

variable {ws : MptWorldState}

/-- Moving the root of a world state to the root that a walk returned. -/
theorem switchRoot_spec (log : TrieLog d) (ready : ws.Ready) {walk : Disk × Node × Byte64}
    (steps : TrieSteps (fun _ => False) d walk.1) (stored : walk.2.2 ≠ null → (getState walk.1 walk.2.2).isSome) :
    TrieSteps (fun _ => False) d (ws.switchRoot walk).1 ∧ (ws.switchRoot walk).2.1.Ready ∧
      (ws.switchRoot walk).2.2 = (ws.switchRoot walk).2.1.rootHash ∧
      (Available d ws.rootHash → Available (ws.switchRoot walk).1 (ws.switchRoot walk).2.1.rootHash) := by
  refine ⟨switchRoot_steps ready.txNode steps, ⟨switchRoot_txNode ready.txNode walk, ?_⟩, switchRoot_hash ws walk, ?_⟩
  · obtain ⟨d₁, rootNode, newHash⟩ := walk
    rw [switchRoot_eq]
    split
    · assumption
    · exact ready.rootHash
  · intro available
    have kept := Available.steps log steps not_false available
    obtain ⟨d₁, rootNode, newHash⟩ := walk
    rw [switchRoot_eq]
    split
    · rename_i ne
      refine ⟨?_, Option.isSome_iff_exists.mpr ⟨_, getNode_write_self _ _ _⟩⟩
      simp only [getState, getNode, Disk.get_eq, WriteLog.get_write_of_ne _ _ (show Key.txRoot _ ≠ Key.state _ by simp)]
      exact stored ne
    · exact kept

theorem commit_spec (log : TrieLog d) (ready : ws.Ready) (entry : Entry) :
    TrieSteps (fun _ => False) d (ws.commit d entry).1 ∧ (ws.commit d entry).2.1.Ready ∧
      (ws.commit d entry).2.2 = (ws.commit d entry).2.1.rootHash ∧
      (Available d ws.rootHash → Available (ws.commit d entry).1 (ws.commit d entry).2.1.rootHash) := by
  obtain ⟨key, value⟩ := entry
  cases value with
  | none =>
    exact switchRoot_spec log ready (deleteDepthFirst_steps _ _ _) (deleteDepthFirst_stored _ _ _)
  | some value =>
    exact switchRoot_spec log ready (updateDepthFirst_steps _ _ _ _) (updateDepthFirst_stored _ _ _ _)

/-! ## The overlay -/

/-- The roots that `persistState` cleans up: those it leaves after its first change of the root. -/
def cleanedRoots (d : Disk) (ws : MptWorldState) : List Entry → Bool → List Byte64
  | [], _ => []
  | entry :: entries, skippedParentState =>
    match ws.commit d entry with
    | (d', ws', newHash) =>
      if newHash = ws.rootHash then cleanedRoots d' ws' entries skippedParentState
      else if skippedParentState then ws.rootHash :: cleanedRoots (cleanup d' ws.rootHash).1 ws' entries true
      else cleanedRoots d' ws' entries true

theorem cleanedRoots_singleton (d : Disk) (ws : MptWorldState) (entry : Entry) :
    cleanedRoots d ws [entry] false = [] := by
  simp [cleanedRoots]

/-- What `persistState` leaves. -/
structure Persisted (d : Disk) (ws : MptWorldState) (cleaned : List Byte64) (d' : Disk) (ws' : MptWorldState) :
    Prop where
  steps : TrieSteps (· ∈ cleaned) d d'
  ready : ws'.Ready
  available : Available d ws.rootHash → Available d' ws'.rootHash

theorem persistState_spec (log : TrieLog d) (ready : ws.Ready) (entries : List Entry) (skipped : Bool) :
    Persisted d ws (cleanedRoots d ws entries skipped) (persistState d ws entries skipped).1
      (persistState d ws entries skipped).2 := by
  induction entries generalizing d ws skipped with
  | nil => exact ⟨WritesOnly.refl d, ready, id⟩
  | cons entry entries ih =>
    obtain ⟨steps, ready', newRoot, available⟩ := commit_spec log ready entry
    rw [persistState, cleanedRoots]
    generalize ws.commit d entry = result at steps ready' newRoot available ⊢
    obtain ⟨d₁, ws₁, newHash⟩ := result
    simp only at steps ready' newRoot available ⊢
    have log₁ := log.steps steps
    split
    · have rest := ih log₁ ready' skipped
      exact ⟨(steps.mono (TrieWrite.mono fun _ hit => hit.elim)).trans rest.steps, rest.ready,
        fun start => rest.available (available start)⟩
    · rename_i ne
      split
      · have cleaning := cleanup_steps log₁ ws.rootHash
        have rest := ih (log₁.steps cleaning) ready' true
        rename_i skip
        rw [skip]
        refine ⟨(steps.mono (TrieWrite.mono fun _ hit => hit.elim)).trans ((cleaning.mono (TrieWrite.mono ?_)).trans
          (rest.steps.mono (TrieWrite.mono fun r hit => List.mem_cons_of_mem _ hit))), rest.ready,
          fun start => rest.available ?_⟩
        · rintro r rfl
          exact List.mem_cons_self
        · exact Available.steps log₁ cleaning (by rw [← newRoot]; exact ne) (available start)
      · have rest := ih log₁ ready' true
        exact ⟨(steps.mono (TrieWrite.mono fun _ hit => hit.elim)).trans rest.steps, rest.ready,
          fun start => rest.available (available start)⟩

/-! ## Hashing -/

/-- The data whose digest `computeHash` took for the hash of `b`. -/
def Block.hashInput (b : Block) : Bytes :=
  b.preimage ((b.worldState.map (·.rootHash)).getD b.state) ++ uint64Bytes b.nonce

/-- An approved hash is the digest of the data with the nonce, and the approver said so. -/
theorem searchNonce_some {data : Bytes} {pow : Option PowApprover} {ts delta last first nonce : UInt64}
    {isNetworkBlock : Bool} {tries : Nat} {h : Byte64}
    (found : searchNonce data pow ts delta isNetworkBlock tries last first = (nonce, some h)) :
    h = sum512 (data ++ uint64Bytes nonce) ∧ ∀ approve, pow = some approve → approve h.bytes ts delta = true := by
  induction tries generalizing last first with
  | zero => cases found
  | succ tries ih =>
    simp only [searchNonce, ite_eq_iff] at found
    rcases found with ⟨done, hit⟩ | ⟨-, ⟨-, stop⟩ | ⟨-, next⟩⟩
    · cases hit
      refine ⟨rfl, ?_⟩
      rintro approve rfl
      exact done
    · cases stop
    · exact ih next

/-- `computeHash` persists the overlay and changes the state, nonce and hash of the block. -/
theorem computeHash_spec {b : Block} (log : TrieLog d) (hasState : b.worldState = some ws) (ready : ws.Ready)
    (order : List Entry) (tries : Nat) :
    ∃ ws' nonce hash, Persisted d ws (cleanedRoots d ws order false) (b.computeHash d order tries).1 ws' ∧
      persistState d ws order false = ((b.computeHash d order tries).1, ws') ∧
      (b.computeHash d order tries).2.2 = hash ∧
      (b.computeHash d order tries).2.1 =
        { b with
          worldState := some ws', state := if b.isNetworkBlock then b.state else ws'.rootHash,
          nonce, hash := hash.or b.hash } ∧
      ∀ h, hash = some h → h = sum512 (b.preimage ws'.rootHash ++ uint64Bytes nonce) ∧
        ∀ approve, b.pow = some approve → approve h.bytes b.ts b.delta = true := by
  have persisted := persistState_spec log ready order false
  unfold Block.computeHash Block.commitState
  simp only [hasState]
  generalize persistState d ws order false = result at persisted ⊢
  obtain ⟨d', ws'⟩ := result
  simp only at persisted ⊢
  refine ⟨ws', ?_⟩
  by_cases network : b.isNetworkBlock = true
  · simp only [network, if_true]
    split
    · rename_i nonce _
      exact ⟨nonce, none, persisted, rfl, rfl, by simp, by simp⟩
    · rename_i nonce hash found
      exact ⟨nonce, some hash, persisted, rfl, rfl, by simp, fun h eq => Option.some.inj eq ▸ searchNonce_some found⟩
  · simp only [network]
    split
    · rename_i nonce _
      exact ⟨nonce, none, persisted, rfl, rfl, by simp, by simp⟩
    · rename_i nonce hash found
      exact ⟨nonce, some hash, persisted, rfl, rfl, by simp, fun h eq => Option.some.inj eq ▸ searchNonce_some found⟩

end TrustNet
