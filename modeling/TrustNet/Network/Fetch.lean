import TrustNet.Consensus.Snapshot
import TrustNet.Consensus.Sync
import TrustNet.Network.SyncNode

/-!
# Requests for blocks (`handleGetBlocksRequestMsg`)

A peer that was sent hashes asks for their blocks. The blocks that `Block` hands out are
sent in the order of the hashes, and those that it does not find, or whose world state
cannot be rebuilt, are left out without a word. With the states in place the two requests
come to what `Descendents` returned, also if the node went on in between.
-/

namespace TrustNet
set_option autoImplicit false
open WriteLog (WritesOnly)

/-- The errors of the handlers of block messages, by their codes. -/
inductive FetchError where
  | peer (e : PeerError)
  | invalidRequest (msg : String)
  | notFound (msg : String)
  deriving DecidableEq

section Model

variable {σ : Type} [Database σ] [Sha512]

/-- The loop over the hashes. Each call of `Block` writes to the trie. -/
def fetchBlocks (db : σ) : List Byte64 → σ × List BlockSpec
  | [] => (db, [])
  | hash :: hashes =>
    match blockAt db hash with
    | (db, .error _) => fetchBlocks db hashes
    | (db, .ok block) =>
      match fetchBlocks db hashes with
      | (db, blocks) => (db, block.spec :: blocks)

/-- `handleGetBlocksRequestMsg`, on what `Decode` returned and with the error of `Send`: the database, the blocks that are
sent, and the error. -/
def handleGetBlocksRequestMsg (db : σ) (msg : Except String (List Byte64)) (send : List BlockSpec → Option String) :
    σ × Option (List BlockSpec) × Option FetchError :=
  match msg with
  | .error e => (db, none, some (.peer (.syncFailed e)))
  | .ok hashes =>
    if hashes.length < 1 then (db, none, some (.invalidRequest "GetBlocksRequestMsg does not have any hashes"))
    else
      match fetchBlocks db hashes with
      | (db, blocks) =>
        if blocks.length < 1 then (db, none, some (.notFound "GetBlocksRequestMsg did not find any blocks"))
        else (db, some blocks, (send blocks).map fun e => .peer (.send e))

/-- What `handleGetBlockHashesResponseMsg` does: the hashes that it asks the blocks of, the signal to `syncNode` and the
error. -/
structure HashesHandled where
  request : Option (List Byte64)
  signal : Option ChanSignal
  error : Option PeerError

/-- `handleGetBlockHashesResponseMsg`, on what `Decode` returned and with the error of `Send`. -/
def handleGetBlockHashesResponseMsg (msg : Except String (List Byte64)) (send : List Byte64 → Option String) :
    HashesHandled :=
  match msg with
  | .error e => ⟨none, some .error, some (.syncFailed e)⟩
  | .ok hashes =>
    if hashes.length < 1 then ⟨none, some .done, none⟩
    else
      match send hashes with
      | some e => ⟨some hashes, some .abort, some (.syncFailed e)⟩
      | none => ⟨some hashes, none, none⟩

end Model

/-! ## The loop -/

section Loop

variable [Sha512] {d : Disk} {hashes : List Byte64}

/-- With the states of the blocks in place, all of them are sent. -/
theorem fetchBlocks_eq (log : TrieLog d)
    (stored : ∀ h ∈ hashes, ∃ spec, getSpec d h = some spec ∧ Available d spec.state) :
    (fetchBlocks d hashes).2.map some = hashes.map (getSpec d) := by
  induction hashes generalizing d with
  | nil => rfl
  | cons hash hashes ih =>
    obtain ⟨spec, found, available⟩ := stored hash List.mem_cons_self
    have fetched := blockAt_eq found (canRebase_of_available log available)
    have steps := blockAt_steps log hash
    have same := SameRecords.of_steps steps
    have rest := ih (log.steps steps) fun h member => by
      obtain ⟨spec, found, available⟩ := stored h (List.mem_cons_of_mem _ member)
      exact ⟨spec, (same.spec h).trans found, available.steps log steps id⟩
    unfold fetchBlocks
    generalize blockAt d hash = result at fetched same rest
    obtain ⟨d', block⟩ := result
    simp only at fetched rest ⊢
    subst fetched
    simp only [List.map_cons, rest, found]
    congr 1
    exact List.map_congr_left fun h _ => same.spec h

end Loop

/-! ## Both requests -/

section Batch

variable {d : Disk}

theorem mapM_getBlock_stored {us : List Byte64} {blocks : List Block} (found : us.mapM (getBlock d) = some blocks) :
    ∀ b ∈ blocks, ∃ h, getBlock d h = some b := by
  induction us generalizing blocks with
  | nil =>
    cases found
    simp
  | cons u us ih =>
    simp only [List.mapM_cons, Option.bind_eq_bind, Option.bind_eq_some_iff, Option.pure_def, Option.some.injEq] at found
    obtain ⟨b, block, rest, found, rfl⟩ := found
    exact List.forall_mem_cons.mpr ⟨⟨u, block⟩, ih found⟩

/-- What the loop of `Descendents` lists is stored. -/
theorem descendentsFrom_stored {parent : Byte64} {max : Nat} (fuel : Nat) {node : Option ChainNode} {found blocks : List Block}
    {count : Nat} {e : Option Err} (result : descendentsFrom d parent max fuel node found count = some (blocks, e))
    (stored : ∀ b ∈ found, ∃ h, getBlock d h = some b) : ∀ b ∈ blocks, ∃ h, getBlock d h = some b := by
  induction fuel generalizing node found count with
  | zero =>
    cases node with
    | none =>
      cases result
      exact stored
    | some node =>
      rw [descendentsFrom] at result
      split at result
      · cases result
        exact stored
      · cases result
  | succ fuel ih =>
    cases node with
    | none =>
      cases result
      exact stored
    | some node =>
      rw [descendentsFrom] at result
      split at result
      · cases result
        exact stored
      · cases own : getBlock d node.hash with
        | none =>
          rw [own] at result
          cases result
          exact stored
        | some block =>
          rw [own] at result
          simp only at result
          split at result
          · cases result
            exact stored
          · cases uncles : block.uncles.mapM (getBlock d) with
            | none =>
              rw [uncles] at result
              cases result
              exact stored
            | some us =>
              rw [uncles] at result
              refine ih result fun b member => ?_
              rcases List.mem_append.mp member with member | member
              · rcases List.mem_append.mp member with member | member
                · exact stored b member
                · exact mapM_getBlock_stored uncles b member
              · split at member
                · cases member
                · rw [List.mem_singleton.mp member]
                  exact ⟨node.hash, own⟩

theorem descendents_stored {parent : Byte64} {max : Int} {blocks : List Block} {e : Option Err}
    (result : descendents d parent max = some (blocks, e)) : ∀ b ∈ blocks, ∃ h, getBlock d h = some b := by
  unfold descendents at result
  simp only at result
  split at result
  · cases result
  · split at result
    · cases result
      simp
    · split at result
      · cases result
        simp
      · exact descendentsFrom_stored _ result (by simp)

/-- The hashes of stored blocks lead back to them. -/
theorem map_getSpec_of_mapM {blocks : List Block} {hashes : List Byte64} (stored : ∀ b ∈ blocks, ∃ h, getBlock d h = some b)
    (listed : blocks.mapM (·.hash) = some hashes) : hashes.map (getSpec d) = blocks.map fun b => some b.spec := by
  induction blocks generalizing hashes with
  | nil =>
    cases listed
    rfl
  | cons b blocks ih =>
    obtain ⟨h, found⟩ := stored b List.mem_cons_self
    simp only [List.mapM_cons, Option.bind_eq_bind, Option.bind_eq_some_iff, Option.pure_def, Option.some.injEq] at listed
    obtain ⟨h', hash, rest, listed, rfl⟩ := listed
    rw [getBlock_hash found, Option.some.injEq] at hash
    subst hash
    rw [List.map_cons, List.map_cons, ih (fun b member => stored b (List.mem_cons_of_mem _ member)) listed,
      getBlock_spec found]

/-- An answer with hashes is a batch. -/
theorem answered_batch {request : GetBlockHashesRequestMsg} {hashes : List Byte64} {send : HashesMsg → Option String}
    {error : Option PeerError}
    (answered : handleGetBlockHashesRequestMsg d (.ok request) send = some (some (.response hashes), error)) :
    ∃ batch e, descendents d request.parentHash (toInt request.maxBlocks) = some (batch, e) ∧ batch ≠ [] ∧
      batch.mapM (·.hash) = some hashes := by
  unfold handleGetBlockHashesRequestMsg at answered
  simp only at answered
  cases result : descendents d request.parentHash (toInt request.maxBlocks) with
  | none =>
    rw [result] at answered
    cases answered
  | some reply =>
    obtain ⟨batch, e⟩ := reply
    rw [result] at answered
    simp only at answered
    split at answered
    · cases answered
    · rename_i several
      refine ⟨batch, e, rfl, ?_, ?_⟩
      · rintro rfl
        exact several Nat.one_pos
      · cases listed : batch.mapM (·.hash) with
        | none =>
          rw [listed] at answered
          cases answered
        | some found =>
          rw [listed] at answered
          cases answered
          rfl

end Batch

section Answer

variable [Sha512] {d d' : Disk} {parent : Byte64} {max : Int} {batch : List Block} {e : Option Err} {hashes : List Byte64}

/-- The request for the blocks of a batch is answered with the batch, by a database that still has them. -/
theorem handle_batch (result : descendents d parent max = some (batch, e)) (several : batch ≠ [])
    (listed : batch.mapM (·.hash) = some hashes) (log : TrieLog d') (kept : SpecsKept d d')
    (states : ∀ h spec, getSpec d' h = some spec → Available d' spec.state) :
    (handleGetBlocksRequestMsg d' (.ok hashes) fun _ => none).2 = (some (batch.map Block.spec), none) := by
  have specs := map_getSpec_of_mapM (descendents_stored result) listed
  have stored : ∀ h ∈ hashes, ∃ spec, getSpec d h = some spec := by
    intro h member
    have there : getSpec d h ∈ batch.map fun b => some b.spec := by
      rw [← specs]
      exact List.mem_map_of_mem member
    obtain ⟨b, -, eq⟩ := List.mem_map.mp there
    exact ⟨b.spec, eq.symm⟩
  have later : hashes.map (getSpec d') = hashes.map (getSpec d) := by
    refine List.map_congr_left fun h member => ?_
    obtain ⟨spec, old⟩ := stored h member
    rw [old, kept h spec old]
  have fetched : (fetchBlocks d' hashes).2.map some = hashes.map (getSpec d') :=
    fetchBlocks_eq log fun h member => by
      obtain ⟨spec, old⟩ := stored h member
      exact ⟨spec, kept h spec old, states h spec (kept h spec old)⟩
  have blocks : (fetchBlocks d' hashes).2 = batch.map Block.spec := by
    rw [later, specs] at fetched
    refine List.map_injective_iff.mpr (Option.some_injective _) (fetched.trans ?_)
    rw [List.map_map]
    rfl
  have sends : ¬ (batch.map Block.spec).length < 1 := by
    rw [List.length_map, Nat.not_lt]
    exact List.length_pos_iff.mpr several
  have asked : ¬ hashes.length < 1 := by
    have length := congrArg List.length specs
    rw [List.length_map, List.length_map] at length
    rw [List.length_map] at sends
    omega
  unfold handleGetBlocksRequestMsg
  simp only [if_neg asked]
  generalize fetchBlocks d' hashes = reply at blocks
  obtain ⟨d₁, sent⟩ := reply
  simp only at blocks ⊢
  rw [blocks, if_neg sends]
  rfl

variable {g : Byte64} {s : System}

/-- **Hashes and then blocks are the batch.** A node answers a request for hashes with those of a batch. When it is asked
for these blocks, later and as long as the states of its blocks are there, it sends all of them, in order. -/
theorem fetched_batch (server : Reached RebaseOk g s) {actions : List Action} (along : System.Along RebaseOk s actions)
    (states : ∀ h spec, getSpec (s.run actions).db h = some spec → Available (s.run actions).db spec.state)
    {request : GetBlockHashesRequestMsg} {hashes : List Byte64}
    (answered : handleGetBlockHashesRequestMsg s.db (.ok request) (fun _ => none) = some (some (.response hashes), none)) :
    ∃ batch e, descendents s.db request.parentHash (toInt request.maxBlocks) = some (batch, e) ∧ batch ≠ [] ∧
      (handleGetBlocksRequestMsg (s.run actions).db (.ok hashes) fun _ => none).2 = (some (batch.map Block.spec), none) := by
  obtain ⟨batch, e, result, several, listed⟩ := answered_batch answered
  exact ⟨batch, e, result, several,
    handle_batch result several listed (server.run along).ready.log (server.specsKept along) states⟩

end Answer

section Worked

attribute [local instance] workedSha512

/-- The node that accepts `rightChild` after `nephew`. -/
abbrev Worked.furtherAhead : System := Worked.ahead.run (Worked.deliver Worked.rightChild)

/-- The hashes of the batch: `nephew`, after its parent and its uncle. -/
abbrev Worked.joinedHashes : List Byte64 := [digest leftDigest, digest rightDigest, digest nephewDigest]

/-- The node accepts `rightChild` between the two requests. -/
theorem fetched_batch_joined :
    ∃ batch e, descendents Worked.ahead.db (genesisHash 1 1) (toInt 10) = some (batch, e) ∧ batch ≠ [] ∧
      (handleGetBlocksRequestMsg Worked.furtherAhead.db (.ok Worked.joinedHashes) fun _ => none).2 =
        (some (batch.map Block.spec), none) := by
  have run : System.Along RebaseOk Worked.ahead (Worked.deliver Worked.rightChild) ∧
      (∀ b ∈ acceptedBlocks Worked.furtherAhead.db, (getState Worked.furtherAhead.db b.2.state).isSome ∧
        (getNode Worked.furtherAhead.db (.txRoot b.2.state)).isSome) ∧
      handleGetBlockHashesRequestMsg Worked.ahead.db (.ok ⟨genesisHash 1 1, 10⟩) (fun _ => none) =
        some (some (.response Worked.joinedHashes), none) := by decide +kernel
  obtain ⟨along, states, answered⟩ := run
  have available : ∀ h spec, getSpec Worked.furtherAhead.db h = some spec → Available Worked.furtherAhead.db spec.state :=
    fun h spec found => states (h, spec) (mem_acceptedBlocks found)
  have fetched := fetched_batch Worked.ahead_reached.rebaseOk along available answered
  exact fetched

end Worked

end TrustNet
