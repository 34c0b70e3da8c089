import TrustNet.Consensus.Availability
import TrustNet.Consensus.Receive

/-!
# Blocks that write

`Cleanup` can delete the record of a root that is in use, and the `Rebase` of the engine then
fails. A block that writes a key is safe from it: each time its overlay is persisted, the
write puts the record of the root again, so it is there when the engine rebases to it.

`Submit` lists what a call of `AcceptNetworkBlock` or `MineCandidateBlock` does with the
overlay of the block, in the order in which it is visited.
-/

namespace TrustNet
set_option autoImplicit false
open WriteLog (WritesOnly)

section Persist

variable [Sha512] {d : Disk} {ws : MptWorldState} {T : Contents}

omit [Sha512] in
theorem switchRoot_available {walk : Disk × Node × Byte64} (proper : walk.2.2 ≠ null)
    (stored : (getState walk.1 walk.2.2).isSome) :
    Available (ws.switchRoot walk).1 (ws.switchRoot walk).2.1.rootHash := by
  obtain ⟨d₁, rootNode, newHash⟩ := walk
  rw [switchRoot_eq, if_pos proper]
  refine ⟨?_, Option.isSome_iff_exists.mpr ⟨_, getNode_write_self _ _ _⟩⟩
  simp only [getState, getNode, Disk.get_eq, WriteLog.get_write_of_ne _ _ (show Key.txRoot _ ≠ Key.state _ by simp)]
  exact stored

/-- After a write the root is there. -/
theorem Holds.update_available (log : TrieLog d) (holds : Holds d ws T) (key value : Bytes)
    (sound : HashSound (Known (ws.update d key value).1)) :
    Available (ws.update d key value).1 (ws.update d key value).2.1.rootHash := by
  have sound₁ := sound.of_suffix (switchRoot_writes ws _).suffix
  have walked := updateDepthFirst_rep (makeHex key) value log holds.rep sound₁
  have proper : (updateDepthFirst putState getState d ws.rootNode (makeHex key) value).2.2 ≠ null := by
    rw [walked.hash]
    exact sound₁.proper (Or.inr walked.stored)
  exact switchRoot_available proper (updateDepthFirst_stored _ _ _ _ proper)

/-- **An overlay with a write leaves a root that is there.** -/
theorem persistState_available (entries : List Entry) (skipped : Bool) (log : TrieLog d) (ready : ws.Ready)
    (whole : Whole d) (holds : Holds d ws T) (written : ∃ e ∈ entries, e.2.isSome)
    (sound : HashSound (Known (persistState d ws entries skipped).1)) :
    Available (persistState d ws entries skipped).1 (persistState d ws entries skipped).2.rootHash := by
  induction entries generalizing d ws T skipped with
  | nil =>
    obtain ⟨e, member, -⟩ := written
    cases member
  | cons entry entries ih =>
    obtain ⟨steps, ready', newRoot, -⟩ := commit_spec log ready entry
    have committed := holds.commit log whole entry
    -- a write makes the root available, and a deletion leaves a write for later
    have now : HashSound (Known (ws.commit d entry).1) →
        Available (ws.commit d entry).1 (ws.commit d entry).2.1.rootHash ∨ ∃ e ∈ entries, e.2.isSome := by
      intro sound
      obtain ⟨key, value⟩ := entry
      cases value with
      | some value => exact Or.inl (holds.update_available log key value sound)
      | none =>
        obtain ⟨e, member, writes⟩ := written
        rcases List.mem_cons.mp member with rfl | later
        · cases writes
        · exact Or.inr ⟨e, later, writes⟩
    rw [persistState] at sound ⊢
    generalize ws.commit d entry = result at steps ready' newRoot committed now sound ⊢
    obtain ⟨d₁, ws₁, newHash⟩ := result
    simp only at steps ready' newRoot committed now sound ⊢
    have log₁ := log.steps steps
    split at sound
    · rename_i same
      rw [if_pos same]
      have sound₁ := sound.of_suffix (persistState_grows d₁ ws₁ entries skipped)
      obtain ⟨holds₁, whole₁⟩ := committed sound₁
      rcases now sound₁ with available | later
      · exact (persistState_spec log₁ ready' entries skipped).available available
      · exact ih skipped log₁ ready' whole₁ holds₁ later sound
    · rename_i ne
      rw [if_neg ne]
      split at sound
      · rename_i skip
        rw [if_pos skip]
        have cleaning := cleanup_steps log₁ ws.rootHash
        have log₂ := log₁.steps cleaning
        have sound₁ := (sound.of_suffix (persistState_grows _ ws₁ entries skipped)).of_suffix cleaning.suffix
        obtain ⟨holds₁, whole₁⟩ := committed sound₁
        rcases now sound₁ with available | later
        · refine (persistState_spec log₂ ready' entries skipped).available ?_
          exact Available.steps log₁ cleaning (by rw [← newRoot]; exact ne) available
        · exact ih skipped log₂ ready' (whole₁.cleanup _) (holds₁.of_suffix cleaning.suffix) later sound
      · rename_i keep
        rw [if_neg keep]
        have sound₁ := sound.of_suffix (persistState_grows d₁ ws₁ entries true)
        obtain ⟨holds₁, whole₁⟩ := committed sound₁
        rcases now sound₁ with available | later
        · exact (persistState_spec log₁ ready' entries true).available available
        · exact ih true log₁ ready' whole₁ holds₁ later sound

end Persist

/-! ## Submissions -/

section Submit

variable [Sha512] {s s' : System} {i : Nat} {order : List Entry} {tries : Nat} {o : Option Outcome}

/-- What a submission does: the block is turned down before it is added, or its overlay is persisted to the state that
the block names, and the block is added. -/
inductive Submit (s : System) (i : Nat) (order : List Entry) : System → Option Outcome → Prop where
  | refused (s' : System) (o : Option Outcome) (records : SameRecords s.db s'.db) (engine : s'.engine = s.engine)
      (fine : ∀ msg, o ≠ some (.error (.core .notFound msg))) : Submit s i order s' o
  | added (c c' : BlockChainConsensus) (b child : Block) (ws₀ ws : MptWorldState) (parent : BlockSpec) (d₁ d' : Disk)
      (inputs : List Bytes) (outcome : Outcome) (engine : s.engine = some c) (block : s.blocks i = some b)
      (state : b.worldState = some ws₀) (perm : order.Perm b.vars.entries) (valid : Valid s.db b.toBlockSpec parent)
      (hashed : Hashed s.db b ws₀ order inputs d₁ child ws) (root : child.state = ws.rootHash)
      (result : AddResult c d₁ child c' d' outcome) :
      Submit s i order (s.submitted i c' d' child outcome).1 (some outcome)

theorem Submit.idle (s : System) (i : Nat) (order : List Entry) : Submit s i order s none :=
  .refused s none (SameRecords.refl s.db) rfl (by simp)

theorem Submit.of_error {c : BlockChainConsensus} (engine : s.engine = some c) {d' : Disk} (records : SameRecords s.db d')
    (b : Block) {e : Err} (refusal : e.Refusal) :
    Submit s i order (s.submitted i c d' b (.error e)).1 (s.submitted i c d' b (.error e)).2 := by
  rw [submitted_error s i engine]
  refine .refused _ _ records rfl fun msg same => refusal msg ?_
  simpa using same

theorem Submit.of_added {c c' : BlockChainConsensus} {b child : Block} {ws₀ ws : MptWorldState} {parent : BlockSpec}
    {d₁ d' : Disk} {inputs : List Bytes} {outcome : Outcome} (engine : s.engine = some c) (block : s.blocks i = some b)
    (state : b.worldState = some ws₀) (perm : order.Perm b.vars.entries) (valid : Valid s.db b.toBlockSpec parent)
    (hashed : Hashed s.db b ws₀ order inputs d₁ child ws) (root : child.state = ws.rootHash)
    (result : AddResult c d₁ child c' d' outcome) :
    Submit s i order (s.submitted i c' d' child outcome).1 (s.submitted i c' d' child outcome).2 := by
  have same : (s.submitted i c' d' child outcome).2 = some outcome := by cases outcome <;> rfl
  rw [same]
  exact .added c c' b child ws₀ ws parent d₁ d' inputs outcome engine block state perm valid hashed root result

/-- `AcceptNetworkBlock`. -/
theorem accept_submit (ready : SystemReady s) :
    Submit s i order (s.next (.accept i order tries)) (s.step (.accept i order tries)).2 := by
  unfold System.next
  simp only [System.step, System.onBlock]
  split
  · rename_i c b engine block
    split
    · rename_i guard
      obtain ⟨ws₀, state, ok⟩ := ready.blocks i b block
      rcases acceptNetworkBlock_cases ready.log state ok (ready.engine c engine).1 order tries with
        ⟨e, miners, code, eq⟩ | ⟨parent, d₁, child, ws, valid, hashed, ⟨e, code, eq⟩ | ⟨root, c', d', outcome, result, eq⟩⟩
      · rw [eq]
        exact .of_error engine (SameRecords.refl s.db) _ code
      · rw [eq]
        exact .of_error engine hashed.records _ code
      · rw [eq]
        exact .of_added engine block state guard.2 valid hashed root result
    · exact .idle s i order
  · exact .idle s i order

/-- `MineCandidateBlock`. -/
theorem mine_submit (ready : SystemReady s) (apprvr : Option PowApprover) :
    Submit s i order (s.next (.mine i apprvr order tries)) (s.step (.mine i apprvr order tries)).2 := by
  unfold System.next
  simp only [System.step, System.onBlock]
  split
  · rename_i c b engine block
    split
    · rename_i guard
      obtain ⟨ws₀, state, ok⟩ := ready.blocks i b block
      rcases mineCandidateBlock_cases ready.log state ok (ready.engine c engine).1 guard.1 apprvr order tries with
        ⟨e, miners, pow, code, eq⟩ | ⟨parent, d₁, child, ws, valid, hashed, ⟨e, code, eq⟩ | ⟨root, c', d', outcome, result, eq⟩⟩
      · rw [eq]
        exact .of_error engine (SameRecords.refl s.db) _ code
      · rw [eq]
        exact .of_error engine hashed.records _ code
      · rw [eq]
        exact .of_added engine block state guard.2 valid hashed root result
    · exact .idle s i order
  · exact .idle s i order

end Submit

end TrustNet
