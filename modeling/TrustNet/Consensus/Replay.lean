import TrustNet.Consensus.Receive
import TrustNet.Trie.Versions

/-!
# The state of a replayed block

What an application does with a block is recorded in the overlay, and the overlay is a
function of the accesses and of the keys that the world state has at the start. So is
the world state that persisting the overlay leaves. Two nodes that start from the same
root and make the same accesses end with the same root, in whatever order they visit
the overlay and whatever else is in their databases.
-/

namespace TrustNet
set_option autoImplicit false

/-- The overlay after an access to a block whose world state has the keys of `version`. -/
def BlockOp.record (version : Version) (vars : Variables) : BlockOp → Variables
  | .update key value => vars.insert key (some value)
  | .delete key => vars.insert key none
  | .lookup key =>
    match vars.lookup key, version key with
    | none, some value => vars.insert key (some value)
    | _, _ => vars

/-- The overlay after all accesses. -/
def overlay (version : Version) (ops : List BlockOp) : Variables := ops.foldl (BlockOp.record version) ∅

section Working

variable [Sha512] {d d' d₁ d₁' : Disk} {ws ws' t t' : MptWorldState} {T T' : Contents} {h : Byte64}
  {order order' : List Entry} {vars : Variables}

/-- A world state at work on a database: it has the contents `T`. -/
structure Working (d : Disk) (ws : MptWorldState) (T : Contents) : Prop where
  log : TrieLog d
  whole : Whole d
  ready : ws.Ready
  holds : Holds d ws T

/-- Others may write to the trie. -/
theorem Working.steps {cleaned : Byte64 → Prop} (working : Working d ws T) (steps : TrieSteps cleaned d d')
    (whole : Whole d') : Working d' ws T :=
  ⟨working.log.steps steps, whole, working.ready, working.holds.of_suffix steps.suffix⟩

/-- A fresh world state that was rebased. -/
theorem Rebased.working (log : TrieLog d) (whole : Whole d) (rebased : Rebased (freshDisk d) h d' t) (ne : h ≠ null) :
    ∃ T, Working d' t T := by
  have steps : TrieSteps (fun _ => False) d d' := rebased.fresh_steps
  obtain ⟨whole', T, holds⟩ := rebased.contents log.freshDisk whole.newMptWorldState
  exact ⟨T, log.steps steps, whole', rebased.ready ne, holds⟩

/-- World states with the same root have the same contents. -/
theorem Working.contents_eq (sound : HashSound fun n => Known d n ∨ Known d' n) (first : Working d ws T)
    (second : Working d' ws' T') (same : ws.rootHash = ws'.rootHash) : T = T' :=
  first.holds.contents_eq sound second.holds same

/-- Persisting the overlay makes its edits. -/
theorem Working.persistState (working : Working d ws T) (result : persistState d ws order false = (d₁, ws'))
    (sound : HashSound (Known d₁)) : Working d₁ ws' (T.edits [] (batch order)) := by
  obtain ⟨log, whole, ready, holds⟩ := working
  have spec := persistState_spec log ready order false
  have edited := holds.persistState order false log ready whole
  rw [result] at spec edited
  obtain ⟨holds', whole'⟩ := edited sound
  exact ⟨log.steps spec.steps, whole', spec.ready, holds'⟩

/-- Persisting the overlay once more changes nothing. -/
theorem Working.persistState_again (distinct : order.Perm vars.entries) (again : order'.Perm vars.entries)
    (working : Working d ws (T.edits [] (batch order))) (result : TrustNet.persistState d ws order' false = (d₁, ws'))
    (sound : HashSound (Known d₁)) : Working d₁ ws' (T.edits [] (batch order)) := by
  have edited := working.persistState result sound
  rw [PathMap.edits_twice T (batch_distinct distinct) (batch_perm (again.trans distinct.symm))] at edited
  exact edited

/-- **The root is a function of the overlay**, whatever the order in which it is visited. -/
theorem Working.root_eq (perm : order.Perm vars.entries) (perm' : order'.Perm vars.entries)
    (first : Working d ws (T.edits [] (batch order))) (second : Working d' ws' (T.edits [] (batch order'))) :
    ws.rootHash = ws'.rootHash := by
  have holds := second.holds
  rw [PathMap.edits_perm T (batch_distinct perm') (batch_perm (perm'.trans perm.symm))] at holds
  exact first.holds.hash_eq holds

end Working

/-! ## The overlay -/

section Overlay

variable [Sha512] {d : Disk} {b : Block} {ws : MptWorldState} {T : Contents}

/-- One access. -/
theorem apply_vars (working : Working d ws T) (sound : HashSound (Known d)) (state : b.worldState = some ws)
    (op : BlockOp) : (op.apply d b).vars = op.record (versionOf T) b.vars := by
  cases op with
  | update key value => rfl
  | delete key => rfl
  | lookup key =>
    have answer := working.holds.lookup working.log sound key
    simp only [BlockOp.apply, BlockOp.record, Block.lookup, state, answer, Version.answer]
    cases b.vars.lookup key with
    | some entry =>
      cases entry with
      | none => rfl
      | some value => rfl
    | none =>
      cases versionOf T key with
      | none => rfl
      | some value => rfl

/-- All accesses. -/
theorem replay_vars (working : Working d ws T) (sound : HashSound (Known d)) (state : b.worldState = some ws)
    (ops : List BlockOp) : (b.replay d ops).vars = ops.foldl (BlockOp.record (versionOf T)) b.vars := by
  induction ops generalizing b with
  | nil => rfl
  | cons op ops ih =>
    obtain ⟨vars, eq⟩ := op.apply_eq d b
    have state' : (op.apply d b).worldState = some ws := by
      rw [eq]
      exact state
    rw [List.foldl_cons, ← apply_vars working sound state op]
    exact ih state'

end Overlay

/-! ## Two deliveries of one block -/

section Submitted

variable [Sha512] {s s' : System} {v v' : Delivery} {d d' : Disk} {t t' : MptWorldState} {b b' : Block} {d₁ d₁' : Disk}
  {ws ws' : MptWorldState} {child child' : Block}

/-- What a submitted block is worked on: the state of its parent, and then the state of the replay. -/
theorem Submitted.working (submitted : Submitted s v d t b d₁ ws child) (ready : SystemReady s) (whole : Whole s.db)
    (sound : HashSound (Known d₁)) :
    ∃ parent T, getSpec s.db v.spec.phash = some parent ∧ t.rootHash = parent.state ∧ Working d t T ∧
      v.order.Perm (overlay (versionOf T) v.replay).entries ∧ Working d₁ ws (T.edits [] (batch v.order)) := by
  obtain ⟨⟨parent, miners, valid, rebased, eqB⟩, order, result, persisted, -⟩ := submitted
  obtain ⟨T, working⟩ := rebased.working ready.log whole (ready.specs _ parent valid.stored)
  refine ⟨parent, T, valid.stored, rebased.rootHash, working, ?_, working.persistState result sound⟩
  have vars := replay_vars (b := v.decoded miners t) working (sound.of_suffix persisted.steps.suffix) rfl v.replay
  rw [← eqB] at vars
  rw [vars] at order
  exact order

/-- **Two nodes compute the same state for a block** that they replay in the same way on a parent that they store
with the same state. -/
theorem Submitted.root_eq (first : Submitted s v d t b d₁ ws child) (second : Submitted s' v' d' t' b' d₁' ws' child')
    (ready : SystemReady s) (ready' : SystemReady s') (whole : Whole s.db) (whole' : Whole s'.db)
    (sound : HashSound fun n => Known d₁ n ∨ Known d₁' n) (parent : v.spec.phash = v'.spec.phash)
    (stored : getSpec s.db v.spec.phash = getSpec s'.db v.spec.phash) (replay : v.replay = v'.replay) :
    ws.rootHash = ws'.rootHash := by
  obtain ⟨p, T, storedP, root, working, perm, after⟩ := first.working ready whole (sound.mono fun _ => Or.inl)
  obtain ⟨p', T', storedP', root', working', perm', after'⟩ := second.working ready' whole' (sound.mono fun _ => Or.inr)
  have sameP : p = p' := by
    rw [← parent, ← stored, storedP] at storedP'
    exact Option.some.inj storedP'
  have before : HashSound fun n => Known d n ∨ Known d' n :=
    sound.mono fun n => Or.imp (Known.mono first.persisted.steps.suffix n) (Known.mono second.persisted.steps.suffix n)
  have contents : T = T' := working.contents_eq before working' (by rw [root, root', sameP])
  subst contents
  rw [← replay] at perm'
  exact after.root_eq perm perm' after'

end Submitted

end TrustNet
