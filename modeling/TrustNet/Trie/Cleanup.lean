import TrustNet.Trie.Binding

/-!
# Clean-up loses no live data

`Cleanup` removes a state node only if it is stored with a tombstone other than
`unmarked`, and then the node is empty. A missing node reads as an empty one, so
no lookup can tell the databases apart, and no root but the one that was cleaned up
is affected. This needs nothing of the hash function.
-/

namespace TrustNet
set_option autoImplicit false
open WriteLog (WritesOnly)

section Reading

variable {d d' : Disk} {n n' : Node}

/-- The databases hold the same state nodes, where a missing node counts as an empty one. -/
def Alike (d d' : Disk) : Prop := ∀ k, ((getState d k).getD emptyNode).Same ((getState d' k).getD emptyNode)

theorem Alike.refl (d : Disk) : Alike d d := fun _ => ⟨rfl, rfl⟩

theorem Alike.write (alike : Alike d d') (k : Key) (v : Option Value) : Alike (d.write k v) (d'.write k v) := by
  intro h
  by_cases eq : k = .state h
  · subst eq
    simp only [getState, getNode, Disk.get_eq, WriteLog.get_write_self]
    exact ⟨rfl, rfl⟩
  · simp only [getState, getNode, Disk.get_eq, WriteLog.get_write_of_ne _ _ eq]
    exact alike h

theorem lookupDepthFirst_of_isEmpty (d : Disk) (empty : n.IsEmpty) (path : List (Fin 16)) :
    lookupDepthFirst getState d n path = [] := by
  cases path with
  | nil => exact empty.2
  | cons k path => simp [lookupDepthFirst, empty.1]

/-- A lookup goes on in an empty node if the child is missing. -/
theorem lookupDepthFirst_cons (d : Disk) (n : Node) (k : Fin 16) (path : List (Fin 16)) :
    lookupDepthFirst getState d n (k :: path) =
      if n.idxs k ≠ null then lookupDepthFirst getState d ((getState d (n.idxs k)).getD emptyNode) path else [] := by
  rw [lookupDepthFirst]
  split
  · cases found : getState d (n.idxs k) with
    | none => exact (lookupDepthFirst_of_isEmpty d emptyNode_isEmpty path).symm
    | some child => rfl
  · rfl

theorem Alike.lookupDepthFirst (alike : Alike d d') (path : List (Fin 16)) (same : n.Same n') :
    TrustNet.lookupDepthFirst getState d n path = TrustNet.lookupDepthFirst getState d' n' path := by
  induction path generalizing n n' with
  | nil => exact same.2
  | cons k path ih =>
    rw [lookupDepthFirst_cons, lookupDepthFirst_cons, same.1]
    split
    · exact ih (alike (n'.idxs k))
    · rfl

theorem Alike.lookup (alike : Alike d d') (ws : MptWorldState) (key : Bytes) : ws.lookup d key = ws.lookup d' key := by
  unfold MptWorldState.lookup
  rw [alike.lookupDepthFirst (makeHex key) ⟨rfl, rfl⟩]

end Reading

section Cleanup

variable [Sha512] {d d' : Disk}

/-- The second half of `Cleanup`: the transaction trie of the root. -/
def cleanupTxs (d : Disk) (h : Byte64) : Disk :=
  match getNode d (.txRoot h) with
  | none => d
  | some tx => (cleanupDepthFirst getTx deleteTx (Database.calls d + 1) d tx).write (.txRoot h) none

theorem cleanup_of_state {h : Byte64} {n : Node} (state : getState d h = some n) :
    (cleanup d h).1 = cleanupTxs (cleanupDepthFirst getState deleteState (Database.calls d + 1) d n) h := by
  unfold cleanup
  rw [state]
  simp only
  generalize cleanupDepthFirst getState deleteState (Database.calls d + 1) d n = d₁
  cases root : getNode d₁ (.txRoot h) with
  | none => simp only [cleanupTxs, root]
  | some tx => simp only [cleanupTxs, root, Disk.delete_eq]

theorem cleanupTxs_getState (log : TrieLog d) (h k : Byte64) : getState (cleanupTxs d h) k = getState d k := by
  have others : ∀ {d₁ : Disk} (key : Key), (∀ q, key ≠ .state q) → getState (d₁.write key none) k = getState d₁ k := by
    intro d₁ key other
    simp only [getState, getNode, Disk.get_eq, WriteLog.get_write_of_ne _ _ (other k)]
  unfold cleanupTxs
  cases root : getNode d (.txRoot h) with
  | none => rfl
  | some tx =>
    simp only
    rw [others _ (by simp), cleanupDepthFirst_of_isEmpty _ _ _ _ (log.txRoot root)]
    split
    · rfl
    · exact others _ (by simp)

/-- The only state node that a clean-up removes is an empty one under the hash that was given. -/
theorem cleanup_getState (log : TrieLog d) (h k : Byte64) :
    getState (cleanup d h).1 k = getState d k ∨
      (k = h ∧ getState (cleanup d h).1 k = none ∧ ∃ n, getState d k = some n ∧ n.IsEmpty) := by
  cases state : getState d h with
  | none =>
    left
    simp only [cleanup, state]
  | some n =>
    obtain ⟨key, mark⟩ := log.state state
    rw [cleanup_of_state state]
    by_cases unmarked : n.tombstone = .unmarked
    · left
      simp only [cleanupDepthFirst, unmarked, if_true]
      exact cleanupTxs_getState log h k
    · have empty := mark.resolve_left unmarked
      have steps : TrieSteps (fun _ => True) d (d.write (.state emptyNode.hash) none) :=
        WritesOnly.write (.dropEmpty trivial) d
      rw [cleanupDepthFirst_of_isEmpty _ _ _ _ empty, if_neg unmarked]
      change getState (cleanupTxs (d.write (.state emptyNode.hash) none) h) k = _ ∨ _ ∧
        getState (cleanupTxs (d.write (.state emptyNode.hash) none) h) k = none ∧ _
      rw [cleanupTxs_getState (log.steps steps), ← empty.hash_eq, ← key]
      by_cases eq : k = h
      · right
        subst eq
        refine ⟨rfl, ?_, n, state, empty⟩
        simp [getState, getNode]
      · left
        simp only [getState, getNode, Disk.get_eq, WriteLog.get_write_of_ne _ _ (show Key.state h ≠ .state k by simpa using Ne.symm eq)]

theorem cleanup_alike (log : TrieLog d) (h : Byte64) : Alike (cleanup d h).1 d := by
  intro k
  rcases cleanup_getState log h k with same | ⟨-, gone, n, stored, empty⟩
  · rw [same]
    exact ⟨rfl, rfl⟩
  · rw [gone, stored]
    exact ⟨empty.1.symm, empty.2.symm⟩

/-- The other roots keep their transaction record. -/
theorem cleanup_txRoot (log : TrieLog d) {h k : Byte64} (ne : k ≠ h) :
    getNode (cleanup d h).1 (.txRoot k) = getNode d (.txRoot k) := by
  rcases (cleanup_steps log h).get_cases (.txRoot k) with same | write
  · simp only [getNode, Disk.get_eq, same]
  · rcases (cleanup_deletes d h).get_cases (.txRoot k) with same | gone
    · simp only [getNode, Disk.get_eq, same]
    · simp only at gone
      rw [gone] at write
      cases write with
      | dropRoot _ hit => exact absurd hit ne

/-- `Rebase` reads the two records of the root and writes the same on both databases. -/
theorem rebase_congr (alike : Alike d' d) (ws : MptWorldState) {h : Byte64} (state : getState d' h = getState d h)
    (root : getNode d' (.txRoot h) = getNode d (.txRoot h)) :
    (ws.rebase d' h).2 = (ws.rebase d h).2 ∧ Alike (ws.rebase d' h).1 (ws.rebase d h).1 := by
  unfold MptWorldState.rebase
  rw [state, root]
  cases getState d h with
  | none => exact ⟨rfl, alike⟩
  | some n => cases getNode d (.txRoot h) with
    | none => exact ⟨rfl, alike⟩
    | some tx => exact ⟨rfl, ((alike.write _ _).write _ _).write _ _⟩

/-- **Clean-up keeps live data.** After `Cleanup` of any hash every lookup of every world state is answered as
before, and `Rebase` to any other root succeeds or fails as before and gives the same contents. -/
theorem cleanup_keeps_live_data {s : TrieStore} (reached : s.Reached) (h : Byte64) :
    (∀ i ws key, s.states i = some ws → ws.lookup (cleanup s.db h).1 key = ws.lookup s.db key) ∧
      ∀ i ws h', s.states i = some ws → h' ≠ h →
        (ws.rebase (cleanup s.db h).1 h').2.2 = (ws.rebase s.db h').2.2 ∧
        ∀ key, (ws.rebase (cleanup s.db h).1 h').2.1.lookup (ws.rebase (cleanup s.db h).1 h').1 key =
          (ws.rebase s.db h').2.1.lookup (ws.rebase s.db h').1 key := by
  have log := reached.sound.log
  have alike := cleanup_alike log h
  refine ⟨fun _ ws key _ => alike.lookup ws key, fun i ws h' _ ne => ?_⟩
  have state : getState (cleanup s.db h).1 h' = getState s.db h' :=
    (cleanup_getState log h h').resolve_right fun hit => ne hit.1
  obtain ⟨same, after⟩ := rebase_congr alike ws state (cleanup_txRoot log ne)
  refine ⟨congrArg Prod.snd same, fun key => ?_⟩
  rw [congrArg Prod.fst same]
  exact after.lookup _ key

end Cleanup

section Worked

attribute [local instance] workedSha512

/-- The empty root is cleaned up under a world state that has left it and one that is still there. -/
theorem cleanup_keeps_live_data_setBoth :
    let s := Worked.store (Worked.setBoth ++ [.newMptWorldState 1])
    (∀ i ws key, s.states i = some ws → ws.lookup (cleanup s.db (digest emptyDigest)).1 key = ws.lookup s.db key) ∧
      ∀ i ws, s.states i = some ws →
        (ws.rebase (cleanup s.db (digest emptyDigest)).1 (digest oneDigest)).2.2 =
          (ws.rebase s.db (digest oneDigest)).2.2 := by
  intro s
  have reached : s.Reached := ⟨_, rfl⟩
  have ne : digest oneDigest ≠ digest emptyDigest := by decide +kernel
  obtain ⟨lookups, rebases⟩ := cleanup_keeps_live_data reached (digest emptyDigest)
  exact ⟨lookups, fun i ws state => (rebases i ws _ state ne).1⟩

end Worked

end TrustNet
