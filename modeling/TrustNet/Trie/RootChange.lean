import TrustNet.Trie.Versions

/-!
# When the root changes

The hash of a root is a function of the contents of the trie, and the contents are a
function of the hash. `Delete` leaves nodes behind and a walk to a missing key writes
nothing, so an operation that has no effect on the keys has none on the contents either:
the root is the same exactly if the keys are. `persistState` relies on this when it
compares root hashes to see whether an entry of the overlay made a new state.
-/

namespace TrustNet
set_option autoImplicit false

section RootChange

variable [Sha512] {d d' : Disk} {ws ws' : MptWorldState} {T T' : Contents}

/-- World states of one database have the same hash exactly if they have the same contents. -/
theorem Holds.rootHash_eq_iff (grow : d.log <:+ d'.log) (sound : HashSound (Known d')) (holds : Holds d ws T)
    (holds' : Holds d' ws' T') : ws'.rootHash = ws.rootHash ↔ T' = T := by
  have holds := holds.of_suffix grow
  constructor
  · intro same
    rw [holds.hash, holds'.hash] at same
    exact holds'.rep.contents_eq sound holds.rep (sound.same holds'.known holds.known same)
  · rintro rfl
    exact holds'.hash_eq holds

/-- A `Lookup` fails for a path without a node, or with a blank one. -/
theorem Holds.lookup_fails_iff (log : TrieLog d) (sound : HashSound (Known d)) (holds : Holds d ws T) (key : Bytes) :
    (∀ value, ws.lookup d key ≠ .ok value) ↔ (T (makeHex key)).getD [] = [] := by
  rw [holds.lookup log sound]
  unfold Version.answer versionOf nonEmpty
  generalize (T (makeHex key)).getD [] = value
  by_cases empty : value = []
  · simp [empty]
  · simp [empty]

theorem Holds.lookup_ok_iff (log : TrieLog d) (sound : HashSound (Known d)) (holds : Holds d ws T) (key : Bytes)
    {value : Bytes} (nonempty : value ≠ []) : ws.lookup d key = .ok value ↔ T (makeHex key) = some value := by
  rw [holds.lookup log sound]
  unfold Version.answer versionOf nonEmpty
  cases T (makeHex key) with
  | none => simp
  | some found =>
    by_cases empty : found = []
    · simp [empty, Ne.symm nonempty]
    · simp [empty]

variable {s : TrieStore} {i : Nat}

/-- **`Delete` keeps the root exactly if the key was not there.** -/
theorem TrieStore.Sound.delete_keeps_root_iff (inv : s.Sound) (state : s.states i = some ws) (key : Bytes)
    (sound : HashSound (Known (ws.delete s.db key).1)) :
    (ws.delete s.db key).2.1.rootHash = ws.rootHash ↔ ∀ value, ws.lookup s.db key ≠ .ok value := by
  have before := sound.of_suffix (delete_grows s.db ws key)
  obtain ⟨T, holds⟩ := inv.holds before i ws state
  obtain ⟨after, -⟩ := holds.delete inv.log (inv.whole before) key sound
  rw [holds.rootHash_eq_iff (delete_grows s.db ws key) sound after, PathMap.clear_eq_iff,
    holds.lookup_fails_iff inv.log before]

/-- **`Update` keeps the root exactly if the key had the value.** -/
theorem TrieStore.Sound.update_keeps_root_iff (inv : s.Sound) (state : s.states i = some ws) (key : Bytes)
    {value : Bytes} (nonempty : value ≠ []) (sound : HashSound (Known (ws.update s.db key value).1)) :
    (ws.update s.db key value).2.1.rootHash = ws.rootHash ↔ ws.lookup s.db key = .ok value := by
  have before := sound.of_suffix (update_grows s.db ws key value)
  obtain ⟨T, holds⟩ := inv.holds before i ws state
  obtain ⟨after, -⟩ := holds.update inv.log (inv.whole before) key value sound
  rw [holds.rootHash_eq_iff (update_grows s.db ws key value) sound after, PathMap.set_eq_iff holds.rep.closed,
    holds.lookup_ok_iff inv.log before key nonempty]

/-- **The root changes exactly when the content does**, in every run of any world states on one database. -/
theorem root_changes_with_content (reached : s.Reached) (state : s.states i = some ws) (key : Bytes) :
    (CollisionFree (Known (ws.delete s.db key).1) →
      ((ws.delete s.db key).2.1.rootHash = ws.rootHash ↔ ∀ value, ws.lookup s.db key ≠ .ok value)) ∧
    ∀ value ≠ [], CollisionFree (Known (ws.update s.db key value).1) →
      ((ws.update s.db key value).2.1.rootHash = ws.rootHash ↔ ws.lookup s.db key = .ok value) :=
  ⟨fun free => reached.sound.delete_keeps_root_iff state key free.hashSound,
    fun _ nonempty free => reached.sound.update_keeps_root_iff state key nonempty free.hashSound⟩

end RootChange

section Worked

attribute [local instance] workedSha512

/-- Only `a` is set. -/
def Worked.setOne : List TrieCall := [.newMptWorldState 0, .update 0 [97] [1]]

theorem Worked.setOne_runs :
    ((Worked.store Worked.setOne).states 0).any (fun ws =>
      decide (Worked.Covered (ws.delete (Worked.store Worked.setOne).db [97, 98]).1 ∧
        Worked.Covered (ws.update (Worked.store Worked.setOne).db [98] [2]).1 ∧
        (ws.delete (Worked.store Worked.setOne).db [97, 98]).2.1.rootHash = ws.rootHash ∧
        (ws.update (Worked.store Worked.setOne).db [98] [2]).2.1.rootHash ≠ ws.rootHash)) = true := by decide +kernel

theorem root_changes_with_content_setOne :
    ∃ ws, (Worked.store Worked.setOne).states 0 = some ws ∧
      (∀ value, ws.lookup (Worked.store Worked.setOne).db [97, 98] ≠ .ok value) ∧
      ws.lookup (Worked.store Worked.setOne).db [98] ≠ .ok [2] := by
  obtain ⟨ws, state, runs⟩ := (Option.any_eq_true _ _).mp Worked.setOne_runs
  obtain ⟨coveredD, coveredU, same, differs⟩ := of_decide_eq_true runs
  have reached : (Worked.store Worked.setOne).Reached := ⟨Worked.setOne, rfl⟩
  obtain ⟨deletes, -⟩ := root_changes_with_content reached state [97, 98]
  obtain ⟨-, updates⟩ := root_changes_with_content reached state [98]
  refine ⟨ws, state, (deletes (Worked.hashSound_of_covered coveredD).collisionFree).mp same, fun found => ?_⟩
  exact differs ((updates [2] (by decide) (Worked.hashSound_of_covered coveredU).collisionFree).mpr found)

end Worked

end TrustNet
