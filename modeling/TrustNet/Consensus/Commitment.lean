import TrustNet.Consensus.Commit
import TrustNet.Trie.Binding

/-!
# The state commitment of a block

`persistState` visits the overlay in the order in which Go ranges over a map. It
edits the contents of the world state, one entry after the other, and the
contents determine the hash. So neither the order nor a second pass matters,
whatever `Cleanup` removes on the way.
-/

namespace TrustNet
set_option autoImplicit false
open WriteLog (WritesOnly)

/-! ## The overlay as a batch of edits -/

/-- The edits of a list of overlay entries. -/
def batch (entries : List Entry) : List (List (Fin 16) × Option Bytes) := entries.map fun e => (makeHex e.1, e.2)

theorem batch_perm {order order' : List Entry} (perm : order.Perm order') : (batch order).Perm (batch order') := perm.map _

/-- The entries of a map have different paths. -/
theorem batch_distinct {vars : Variables} {order : List Entry} (perm : order.Perm vars.entries) :
    PathMap.Distinct (batch order) := by
  intro e member e' member' same
  obtain ⟨x, inOrder, rfl⟩ := List.mem_map.mp member
  obtain ⟨y, inOrder', rfl⟩ := List.mem_map.mp member'
  rw [vars.nodupKeys.eq_of_fst_eq (perm.subset inOrder) (perm.subset inOrder') (makeHex_injective same)]

section Overlay

variable [Sha512] {d : Disk} {ws : MptWorldState} {T : Contents}

theorem Holds.commit (log : TrieLog d) (whole : Whole d) (holds : Holds d ws T) (entry : Entry)
    (sound : HashSound (Known (ws.commit d entry).1)) :
    Holds (ws.commit d entry).1 (ws.commit d entry).2.1 (T.edit [] (makeHex entry.1, entry.2)) ∧
      Whole (ws.commit d entry).1 := by
  obtain ⟨key, value⟩ := entry
  cases value with
  | none => exact holds.delete log whole key sound
  | some value => exact holds.update log whole key value sound

theorem commit_grows (d : Disk) (ws : MptWorldState) (entry : Entry) : d.log <:+ (ws.commit d entry).1.log := by
  obtain ⟨key, value⟩ := entry
  cases value with
  | none => exact delete_grows d ws key
  | some value => exact update_grows d ws key value

theorem persistState_grows (d : Disk) (ws : MptWorldState) (entries : List Entry) (skipped : Bool) :
    d.log <:+ (persistState d ws entries skipped).1.log := by
  induction entries generalizing d ws skipped with
  | nil => exact List.suffix_refl _
  | cons entry entries ih =>
    have first := commit_grows d ws entry
    rw [persistState]
    generalize ws.commit d entry = result at first ⊢
    obtain ⟨d₁, ws₁, newHash⟩ := result
    simp only at first ⊢
    split
    · exact first.trans (ih d₁ ws₁ skipped)
    · split
      · exact (first.trans (cleanup_deletes d₁ ws.rootHash).suffix).trans (ih _ ws₁ skipped)
      · exact first.trans (ih d₁ ws₁ true)

/-- **`persistState` makes the edits of the overlay.** -/
theorem Holds.persistState (entries : List Entry) (skipped : Bool) (log : TrieLog d) (ready : ws.Ready) (whole : Whole d)
    (holds : Holds d ws T) (sound : HashSound (Known (persistState d ws entries skipped).1)) :
    Holds (persistState d ws entries skipped).1 (persistState d ws entries skipped).2 (T.edits [] (batch entries)) ∧
      Whole (persistState d ws entries skipped).1 := by
  induction entries generalizing d ws T skipped with
  | nil => exact ⟨holds, whole⟩
  | cons entry entries ih =>
    obtain ⟨steps, ready', newRoot, -⟩ := commit_spec log ready entry
    have committed := holds.commit log whole entry
    rw [TrustNet.persistState] at sound ⊢
    generalize ws.commit d entry = result at steps ready' committed sound ⊢
    obtain ⟨d₁, ws₁, newHash⟩ := result
    simp only at steps ready' committed sound ⊢
    have log₁ := log.steps steps
    split at sound
    · rename_i same
      rw [if_pos same]
      obtain ⟨holds₁, whole₁⟩ := committed (sound.of_suffix (persistState_grows d₁ ws₁ entries skipped))
      exact ih skipped log₁ ready' whole₁ holds₁ sound
    · rename_i ne
      rw [if_neg ne]
      split at sound
      · rename_i skip
        rw [if_pos skip]
        have cleaning := cleanup_steps log₁ ws.rootHash
        have log₂ := log₁.steps cleaning
        have sound₂ := sound.of_suffix (persistState_grows _ ws₁ entries skipped)
        obtain ⟨holds₁, whole₁⟩ := committed (sound₂.of_suffix cleaning.suffix)
        exact ih skipped log₂ ready' (whole₁.cleanup _) (holds₁.of_suffix cleaning.suffix) sound
      · rename_i keep
        rw [if_neg keep]
        obtain ⟨holds₁, whole₁⟩ := committed (sound.of_suffix (persistState_grows d₁ ws₁ entries true))
        exact ih true log₁ ready' whole₁ holds₁ sound

/-- **The order in which the overlay is visited does not matter**, and neither does a second pass: in every
state of every run of trie operations, any two orders leave world states with the same hash that answer
every lookup alike, and visiting the overlay once more leaves the hash. -/
theorem persistState_order_independent {s : TrieStore} {i : Nat} (reached : s.Reached) (state : s.states i = some ws)
    (vars : Variables) {order order' again : List Entry} (perm : order.Perm vars.entries)
    (perm' : order'.Perm vars.entries) (permAgain : again.Perm vars.entries)
    (sound : HashSound (Known (persistState s.db ws order' false).1))
    (soundAgain : HashSound (Known (persistState (persistState s.db ws order false).1
      (persistState s.db ws order false).2 again false).1)) :
    let first := persistState s.db ws order false
    let other := persistState s.db ws order' false
    let second := persistState first.1 first.2 again false
    first.2.rootHash = other.2.rootHash ∧ (∀ key, first.2.lookup first.1 key = other.2.lookup other.1 key) ∧
      second.2.rootHash = first.2.rootHash := by
  intro first other second
  have inv := reached.sound
  have soundFirst : HashSound (Known first.1) := soundAgain.of_suffix (persistState_grows first.1 first.2 again false)
  have start := sound.of_suffix (persistState_grows s.db ws order' false)
  obtain ⟨T, holds⟩ := inv.holds start i ws state
  have ready : ws.Ready := ⟨inv.txNode i ws state, by rw [holds.hash]; exact start.proper holds.known⟩
  have spec := persistState_spec inv.log ready order false
  have spec' := persistState_spec inv.log ready order' false
  have log := inv.log.steps spec.steps
  obtain ⟨holdsFirst, wholeFirst⟩ := holds.persistState order false inv.log ready (inv.whole start) soundFirst
  obtain ⟨holdsOther, -⟩ := holds.persistState order' false inv.log ready (inv.whole start) sound
  obtain ⟨holdsSecond, -⟩ := holdsFirst.persistState again false log spec.ready wholeFirst soundAgain
  have distinct := batch_distinct perm
  rw [PathMap.edits_perm T (batch_distinct perm') (batch_perm (perm'.trans perm.symm))] at holdsOther
  rw [PathMap.edits_twice T distinct (batch_perm (permAgain.trans perm.symm))] at holdsSecond
  exact ⟨holdsFirst.hash_eq holdsOther,
    holdsFirst.lookup_eq log (inv.log.steps spec'.steps) soundFirst sound holdsOther, holdsSecond.hash_eq holdsFirst⟩

end Overlay

/-! ## A worked overlay -/

section Worked

attribute [local instance] workedSha512

/-- An overlay that sets `a` and `b` and deletes the empty key, which is a part of both. -/
def Worked.overlay : Variables :=
  ((((∅ : Variables).insert [] none).insert [98] (some [2])).insert [97] (some [1]))

/-- A store with one world state, which is empty. -/
def Worked.emptyStore : TrieStore := TrieStore.next ⟨WriteLog.empty, fun _ => none⟩ (.newMptWorldState 0)

theorem persistState_order_independent_overlay :
    let first := persistState Worked.emptyStore.db freshState [⟨[97], some [1]⟩, ⟨[98], some [2]⟩, ⟨[], none⟩] false
    let other := persistState Worked.emptyStore.db freshState [⟨[], none⟩, ⟨[98], some [2]⟩, ⟨[97], some [1]⟩] false
    let second := persistState first.1 first.2 [⟨[98], some [2]⟩, ⟨[], none⟩, ⟨[97], some [1]⟩] false
    first.2.rootHash = other.2.rootHash ∧ (∀ key, first.2.lookup first.1 key = other.2.lookup other.1 key) ∧
      second.2.rootHash = first.2.rootHash := by
  have reached : Worked.emptyStore.Reached := ⟨[.newMptWorldState 0], rfl⟩
  have state : Worked.emptyStore.states 0 = some freshState := rfl
  refine persistState_order_independent reached state Worked.overlay (by decide +kernel) (by decide +kernel)
    (by decide +kernel) ?_ ?_
  · exact Worked.hashSound_of_covered (by decide +kernel)
  · exact Worked.hashSound_of_covered (by decide +kernel)

end Worked

end TrustNet
