import TrustNet.Lib.Transition
import TrustNet.Trie.Contents

/-!
# World states in one database

Any number of world states work on one database. `Whole` says that every node
that was stored is the root of a trie, so `Rebase` to it gives a world state with
contents (`Holds`). Every operation of every world state keeps this.
-/

namespace TrustNet
set_option autoImplicit false
open WriteLog (WritesOnly)

variable [Sha512]

/-- Every node that was stored is the root of a trie. -/
def Whole (d : Disk) : Prop := ∀ c, InLog d c → ∃ U, Rep (Known d) c U

/-- The world state has the contents `T`. -/
structure Holds (d : Disk) (ws : MptWorldState) (T : Contents) : Prop where
  rep : Rep (Known d) ws.rootNode T
  hash : ws.rootHash = ws.rootNode.hash
  known : Known d ws.rootNode

variable {d d' : Disk} {ws ws' : MptWorldState} {T : Contents}

theorem Holds.of_suffix (grow : d.log <:+ d'.log) (holds : Holds d ws T) : Holds d' ws T :=
  ⟨holds.rep.of_suffix grow, holds.hash, holds.known.mono grow _⟩

/-- World states with the same contents have the same hash. -/
theorem Holds.hash_eq (holds : Holds d ws T) (holds' : Holds d' ws' T) : ws.rootHash = ws'.rootHash := by
  obtain ⟨idxs, value⟩ := holds.rep.same holds'.rep
  rw [holds.hash, holds'.hash, Node.hash_congr idxs value]

/-- World states with the same contents answer alike. -/
theorem Holds.lookup_eq (log : TrieLog d) (log' : TrieLog d') (sound : HashSound (Known d)) (sound' : HashSound (Known d'))
    (holds : Holds d ws T) (holds' : Holds d' ws' T) (key : Bytes) : ws.lookup d key = ws'.lookup d' key := by
  unfold MptWorldState.lookup
  rw [lookupDepthFirst_rep log sound _ holds.rep, lookupDepthFirst_rep log' sound' _ holds'.rep]

/-- Writes that store only roots of tries. -/
theorem Whole.writes {P : Key × Option Value → Prop} (whole : Whole d) (writes : WritesOnly P d d')
    (nodes : ∀ n, P (.state n.hash, some (.node n)) → ∃ U, Rep (Known d) n U) : Whole d' := by
  intro c stored
  have old : ∃ U, Rep (Known d) c U := (writes.mem_cases stored).elim (whole c) (nodes c)
  obtain ⟨U, rep⟩ := old
  exact ⟨U, rep.of_suffix writes.suffix⟩

theorem whole_empty : Whole WriteLog.empty := by
  intro c stored
  cases stored

/-! ## The operations -/

theorem Whole.newMptWorldState (whole : Whole d) : Whole (newMptWorldState d).1 := by
  refine whole.writes (P := fun w => w = (.state emptyNode.hash, some (.node emptyNode)) ∨
    w = (.txRoot emptyNode.hash, some (.node emptyNode))) ?_ ?_
  · rw [newMptWorldState_eq]
    exact (WritesOnly.write (Or.inl rfl) d).trans (WritesOnly.write (Or.inr rfl) _)
  · rintro n (eq | eq)
    · simp only [Prod.mk.injEq, Option.some.injEq, Value.node.injEq] at eq
      rw [eq.2]
      exact ⟨_, rep_empty _ emptyNode_isEmpty⟩
    · cases eq

theorem holds_fresh (d : Disk) : Holds d freshState (PathMap.single []) :=
  ⟨rep_empty _ emptyNode_isEmpty, rfl, Or.inl emptyNode_isEmpty⟩

omit [Sha512] in
/-- Moving the root writes no node. -/
theorem switchRoot_writes (ws : MptWorldState) (walk : Disk × Node × Byte64) :
    WritesOnly (fun w => ∃ h v, w = (.txRoot h, v)) walk.1 (ws.switchRoot walk).1 := by
  obtain ⟨d₁, rootNode, newHash⟩ := walk
  rw [switchRoot_eq]
  split
  · exact (WritesOnly.write ⟨_, _, rfl⟩ _).trans (WritesOnly.write ⟨_, _, rfl⟩ _)
  · exact WritesOnly.refl _

theorem update_grows (d : Disk) (ws : MptWorldState) (key value : Bytes) : d.log <:+ (ws.update d key value).1.log := by
  have walk : TrieSteps (fun _ => False) d _ := updateDepthFirst_steps (makeHex key) value d ws.rootNode
  exact walk.suffix.trans (switchRoot_writes ws _).suffix

theorem delete_grows (d : Disk) (ws : MptWorldState) (key : Bytes) : d.log <:+ (ws.delete d key).1.log := by
  have walk : TrieSteps (fun _ => False) d _ := deleteDepthFirst_steps (makeHex key) d ws.rootNode
  exact walk.suffix.trans (switchRoot_writes ws _).suffix

/-- A world state that took over the root of a walk. -/
theorem Walked.switchRoot {d₁ : Disk} {n : Node} {h : Byte64} (whole : Whole d) (grow : d.log <:+ d₁.log)
    (walked : Walked d T d₁ n h) (proper : n.hash ≠ null) :
    Holds (ws.switchRoot (d₁, n, h)).1 (ws.switchRoot (d₁, n, h)).2.1 T ∧ Whole (ws.switchRoot (d₁, n, h)).1 := by
  obtain ⟨rep, rfl, stored, nodes⟩ := walked
  have roots := switchRoot_writes ws (d₁, n, n.hash)
  have whole₁ : Whole d₁ := by
    intro c storedC
    rcases nodes c storedC with old | new
    · obtain ⟨U, repU⟩ := whole c old
      exact ⟨U, repU.of_suffix grow⟩
    · exact new
  refine ⟨?_, whole₁.writes roots (by rintro m ⟨h, v, eq⟩; cases eq)⟩
  rw [switchRoot_eq] at roots ⊢
  rw [if_pos proper] at roots ⊢
  exact ⟨rep.of_suffix roots.suffix, rfl, Or.inr (stored.mono roots.suffix)⟩

/-- **`Update`** -/
theorem Holds.update (log : TrieLog d) (whole : Whole d) (holds : Holds d ws T) (key value : Bytes)
    (sound : HashSound (Known (ws.update d key value).1)) :
    Holds (ws.update d key value).1 (ws.update d key value).2.1 (T.set [] (makeHex key) value) ∧
      Whole (ws.update d key value).1 := by
  have steps : TrieSteps (fun _ => False) d (updateDepthFirst putState getState d ws.rootNode (makeHex key) value).1 :=
    updateDepthFirst_steps _ _ _ _
  have sound₁ := sound.of_suffix (switchRoot_writes ws _).suffix
  have walked := updateDepthFirst_rep (makeHex key) value log holds.rep sound₁
  exact walked.switchRoot whole steps.suffix (sound₁.proper (Or.inr walked.stored))

/-- **`Delete`** -/
theorem Holds.delete (log : TrieLog d) (whole : Whole d) (holds : Holds d ws T) (key : Bytes)
    (sound : HashSound (Known (ws.delete d key).1)) :
    Holds (ws.delete d key).1 (ws.delete d key).2.1 (T.clear [] (makeHex key)) ∧ Whole (ws.delete d key).1 := by
  have steps : TrieSteps (fun _ => False) d (deleteDepthFirst putState getState d ws.rootNode (makeHex key)).1 :=
    deleteDepthFirst_steps _ _ _
  have sound₁ := sound.of_suffix (switchRoot_writes ws _).suffix
  rcases deleteDepthFirst_rep (makeHex key) log holds.rep sound₁ with ⟨eq, same⟩ | walked
  · unfold MptWorldState.delete
    rw [eq, same, switchRoot_eq, if_neg (not_not.mpr rfl)]
    exact ⟨holds, whole⟩
  · exact walked.switchRoot whole steps.suffix (sound₁.proper (Or.inr walked.stored))

/-- **`Rebase`** -/
theorem Rebased.contents {h : Byte64} (log : TrieLog d) (whole : Whole d) (rebased : Rebased d h d' ws) :
    Whole d' ∧ ∃ U, Holds d' ws U := by
  obtain ⟨n, found, root⟩ := rebased.rootNode
  obtain ⟨key, stored⟩ := inLog_of_getState log found
  obtain ⟨U, rep⟩ := whole n stored
  have same : ws.rootNode.Same n := by
    rw [root]
    exact ⟨rfl, rfl⟩
  have rep' : Rep (Known d) ws.rootNode U := rep.congr same
  refine ⟨whole.writes rebased.writes ?_, U, rep'.of_suffix rebased.writes.suffix, ?_, Or.inr rebased.stored⟩
  · rintro m (eq | ⟨h, v, eq⟩)
    · simp only [Prod.mk.injEq, Option.some.injEq, Value.node.injEq] at eq
      rw [eq.2]
      exact ⟨U, rep'⟩
    · cases eq
  · rw [rebased.rootHash, key, Node.hash_congr same.1 same.2]

theorem cleanupDepthFirst_deletes (get : Disk → Byte64 → Option Node) (del : Disk → Byte64 → Disk × Option String)
    (deletes : ∀ d h, WritesOnly (fun w => w.2 = none) d (del d h).1) (fuel : Nat) (d : Disk) (n : Node) :
    WritesOnly (fun w => w.2 = none) d (cleanupDepthFirst get del fuel d n) := by
  induction fuel generalizing d n with
  | zero => exact WritesOnly.refl d
  | succ fuel ih =>
    unfold cleanupDepthFirst
    split
    · exact WritesOnly.refl d
    · refine (WritesOnly.foldl (fun d i => ?_) _ d).trans (deletes _ _)
      split
      · exact WritesOnly.refl d
      · split
        · exact ih d _
        · exact WritesOnly.refl d

theorem cleanup_deletes (d : Disk) (h : Byte64) : WritesOnly (fun w => w.2 = none) d (cleanup d h).1 := by
  have drop : ∀ (d : Disk) (k : Key), WritesOnly (fun w : Key × Option Value => w.2 = none) d (Database.delete d k).1 :=
    fun d k => WritesOnly.write (P := fun w => w.2 = none) (k := k) (v := none) rfl d
  unfold cleanup
  split
  · exact WritesOnly.refl d
  · rename_i n _
    have nodes := cleanupDepthFirst_deletes getState deleteState (fun d h => drop d _) (Database.calls d + 1) d n
    simp only
    split
    · exact nodes
    · rename_i tx _
      exact (nodes.trans (cleanupDepthFirst_deletes getTx deleteTx (fun d h => drop d _) _ _ tx)).trans (drop _ _)

/-- **`Cleanup`** -/
theorem Whole.cleanup (whole : Whole d) (h : Byte64) : Whole (cleanup d h).1 :=
  whole.writes (cleanup_deletes d h) fun _ eq => by cases eq

/-! ## Runs of trie operations -/

/-- A database and the world states that work on it. -/
structure TrieStore where
  db : Disk
  states : Nat → Option MptWorldState

/-- One operation of the world state `i`. -/
inductive TrieCall where
  | newMptWorldState (i : Nat)
  | update (i : Nat) (key value : Bytes)
  | delete (i : Nat) (key : Bytes)
  | rebase (i : Nat) (hash : Byte64)
  | cleanup (hash : Byte64)

namespace TrieStore

/-- The store in which the world state `i` is replaced. -/
def put (s : TrieStore) (i : Nat) (db : Disk) (ws : Option MptWorldState) : TrieStore :=
  ⟨db, Function.update s.states i ws⟩

def next (s : TrieStore) : TrieCall → TrieStore
  | .newMptWorldState i =>
    match TrustNet.newMptWorldState s.db with
    | (db, ws) => s.put i db ws
  | .update i key value =>
    match s.states i with
    | none => s
    | some ws =>
      match ws.update s.db key value with
      | (db, ws, _) => s.put i db (some ws)
  | .delete i key =>
    match s.states i with
    | none => s
    | some ws =>
      match ws.delete s.db key with
      | (db, ws, _) => s.put i db (some ws)
  | .rebase i hash =>
    match s.states i with
    | none => s
    | some ws =>
      match ws.rebase s.db hash with
      | (db, ws, _) => s.put i db (some ws)
  | .cleanup hash => { s with db := (TrustNet.cleanup s.db hash).1 }

/-- The store after any operations on an empty database. -/
def Reached (s : TrieStore) : Prop := ∃ calls, Transition.run next ⟨WriteLog.empty, fun _ => none⟩ calls = s

/-- All nodes are roots of tries, and all world states have contents, if SHA-512 behaved so far. -/
structure Sound (s : TrieStore) : Prop where
  log : TrieLog s.db
  txNode : ∀ i ws, s.states i = some ws → ws.txNode.IsEmpty
  whole : HashSound (Known s.db) → Whole s.db
  holds : HashSound (Known s.db) → ∀ i ws, s.states i = some ws → ∃ T, Holds s.db ws T

variable {s : TrieStore}

/-- The world state `i` made an operation. -/
theorem Sound.put {cleaned : Byte64 → Prop} {i : Nat} {ws' : MptWorldState} (inv : Sound s)
    (steps : TrieSteps cleaned s.db d') (txNode : ws'.txNode.IsEmpty)
    (after : HashSound (Known d') → Whole d' ∧ ∃ T, Holds d' ws' T) : Sound (s.put i d' (some ws')) where
  log := inv.log.steps steps
  txNode j ws found := by
    by_cases eq : j = i
    · subst eq
      simp only [TrieStore.put, Function.update_self, Option.some.injEq] at found
      rw [← found]
      exact txNode
    · simp only [TrieStore.put, Function.update_of_ne eq] at found
      exact inv.txNode j ws found
  whole sound := (after sound).1
  holds sound j ws found := by
    by_cases eq : j = i
    · subst eq
      simp only [TrieStore.put, Function.update_self, Option.some.injEq] at found
      rw [← found]
      exact (after sound).2
    · simp only [TrieStore.put, Function.update_of_ne eq] at found
      obtain ⟨T, holds⟩ := inv.holds (sound.of_suffix steps.suffix) j ws found
      exact ⟨T, holds.of_suffix steps.suffix⟩

theorem Sound.next (inv : Sound s) (call : TrieCall) : Sound (s.next call) := by
  have before : ∀ {cleaned : Byte64 → Prop} {d'}, TrieSteps cleaned s.db d' → HashSound (Known d') →
      Whole s.db := fun steps sound => inv.whole (sound.of_suffix steps.suffix)
  cases call with
  | newMptWorldState i =>
    have steps : TrieSteps (fun _ => False) s.db (TrustNet.newMptWorldState s.db).1 := newMptWorldState_steps s.db
    exact inv.put steps emptyNode_isEmpty fun sound =>
      ⟨(before steps sound).newMptWorldState, _, holds_fresh _⟩
  | update i key value =>
    simp only [TrieStore.next]
    cases found : s.states i with
    | none => exact inv
    | some ws =>
      have empty := inv.txNode i ws found
      have steps : TrieSteps (fun _ => False) s.db (ws.update s.db key value).1 :=
        switchRoot_steps empty (updateDepthFirst_steps _ _ _ _)
      refine inv.put steps (switchRoot_txNode empty _) fun sound => ?_
      obtain ⟨T, holds⟩ := inv.holds (sound.of_suffix steps.suffix) i ws found
      have result := holds.update inv.log (before steps sound) key value sound
      exact ⟨result.2, _, result.1⟩
  | delete i key =>
    simp only [TrieStore.next]
    cases found : s.states i with
    | none => exact inv
    | some ws =>
      have empty := inv.txNode i ws found
      have steps : TrieSteps (fun _ => False) s.db (ws.delete s.db key).1 :=
        switchRoot_steps empty (deleteDepthFirst_steps _ _ _)
      refine inv.put steps (switchRoot_txNode empty _) fun sound => ?_
      obtain ⟨T, holds⟩ := inv.holds (sound.of_suffix steps.suffix) i ws found
      have result := holds.delete inv.log (before steps sound) key sound
      exact ⟨result.2, _, result.1⟩
  | rebase i hash =>
    simp only [TrieStore.next]
    cases found : s.states i with
    | none => exact inv
    | some ws =>
      have empty := inv.txNode i ws found
      simp only
      rcases rebase_cases inv.log ws empty hash with ⟨-, msg, eq⟩ | ⟨d', t, eq, rebased⟩
      · rw [eq]
        have steps : TrieSteps (fun _ => False) s.db s.db := WritesOnly.refl s.db
        exact inv.put steps empty fun sound =>
          ⟨inv.whole sound, inv.holds sound i ws found⟩
      · rw [eq]
        exact inv.put rebased.steps rebased.txNode fun sound => rebased.contents inv.log (before rebased.steps sound)
  | cleanup hash =>
    have steps := cleanup_steps inv.log hash
    refine ⟨inv.log.steps steps, inv.txNode, fun sound => (before steps sound).cleanup hash, fun sound i ws found => ?_⟩
    obtain ⟨T, holds⟩ := inv.holds (sound.of_suffix steps.suffix) i ws found
    exact ⟨T, holds.of_suffix steps.suffix⟩

/-- **Every run** of any world states on one database. -/
theorem Reached.sound (reached : Reached s) : Sound s := by
  obtain ⟨calls, rfl⟩ := reached
  refine Transition.run_invariant Sound (fun s call inv => inv.next call) ⟨TrieLog.empty, ?_, fun _ => whole_empty, ?_⟩ calls
  · intro i ws found
    cases found
  · intro _ i ws found
    cases found

end TrieStore

end TrustNet
