import TrustNet.Lib.VersionedMap
import TrustNet.Trie.Cleanup

/-!
# The trie is a versioned map

World states that share a database are the users of a versioned map: `Update` and
`Delete` produce the version of a new root, `Rebase` takes up the version that a root
had when it was first produced, and `Cleanup` changes nothing. `Tracks` ties the trie
to that map in every run.
-/

namespace TrustNet
set_option autoImplicit false
open WriteLog (WritesOnly)

/-! ## Contents as a map -/

/-- The keys of a world state and their values. -/
abbrev Version := Bytes → Option Bytes

/-- An empty value is none. -/
def nonEmpty (value : Bytes) : Option Bytes := if value = [] then none else some value

/-- The map that the contents of a trie stand for. -/
def versionOf (T : Contents) : Version := fun key => nonEmpty ((T (makeHex key)).getD [])

/-- The answer to a `Lookup`. -/
def Version.answer (version : Version) (key : Bytes) : Except Err Bytes :=
  match version key with
  | some value => .ok value
  | none => .error (.core .notFound "key does not exists")

theorem versionOf_single : versionOf (PathMap.single []) = fun _ => none := by
  funext key
  unfold versionOf
  cases makeHex key with
  | nil => rfl
  | cons k path => rfl

theorem versionOf_set (T : Contents) (key value : Bytes) :
    versionOf (T.set [] (makeHex key) value) = Function.update (versionOf T) key (nonEmpty value) := by
  funext key'
  unfold versionOf PathMap.set
  by_cases eq : key' = key
  · subst eq
    simp
  · have ne : makeHex key' ≠ makeHex key := fun same => eq (makeHex_injective same)
    rw [if_neg ne, Function.update_of_ne eq]
    split
    · rfl
    · rfl

theorem versionOf_clear (T : Contents) (key : Bytes) :
    versionOf (T.clear [] (makeHex key)) = Function.update (versionOf T) key none := by
  funext key'
  unfold versionOf PathMap.clear
  by_cases eq : key' = key
  · subst eq
    rw [if_pos rfl, PathMap.getD_blanked, Function.update_self]
    rfl
  · have ne : makeHex key' ≠ makeHex key := fun same => eq (makeHex_injective same)
    rw [if_neg ne, Function.update_of_ne eq]

section Lookup

variable [Sha512] {d : Disk} {ws : MptWorldState} {T : Contents}

theorem Holds.lookup (log : TrieLog d) (sound : HashSound (Known d)) (holds : Holds d ws T) (key : Bytes) :
    ws.lookup d key = (versionOf T).answer key := by
  unfold MptWorldState.lookup Version.answer versionOf nonEmpty
  rw [lookupDepthFirst_rep log sound _ holds.rep]
  cases (T (makeHex key)).getD [] with
  | nil => rfl
  | cons b value => rfl

end Lookup

/-! ## What a call means -/

section Events

variable [Sha512]

/-- World states by number, over the roots of the trie. -/
abbrev TrieVersions := VersionedMap Nat Bytes Bytes Byte64

/-- What a call does to the versioned map. -/
def TrieStore.event (s : TrieStore) : TrieCall → VersionedMap.Event Nat Bytes Bytes Byte64
  | .newMptWorldState i =>
    match (TrustNet.newMptWorldState s.db).2 with
    | some ws => .created i ws.rootHash
    | none => .silent
  | .update i key value =>
    match s.states i with
    | some ws => .wrote i key (nonEmpty value) (ws.update s.db key value).2.2
    | none => .silent
  | .delete i key =>
    match s.states i with
    | some ws => .wrote i key none (ws.delete s.db key).2.2
    | none => .silent
  | .rebase i hash =>
    match s.states i with
    | some ws => if (ws.rebase s.db hash).2.2 = none then .rebased i hash else .silent
    | none => .silent
  | .cleanup _ => .silent

/-- A call on the store, with the versioned map kept beside it. -/
def trackedNext (p : TrieStore × TrieVersions) (call : TrieCall) : TrieStore × TrieVersions :=
  (p.1.next call, p.2.next (p.1.event call))

/-- The store and the versioned map after calls on an empty database. -/
def tracked (calls : List TrieCall) : TrieStore × TrieVersions :=
  Transition.run trackedNext (⟨WriteLog.empty, fun _ => none⟩, VersionedMap.empty) calls

theorem tracked_append (first second : List TrieCall) :
    tracked (first ++ second) = Transition.run trackedNext (tracked first) second :=
  Transition.run_append _ _ _ _

theorem tracked_concat (calls : List TrieCall) (call : TrieCall) :
    tracked (calls ++ [call]) = trackedNext (tracked calls) call := tracked_append calls [call]

theorem tracked_store (calls : List TrieCall) :
    (tracked calls).1 = Transition.run TrieStore.next ⟨WriteLog.empty, fun _ => none⟩ calls := by
  induction calls using List.reverseRecOn with
  | nil => rfl
  | append_singleton calls call ih =>
    rw [Transition.run_append, ← ih, tracked_concat]
    rfl

theorem tracked_reached (calls : List TrieCall) : (tracked calls).1.Reached := ⟨calls, (tracked_store calls).symm⟩

end Events

/-! ## The simulation -/

section Tracks

variable [Sha512]

/-- The map of every world state is what its trie holds, and the version of every root is what the trie of
that root holds. -/
structure Tracks (s : TrieStore) (a : TrieVersions) : Prop where
  current : ∀ i ws, s.states i = some ws → ∃ T, Holds s.db ws T ∧ a.current i = some (versionOf T)
  produced : ∀ r v, a.versions r = some v →
    ∃ n T, Known s.db n ∧ n.hash = r ∧ Rep (Known s.db) n T ∧ v = versionOf T
  roots : ∀ i ws, s.states i = some ws → (a.versions ws.rootHash).isSome
  records : ∀ r, (getNode s.db (.txRoot r)).isSome → (a.versions r).isSome

variable {s : TrieStore} {a : TrieVersions} {d' : Disk} {ws ws' : MptWorldState} {T : Contents} {i : Nat}
  {call : TrieCall}

/-- The version of a root is the version of any trie with that root. -/
theorem Tracks.version_eq (tracks : Tracks s a) (grow : s.db.log <:+ d'.log) (sound : HashSound (Known d'))
    (holds : Holds d' ws T) {v : Version} (found : a.versions ws.rootHash = some v) : v = versionOf T := by
  obtain ⟨n, U, knows, hash, rep, rfl⟩ := tracks.produced _ v found
  have same := sound.same (knows.mono grow) holds.known (by rw [hash, holds.hash])
  rw [Rep.contents_eq sound (rep.of_suffix grow) holds.rep same]

/-- A world state made a call: it has other contents, on a database that has grown. -/
theorem Tracks.put {a' : TrieVersions} (tracks : Tracks s a) (grow : s.db.log <:+ d'.log)
    (holds : Holds d' ws' T) (current : a'.current i = some (versionOf T))
    (others : ∀ j, j ≠ i → a'.current j = a.current j)
    (versions : ∀ r v, a'.versions r = some v → a.versions r = some v ∨ (r = ws'.rootHash ∧ v = versionOf T))
    (kept : ∀ r, (a.versions r).isSome → (a'.versions r).isSome) (root : (a'.versions ws'.rootHash).isSome)
    (records : ∀ r, (getNode d' (.txRoot r)).isSome → (getNode s.db (.txRoot r)).isSome ∨
      (∃ j ws, s.states j = some ws ∧ ws.rootHash = r) ∨ r = ws'.rootHash) :
    Tracks (s.put i d' (some ws')) a' where
  current j ws found := by
    by_cases eq : j = i
    · subst eq
      simp only [TrieStore.put, Function.update_self, Option.some.injEq] at found
      rw [← found]
      exact ⟨T, holds, current⟩
    · simp only [TrieStore.put, Function.update_of_ne eq] at found
      obtain ⟨U, holdsU, old⟩ := tracks.current j ws found
      exact ⟨U, holdsU.of_suffix grow, (others j eq).trans old⟩
  produced r v found := by
    rcases versions r v found with old | ⟨eqRoot, eqVersion⟩
    · obtain ⟨n, U, knows, hash, rep, eq⟩ := tracks.produced r v old
      exact ⟨n, U, knows.mono grow, hash, rep.of_suffix grow, eq⟩
    · exact ⟨ws'.rootNode, T, holds.known, by rw [eqRoot, holds.hash], holds.rep, eqVersion⟩
  roots j ws found := by
    by_cases eq : j = i
    · subst eq
      simp only [TrieStore.put, Function.update_self, Option.some.injEq] at found
      rw [← found]
      exact root
    · simp only [TrieStore.put, Function.update_of_ne eq] at found
      exact kept _ (tracks.roots j ws found)
  records r found := by
    rcases records r found with old | ⟨j, ws, state, eq⟩ | eq
    · exact kept r (tracks.records r old)
    · exact kept r (eq ▸ tracks.roots j ws state)
    · rw [eq]
      exact root

/-- A call that produced a root. -/
theorem Tracks.produce (tracks : Tracks s a) (grow : s.db.log <:+ d'.log)
    (holds : Holds d' ws' T)
    (records : ∀ r, (getNode d' (.txRoot r)).isSome → (getNode s.db (.txRoot r)).isSome ∨
      (∃ j ws, s.states j = some ws ∧ ws.rootHash = r) ∨ r = ws'.rootHash) :
    Tracks (s.put i d' (some ws')) (a.produce i (versionOf T) ws'.rootHash) := by
  refine tracks.put grow holds VersionedMap.produce_current_self (fun j ne => VersionedMap.produce_current_of_ne ne)
    (fun r v found => ?_) (fun r found => ?_) (by simp [VersionedMap.produce_versions]) records
  · rw [VersionedMap.produce_versions] at found
    split at found
    · rename_i eq
      cases old : a.versions ws'.rootHash with
      | none =>
        rw [old, Option.getD_none, Option.some.injEq] at found
        exact Or.inr ⟨eq, found.symm⟩
      | some v' =>
        rw [old, Option.getD_some, Option.some.injEq] at found
        rw [← found, eq, old]
        exact Or.inl rfl
    · exact Or.inl found
  · obtain ⟨v, old⟩ := Option.isSome_iff_exists.mp found
    rw [VersionedMap.produce_versions_of_some old]
    rfl

/-! ## One call -/

omit [Sha512] in
theorem getNode_isSome_write {d : Disk} {k key : Key} {n : Node}
    (found : (getNode (d.write k (some (.node n))) key).isSome) : key = k ∨ (getNode d key).isSome := by
  by_cases eq : k = key
  · exact Or.inl eq.symm
  · right
    simpa only [getNode, Disk.get_eq, WriteLog.get_write_of_ne _ _ eq] using found

omit [Sha512] in
/-- The transaction records after a change of the root. -/
theorem switchRoot_records {d : Disk} {walk : Disk × Node × Byte64} {r : Byte64}
    (nodes : WritesOnly (fun w => ∃ h v, w = (.state h, v)) d walk.1)
    (found : (getNode (ws.switchRoot walk).1 (.txRoot r)).isSome) :
    (getNode d (.txRoot r)).isSome ∨ r = ws.rootHash ∨ r = (ws.switchRoot walk).2.1.rootHash := by
  have old : getNode walk.1 (.txRoot r) = getNode d (.txRoot r) := by
    have same := nodes.get_eq (k := .txRoot r) (by simp)
    simp only [getNode, Disk.get_eq, same]
  obtain ⟨d₁, rootNode, newHash⟩ := walk
  rw [switchRoot_eq] at found ⊢
  split at found
  · rename_i ne
    rw [if_pos ne]
    rcases getNode_isSome_write found with eq | found
    · exact Or.inr (Or.inr (by simpa using eq))
    · rcases getNode_isSome_write found with eq | found
      · exact Or.inr (Or.inl (by simpa using eq))
      · exact Or.inl (old ▸ found)
  · exact Or.inl (old ▸ found)

/-- `Update` and `Delete` produce the version of the root they return. -/
theorem Tracks.wrote {walk : Disk × Node × Byte64} {T' : Contents} {key : Bytes} {value : Option Bytes}
    (tracks : Tracks s a) (state : s.states i = some ws) (current : a.current i = some (versionOf T))
    (nodes : WritesOnly (fun w => ∃ h v, w = (.state h, v)) s.db walk.1)
    (after : Holds (ws.switchRoot walk).1 (ws.switchRoot walk).2.1 T')
    (version : versionOf T' = Function.update (versionOf T) key value) :
    Tracks (s.put i (ws.switchRoot walk).1 (some (ws.switchRoot walk).2.1))
      (a.next (.wrote i key value (ws.switchRoot walk).2.2)) := by
  simp only [VersionedMap.next, current]
  rw [← version, switchRoot_hash]
  refine tracks.produce (nodes.suffix.trans (switchRoot_writes ws _).suffix) after fun r found => ?_
  rcases switchRoot_records nodes found with old | eq | eq
  · exact Or.inl old
  · exact Or.inr (Or.inl ⟨i, ws, state, eq.symm⟩)
  · exact Or.inr (Or.inr eq)

theorem rebase_records {d : Disk} {h r : Byte64} (log : TrieLog d)
    (found : (getNode (ws.rebase d h).1 (.txRoot r)).isSome) :
    (getNode d (.txRoot r)).isSome ∨ r = ws.rootHash ∨ r = h := by
  unfold MptWorldState.rebase at found
  cases state : getState d h with
  | none =>
    rw [state] at found
    exact Or.inl found
  | some n =>
    obtain ⟨key, -⟩ := log.state state
    cases root : getNode d (.txRoot h) with
    | none =>
      rw [state, root] at found
      exact Or.inl found
    | some tx =>
      simp only [state, root, putState, putNode, Disk.put_eq] at found
      rcases getNode_isSome_write found with eq | found
      · exact Or.inr (Or.inl (by simpa using eq))
      · rcases getNode_isSome_write found with eq | found
        · right
          right
          rw [key]
          exact Key.txRoot.inj eq
        · exact Or.inl ((getNode_isSome_write found).resolve_left (by simp))

theorem Tracks.next (tracks : Tracks s a) (inv : s.Sound) (call : TrieCall)
    (sound : HashSound (Known (s.next call).db)) : Tracks (s.next call) (a.next (s.event call)) := by
  cases call with
  | newMptWorldState i =>
    have steps : TrieSteps (fun _ => False) s.db (TrustNet.newMptWorldState s.db).1 := newMptWorldState_steps s.db
    have result := tracks.produce (i := i) steps.suffix (holds_fresh _) fun r found => by
      rcases getNode_isSome_write found with eq | found
      · exact Or.inr (Or.inr (Key.txRoot.inj eq))
      · exact Or.inl ((getNode_isSome_write found).resolve_left (by simp))
    rw [versionOf_single] at result
    exact result
  | update i key value =>
    simp only [TrieStore.next, TrieStore.event] at sound ⊢
    cases state : s.states i with
    | none => exact tracks
    | some ws =>
      rw [state] at sound
      simp only at sound ⊢
      obtain ⟨T, holds, current⟩ := tracks.current i ws state
      have nodes := updateDepthFirst_writes (P := fun w => ∃ h v, w = (.state h, v)) (fun n _ => ⟨_, _, rfl⟩)
        (makeHex key) value s.db ws.rootNode
      have grow := update_grows s.db ws key value
      obtain ⟨after, -⟩ := holds.update inv.log (inv.whole (sound.of_suffix grow)) key value sound
      exact tracks.wrote state current nodes after (versionOf_set T key value)
  | delete i key =>
    simp only [TrieStore.next, TrieStore.event] at sound ⊢
    cases state : s.states i with
    | none => exact tracks
    | some ws =>
      rw [state] at sound
      simp only at sound ⊢
      obtain ⟨T, holds, current⟩ := tracks.current i ws state
      have nodes := deleteDepthFirst_writes (P := fun w => ∃ h v, w = (.state h, v)) (fun n _ => ⟨_, _, rfl⟩)
        (makeHex key) s.db ws.rootNode
      have grow := delete_grows s.db ws key
      obtain ⟨after, -⟩ := holds.delete inv.log (inv.whole (sound.of_suffix grow)) key sound
      exact tracks.wrote state current nodes after (versionOf_clear T key)
  | rebase i hash =>
    simp only [TrieStore.next, TrieStore.event] at sound ⊢
    cases state : s.states i with
    | none => exact tracks
    | some ws =>
      rw [state] at sound
      simp only at sound ⊢
      have records : ∀ r, (getNode (ws.rebase s.db hash).1 (.txRoot r)).isSome → _ := fun r => rebase_records inv.log
      rcases rebase_cases inv.log ws (inv.txNode i ws state) hash with ⟨-, msg, eq⟩ | ⟨d', t, eq, rebased⟩
      · rw [eq]
        have same : s.put i s.db (some ws) = s := by
          simp only [TrieStore.put, ← state, Function.update_eq_self]
        simp only [reduceCtorEq, if_false, same]
        exact tracks
      · rw [eq] at sound records ⊢
        simp only [if_true] at sound records ⊢
        have grow := rebased.steps.suffix
        obtain ⟨-, U, holds⟩ := rebased.contents inv.log (inv.whole (sound.of_suffix grow))
        obtain ⟨v, found⟩ := Option.isSome_iff_exists.mp (tracks.records hash rebased.available.2)
        have version : v = versionOf U := tracks.version_eq grow sound holds (by rw [rebased.rootHash]; exact found)
        rw [VersionedMap.next, found]
        refine tracks.put grow holds (by simp [version]) (fun j ne => Function.update_of_ne ne _ _)
          (fun r v found => Or.inl found) (fun r found => found) (by rw [rebased.rootHash, found]; rfl) fun r isSome => ?_
        rcases records r isSome with old | eq | eq
        · exact Or.inl old
        · exact Or.inr (Or.inl ⟨i, ws, state, eq.symm⟩)
        · exact Or.inr (Or.inr (eq.trans rebased.rootHash.symm))
  | cleanup hash =>
    have grow := (cleanup_deletes s.db hash).suffix
    refine ⟨fun j ws state => ?_, fun r v found => ?_, tracks.roots, fun r found => ?_⟩
    · obtain ⟨T, holds, current⟩ := tracks.current j ws state
      exact ⟨T, holds.of_suffix grow, current⟩
    · obtain ⟨n, T, knows, key, rep, eq⟩ := tracks.produced r v found
      exact ⟨n, T, knows.mono grow, key, rep.of_suffix grow, eq⟩
    · rcases (cleanup_deletes s.db hash).get_cases (.txRoot r) with same | gone
      · refine tracks.records r ?_
        simpa only [TrieStore.next, getNode, Disk.get_eq, same] using found
      · simp only at gone
        simp [TrieStore.next, getNode, gone] at found

/-! ## Every run -/

theorem TrieStore.Sound.grows (inv : s.Sound) (call : TrieCall) : s.db.log <:+ (s.next call).db.log := by
  cases call with
  | newMptWorldState i =>
    have steps : TrieSteps (fun _ => False) s.db (TrustNet.newMptWorldState s.db).1 := newMptWorldState_steps s.db
    exact steps.suffix
  | update i key value =>
    simp only [TrieStore.next]
    cases s.states i with
    | none => exact List.suffix_refl _
    | some ws => exact update_grows s.db ws key value
  | delete i key =>
    simp only [TrieStore.next]
    cases s.states i with
    | none => exact List.suffix_refl _
    | some ws => exact delete_grows s.db ws key
  | rebase i hash =>
    simp only [TrieStore.next]
    cases state : s.states i with
    | none => exact List.suffix_refl _
    | some ws =>
      simp only
      rcases rebase_cases inv.log ws (inv.txNode i ws state) hash with ⟨-, msg, eq⟩ | ⟨d', t, eq, rebased⟩
      · rw [eq]
        exact List.suffix_refl _
      · rw [eq]
        exact rebased.steps.suffix
  | cleanup hash => exact (cleanup_deletes s.db hash).suffix

/-- **The trie tracks the versioned map in every run.** -/
theorem tracked_tracks (calls : List TrieCall) (sound : HashSound (Known (tracked calls).1.db)) :
    Tracks (tracked calls).1 (tracked calls).2 := by
  induction calls using List.reverseRecOn with
  | nil =>
    refine ⟨fun i ws state => ?_, fun r v found => ?_, fun i ws state => ?_, fun r found => ?_⟩
    · cases state
    · cases found
    · cases state
    · cases found
  | append_singleton calls call ih =>
    have inv := (tracked_reached calls).sound
    rw [tracked_concat] at sound ⊢
    exact (ih (sound.of_suffix (inv.grows call))).next inv call sound

theorem tracked_grows (calls later : List TrieCall) :
    (tracked calls).1.db.log <:+ (tracked (calls ++ later)).1.db.log := by
  induction later using List.reverseRecOn with
  | nil => rw [List.append_nil]
  | append_singleton later call ih =>
    rw [← List.append_assoc, tracked_concat]
    exact ih.trans ((tracked_reached (calls ++ later)).sound.grows call)

/-! ## The first time a root is produced -/

/-- A call that made a version left a world state with its root. -/
theorem TrieStore.event_root {r : Byte64}
    (made : s.event call = .created i r ∨ ∃ key value, s.event call = .wrote i key value r) :
    ∃ ws, (s.next call).states i = some ws ∧ ws.rootHash = r := by
  cases call with
  | newMptWorldState j =>
    simp only [TrieStore.event, newMptWorldState_eq, VersionedMap.Event.created.injEq, reduceCtorEq, exists_const,
      or_false] at made
    obtain ⟨rfl, rfl⟩ := made
    exact ⟨freshState, by simp [TrieStore.next, newMptWorldState_eq, TrieStore.put, freshState], rfl⟩
  | update j key value =>
    simp only [TrieStore.event] at made
    cases state : s.states j with
    | none => simp [state] at made
    | some ws =>
      simp only [state, reduceCtorEq, VersionedMap.Event.wrote.injEq, false_or] at made
      obtain ⟨-, -, rfl, -, -, rfl⟩ := made
      refine ⟨(ws.update s.db key value).2.1, ?_, (switchRoot_hash ws _).symm⟩
      simp only [TrieStore.next, state, TrieStore.put, Function.update_self]
  | delete j key =>
    simp only [TrieStore.event] at made
    cases state : s.states j with
    | none => simp [state] at made
    | some ws =>
      simp only [state, reduceCtorEq, VersionedMap.Event.wrote.injEq, false_or] at made
      obtain ⟨-, -, rfl, -, -, rfl⟩ := made
      refine ⟨(ws.delete s.db key).2.1, ?_, (switchRoot_hash ws _).symm⟩
      simp only [TrieStore.next, state, TrieStore.put, Function.update_self]
  | rebase j hash =>
    simp only [TrieStore.event] at made
    cases state : s.states j with
    | none => simp [state] at made
    | some ws =>
      simp only [state] at made
      split at made
      · simp at made
      · simp at made
  | cleanup hash => simp [TrieStore.event] at made

/-- World state `i` is the first with root `h`. -/
structure FirstProduced (calls : List TrieCall) (h : Byte64) (i : Nat) (ws : MptWorldState) : Prop where
  state : (tracked calls).1.states i = some ws
  root : ws.rootHash = h
  first : ∀ before after, calls = before ++ after → after ≠ [] →
    ∀ j ws', (tracked before).1.states j = some ws' → ws'.rootHash ≠ h

theorem tracked_versions_mono (calls later : List TrieCall) {h : Byte64} {v : Version}
    (found : (tracked calls).2.versions h = some v) : (tracked (calls ++ later)).2.versions h = some v := by
  induction later using List.reverseRecOn with
  | nil => rwa [List.append_nil]
  | append_singleton later call ih =>
    rw [← List.append_assoc, tracked_concat]
    exact VersionedMap.next_versions_of_some ih

/-- The version of a root is the map of the world state that first had it. -/
theorem tracked_versions_first (calls : List TrieCall) (sound : HashSound (Known (tracked calls).1.db)) {h : Byte64}
    {v : Version} (found : (tracked calls).2.versions h = some v) :
    ∃ before after i ws, calls = before ++ after ∧ FirstProduced before h i ws ∧ (tracked before).2.current i = some v := by
  induction calls using List.reverseRecOn with
  | nil => cases found
  | append_singleton calls call ih =>
    have sound₀ := sound.of_suffix (tracked_grows calls [call])
    cases old : (tracked calls).2.versions h with
    | some v' =>
      have same := tracked_versions_mono calls [call] old
      rw [found, Option.some.injEq] at same
      obtain ⟨before, after, i, ws, split, first, current⟩ := ih sound₀ (same ▸ old)
      exact ⟨before, after ++ [call], i, ws, by rw [split, List.append_assoc], first, current⟩
    | none =>
      rw [tracked_concat] at found
      obtain ⟨i, current, made⟩ := VersionedMap.next_versions_of_none old found
      obtain ⟨ws, state, root⟩ := TrieStore.event_root made
      refine ⟨calls ++ [call], [], i, ws, (List.append_nil _).symm, ⟨?_, root, ?_⟩, ?_⟩
      · rw [tracked_concat]
        exact state
      · intro before after split proper j ws' state' root'
        -- a world state with the root would have left a version of it
        obtain ⟨rest, rfl⟩ : ∃ rest, calls = before ++ rest := by
          obtain ⟨rest, last, rfl⟩ := List.eq_nil_or_concat after |>.resolve_left proper
          rw [List.concat_eq_append, ← List.append_assoc] at split
          exact ⟨rest, (List.append_inj' split rfl).1⟩
        have tracks := tracked_tracks before (sound₀.of_suffix (tracked_grows before rest))
        obtain ⟨v', version⟩ := Option.isSome_iff_exists.mp (tracks.roots j ws' state')
        rw [root'] at version
        rw [tracked_versions_mono before rest version] at old
        cases old
      · rw [tracked_concat]
        exact current

/-! ## The refinement -/

/-- The world state that a call may change. -/
def TrieCall.user : TrieCall → Option Nat
  | .newMptWorldState i | .update i _ _ | .delete i _ | .rebase i _ => some i
  | .cleanup _ => none

theorem next_states_of_ne (other : call.user ≠ some i) : (s.next call).states i = s.states i := by
  have ne : ∀ {j d w}, some j ≠ some i → (s.put j d w).states i = s.states i := by
    intro j d w differ
    have differ' : i ≠ j := fun eq => differ (congrArg some eq.symm)
    simp only [TrieStore.put, Function.update_of_ne differ']
  cases call with
  | newMptWorldState j => exact ne other
  | update j key value =>
    simp only [TrieStore.next]
    cases s.states j with
    | none => rfl
    | some ws => exact ne other
  | delete j key =>
    simp only [TrieStore.next]
    cases s.states j with
    | none => rfl
    | some ws => exact ne other
  | rebase j hash =>
    simp only [TrieStore.next]
    cases s.states j with
    | none => rfl
    | some ws => exact ne other
  | cleanup hash => rfl

theorem event_user (other : call.user ≠ some i) : (s.event call).user ≠ some i := by
  cases call with
  | newMptWorldState j =>
    simp only [TrieStore.event]
    split
    · exact other
    · simp [VersionedMap.Event.user]
  | update j key value =>
    simp only [TrieStore.event]
    split
    · exact other
    · simp [VersionedMap.Event.user]
  | delete j key =>
    simp only [TrieStore.event]
    split
    · exact other
    · simp [VersionedMap.Event.user]
  | rebase j hash =>
    simp only [TrieStore.event]
    split
    · split
      · exact other
      · simp [VersionedMap.Event.user]
    · simp [VersionedMap.Event.user]
  | cleanup hash => simp [TrieStore.event, VersionedMap.Event.user]

/-- Calls of other world states change neither a world state nor its map. -/
theorem tracked_of_others (calls later : List TrieCall) (others : ∀ call ∈ later, call.user ≠ some i) :
    (tracked (calls ++ later)).1.states i = (tracked calls).1.states i ∧
      (tracked (calls ++ later)).2.current i = (tracked calls).2.current i := by
  induction later using List.reverseRecOn with
  | nil => rw [List.append_nil]; exact ⟨rfl, rfl⟩
  | append_singleton later call ih =>
    obtain ⟨states, current⟩ := ih fun c member => others c (List.mem_append_left _ member)
    have other := others call (by simp)
    rw [← List.append_assoc, tracked_concat]
    exact ⟨(next_states_of_ne other).trans states,
      (VersionedMap.next_current_of_ne (event_user other)).trans current⟩

/-- A world state answers from its map. -/
theorem tracked_lookup (calls : List TrieCall) (sound : HashSound (Known (tracked calls).1.db))
    (state : (tracked calls).1.states i = some ws) {v : Version} (current : (tracked calls).2.current i = some v)
    (key : Bytes) : ws.lookup (tracked calls).1.db key = v.answer key := by
  obtain ⟨T, holds, eq⟩ := (tracked_tracks calls sound).current i ws state
  rw [current, Option.some.injEq] at eq
  rw [eq]
  exact holds.lookup (tracked_reached calls).sound.log sound key

/-- **The trie is a versioned map.** A world state answers from the map of its root's history. After a successful
`Rebase` it answers as the world state that first had the root did then, whatever the others do. -/
theorem trie_is_versioned_map (calls : List TrieCall) (free : CollisionFree (Known (tracked calls).1.db))
    (state : (tracked calls).1.states i = some ws) :
    (∃ version : Version, (tracked calls).2.current i = some version ∧
      ∀ key, ws.lookup (tracked calls).1.db key = version.answer key) ∧
    ∀ h later, (ws.rebase (tracked calls).1.db h).2.2 = none → (∀ call ∈ later, call.user ≠ some i) →
      CollisionFree (Known (tracked (calls ++ .rebase i h :: later)).1.db) →
      ∃ before after j first ws', calls = before ++ after ∧ FirstProduced before h j first ∧
        (tracked (calls ++ .rebase i h :: later)).1.states i = some ws' ∧
        ∀ key, ws'.lookup (tracked (calls ++ .rebase i h :: later)).1.db key =
          first.lookup (tracked before).1.db key := by
  refine ⟨?_, fun h later succeeded others free' => ?_⟩
  · obtain ⟨T, holds, current⟩ := (tracked_tracks calls free.hashSound).current i ws state
    exact ⟨versionOf T, current, tracked_lookup calls free.hashSound state current⟩
  · have sound := free'.hashSound
    have split : calls ++ .rebase i h :: later = (calls ++ [.rebase i h]) ++ later := by simp
    rw [split] at sound ⊢
    have inv := (tracked_reached calls).sound
    have tracks := tracked_tracks calls free.hashSound
    -- the root has a version, which is the map after the call
    rcases rebase_cases inv.log ws (inv.txNode i ws state) h with ⟨-, msg, eq⟩ | ⟨d', t, eq, rebased⟩
    · rw [eq] at succeeded
      cases succeeded
    · obtain ⟨v, version⟩ := Option.isSome_iff_exists.mp (tracks.records h rebased.available.2)
      obtain ⟨before, after, j, first, order, produced, map⟩ := tracked_versions_first calls free.hashSound version
      obtain ⟨states, current⟩ := tracked_of_others (calls ++ [.rebase i h]) later others
      have state' : (tracked (calls ++ [.rebase i h])).1.states i = some t := by
        simp only [tracked_concat, trackedNext, TrieStore.next, state, eq, TrieStore.put, Function.update_self]
      have current' : (tracked (calls ++ [.rebase i h])).2.current i = some v := by
        simp only [tracked_concat, trackedNext, TrieStore.event, state, eq, if_true, VersionedMap.next, version,
          Function.update_self]
      refine ⟨before, after, j, first, t, order, produced, states.trans state', fun key => ?_⟩
      have soundBefore : HashSound (Known (tracked before).1.db) := by
        have grows := tracked_grows before after
        rw [← order] at grows
        exact free.hashSound.of_suffix grows
      rw [tracked_lookup _ sound (states.trans state') (current.trans current') key,
        tracked_lookup before soundBefore produced.state map key]

end Tracks

section Worked

attribute [local instance] workedSha512

/-- `a` is set, then `b`; the world state goes back, another one is created and the empty root cleaned up. -/
def Worked.wentBack : List TrieCall :=
  Worked.setBoth ++ .rebase 0 (digest oneDigest) :: [.newMptWorldState 1, .cleanup (digest emptyDigest)]

theorem Worked.store_eq (calls : List TrieCall) : Worked.store calls = (tracked calls).1 := (tracked_store calls).symm

theorem Worked.wentBack_runs :
    Worked.Covered (Worked.store Worked.setBoth).db ∧ Worked.Covered (Worked.store Worked.wentBack).db ∧
      ((Worked.store Worked.setBoth).states 0).map
        (fun ws => (ws.rebase (Worked.store Worked.setBoth).db (digest oneDigest)).2.2) = some none := by decide +kernel

theorem trie_is_versioned_map_wentBack :
    ∃ before after j first ws', Worked.setBoth = before ++ after ∧ FirstProduced before (digest oneDigest) j first ∧
      (tracked Worked.wentBack).1.states 0 = some ws' ∧
      ∀ key, ws'.lookup (tracked Worked.wentBack).1.db key = first.lookup (tracked before).1.db key := by
  obtain ⟨covered, covered', succeeds⟩ := Worked.wentBack_runs
  rw [Worked.store_eq] at covered covered' succeeds
  obtain ⟨ws, state, succeeded⟩ := Option.map_eq_some_iff.mp succeeds
  have free : CollisionFree (Known (tracked Worked.setBoth).1.db) :=
    (Worked.hashSound_of_covered covered).collisionFree
  have free' : CollisionFree (Known (tracked Worked.wentBack).1.db) :=
    (Worked.hashSound_of_covered covered').collisionFree
  obtain ⟨-, goesBack⟩ := trie_is_versioned_map Worked.setBoth free state
  exact goesBack (digest oneDigest) [.newMptWorldState 1, .cleanup (digest emptyDigest)] succeeded (by decide) free'

end Worked

end TrustNet
