import TrustNet.Consensus.Fill
import TrustNet.Consensus.Relay
import TrustNet.Trie.Versions

/-!
# Snapshots of the best block

`BestBlock` (the `State()` of the platform) hands out a copy of the tip with a world
state of its own. Its `Lookup` reads the nodes of the shared database when it is asked,
and keeps what it found. Nodes that the copy can reach are never overwritten by other
nodes and never removed, whatever the engine is asked to do later, so the copy goes on
giving the answers of the world state it was made from. That is the world state of the
engine, which is the tip's as long as no addition failed in `Rebase`.

`Block` rebases a world state in the same way, and then returns the block without it: a
fetched block cannot be read.
-/

namespace TrustNet
set_option autoImplicit false

section Events

variable [Sha512]

/-- The value of a key in the world state with the given root, as a new world state finds it. -/
def worldStateValue (d : Disk) (root : Byte64) (key : Bytes) : Except Err Bytes :=
  match getState (freshDisk d) root with
  | none => .error (.core .notFound "hash does not exists")
  | some rootNode => MptWorldState.lookup ⟨root, rootNode, emptyNode⟩ (freshDisk d) key

/-- The reply with the same value or error. -/
def replyOf : Except Err Bytes → Reply
  | .ok value => .value value
  | .error e => .error e

/-- What happens while a snapshot is out: a call of the engine, or a `Lookup` on the snapshot. -/
inductive SnapshotEvent where
  | call (a : Action)
  | get (key : Bytes)

/-- The node and the snapshot after an event. -/
def snapshotNext (p : System × Block) : SnapshotEvent → System × Block
  | .call a => (p.1.next a, p.2)
  | .get key => (p.1, (p.2.lookup p.1.db key).1)

end Events

section Reading

variable [Sha512] {d d' : Disk} {handle : Block} {T : Contents}

/-- The snapshot reads a world state with the contents `T`, and has kept values of `T` only. -/
structure Reading (d : Disk) (handle : Block) (T : Contents) : Prop where
  state : ∃ ws, handle.worldState = some ws ∧ Holds d ws T
  kept : ∀ key v, handle.vars.lookup key = some v → ∃ value, v = some value ∧ versionOf T key = some value

theorem Reading.of_suffix (grow : d.log <:+ d'.log) (reading : Reading d handle T) : Reading d' handle T := by
  obtain ⟨ws, state, holds⟩ := reading.state
  exact ⟨⟨ws, state, holds.of_suffix grow⟩, reading.kept⟩

/-- A `Lookup` answers from the contents, and keeps what it read. -/
theorem Reading.lookup (log : TrieLog d) (sound : HashSound (Known d)) (reading : Reading d handle T) (key : Bytes) :
    (handle.lookup d key).2 = replyOf ((versionOf T).answer key) ∧ Reading d (handle.lookup d key).1 T := by
  obtain ⟨ws, state, holds⟩ := reading.state
  unfold Block.lookup
  cases cached : handle.vars.lookup key with
  | some v =>
    obtain ⟨value, rfl, found⟩ := reading.kept key v cached
    simp only [Version.answer, found, replyOf]
    exact ⟨trivial, reading⟩
  | none =>
    simp only [state, holds.lookup log sound]
    unfold Version.answer
    cases found : versionOf T key with
    | none => exact ⟨rfl, reading⟩
    | some value =>
      refine ⟨rfl, ⟨ws, rfl, holds⟩, fun key' v stored => ?_⟩
      by_cases eq : key' = key
      · subst eq
        rw [AList.lookup_insert, Option.some.injEq] at stored
        exact ⟨value, stored.symm, found⟩
      · rw [AList.lookup_insert_ne eq] at stored
        exact reading.kept key' v stored

end Reading

section Runs

variable [Sha512] {s : System} {c : BlockChainConsensus} {d : Disk} {handle : Block} {T : Contents} {g : Byte64}

/-- The calls among the events. -/
def SnapshotEvent.action : SnapshotEvent → Option Action
  | .call a => some a
  | .get _ => none

/-- The snapshot does not get in the way of the node. -/
theorem snapshot_run_node (s : System) (handle : Block) (events : List SnapshotEvent) :
    (Transition.run snapshotNext (s, handle) events).1 = s.run (events.filterMap SnapshotEvent.action) := by
  induction events generalizing s handle with
  | nil => rfl
  | cons event events ih =>
    rw [Transition.run_cons]
    cases event with
    | call a => exact ih (s.next a) handle
    | get key => exact ih s _

/-- Nothing that happens later changes what the snapshot reads. -/
theorem reading_run (ready : SystemReady s) (reading : Reading s.db handle T) (events : List SnapshotEvent)
    (sound : HashSound (Known (Transition.run snapshotNext (s, handle) events).1.db)) :
    Reading (Transition.run snapshotNext (s, handle) events).1.db
      (Transition.run snapshotNext (s, handle) events).2 T := by
  induction events generalizing s handle with
  | nil => exact reading
  | cons event events ih =>
    rw [Transition.run_cons] at sound ⊢
    cases event with
    | call a => exact ih (systemReady_next ready a) (reading.of_suffix (step_result ready a).grows) sound
    | get key =>
      have grows : s.db.log <:+ (Transition.run snapshotNext (snapshotNext (s, handle) (.get key)) events).1.db.log := by
        rw [show snapshotNext (s, handle) (.get key) = (s, (handle.lookup s.db key).1) from rfl, snapshot_run_node]
        exact run_grows ready _
      exact ih ready (reading.lookup ready.log (sound.of_suffix grows) key).2 sound

/-- The copy that `BestBlock` hands out. -/
theorem bestBlock_some (log : TrieLog s.db) (best : bestBlock c s.db = (d, some handle)) :
    ∃ t, Rebased (freshDisk s.db) c.state.rootHash d t ∧ handle = c.tip.clone t := by
  unfold bestBlock at best
  rw [newMptWorldState_disk] at best
  rcases fresh_rebase log c.state.rootHash with ⟨-, msg, eq⟩ | ⟨d', t, eq, rebased⟩
  · simp [eq] at best
  · simp only [eq, Prod.mk.injEq, Option.some.injEq] at best
    obtain ⟨rfl, rfl⟩ := best
    exact ⟨t, rebased, rfl⟩

/-- The snapshot reads the world state that the engine had. -/
theorem Rebased.value {h : Byte64} {t : MptWorldState} (log : TrieLog s.db) (whole : Whole s.db)
    (sound : HashSound (Known d)) (rebased : Rebased (freshDisk s.db) h d t) :
    ∃ T, Holds d t T ∧ ∀ key, worldStateValue s.db h key = (versionOf T).answer key := by
  have log₁ := log.freshDisk
  have whole₁ : Whole (freshDisk s.db) := by
    have eq := whole.newMptWorldState
    rw [newMptWorldState_disk] at eq
    exact eq
  obtain ⟨-, T, holds⟩ := rebased.contents log₁ whole₁
  obtain ⟨n, found, root⟩ := rebased.rootNode
  obtain ⟨hash, stored⟩ := inLog_of_getState log₁ found
  obtain ⟨U, rep⟩ := whole₁ n stored
  have holdsN : Holds (freshDisk s.db) ⟨h, n, emptyNode⟩ U := ⟨rep, hash, Or.inr stored⟩
  have sound₁ := sound.of_suffix rebased.writes.suffix
  -- the two world states have one root, so they have the same contents
  have same : U = T := by
    refine holdsN.contents_eq (sound.mono ?_) holds rebased.rootHash.symm
    rintro m (known | known)
    · exact known.mono rebased.writes.suffix
    · exact known
  subst same
  refine ⟨U, holds, fun key => ?_⟩
  unfold worldStateValue
  rw [found]
  exact holdsN.lookup log₁ sound₁ key

/-- **A snapshot is isolated.** The best block is handed out in a state that was reached without a failing `Rebase`.
Whatever the engine is asked to do from then on, and whatever is read from the snapshot in between, a `Lookup` on it
gives the value that the key had in the world state of the tip when the snapshot was taken. -/
theorem snapshot_isolated (reached : Reached RebaseOk g s) (engine : s.engine = some c)
    (best : bestBlock c s.db = (d, some handle)) (events : List SnapshotEvent) (key : Bytes) :
    let p := Transition.run snapshotNext (s.next .bestBlock, handle) events
    HashSound (Known p.1.db) →
      (p.2.lookup p.1.db key).2 = replyOf (worldStateValue s.db c.tip.state key) := by
  intro p sound
  have after : (s.next .bestBlock).db = d := by
    simp only [System.next, System.step, engine, best]
  obtain ⟨m, -, synced⟩ := reached.onTip
  have ready := systemReady_next reached.ready .bestBlock
  have grows : d.log <:+ p.1.db.log := by
    rw [← after]
    simp only [p, snapshot_run_node]
    exact run_grows ready _
  have soundD := sound.of_suffix grows
  have whole := (reached.contents ((soundD.of_suffix (after ▸ (step_result reached.ready .bestBlock).grows)))).whole
  obtain ⟨t, rebased, rfl⟩ := bestBlock_some reached.ready.log best
  rw [(synced c engine).root] at rebased
  obtain ⟨T, holds, value⟩ := rebased.value reached.ready.log whole soundD
  have reading : Reading (s.next .bestBlock).db (c.tip.clone t) T := by
    rw [after]
    exact ⟨⟨t, rfl, holds⟩, fun key v stored => by simp [Block.clone] at stored⟩
  have last := reading_run ready reading events sound
  have readyP : SystemReady p.1 := by
    simp only [p, snapshot_run_node]
    exact Transition.run_invariant SystemReady (fun _ a ready => systemReady_next ready a) ready _
  rw [(last.lookup readyP.log sound key).1, value]

end Runs

/-! ## Fetched blocks -/

section Fetched

variable [Sha512] {s : System} {h : Byte64} {spec : BlockSpec} {b : Block}

/-- A block without a world state of its own, in which nothing has been written. -/
structure Detached (b : Block) : Prop where
  state : b.worldState = none
  vars : b.vars = ∅

omit [Sha512] in
/-- There is nothing that a `Lookup` on it could read. -/
theorem Detached.lookup (detached : Detached b) (d : Disk) (key : Bytes) : b.lookup d key = (b, .panic) := by
  unfold Block.lookup
  rw [detached.vars, AList.lookup_empty, detached.state]

theorem Detached.run (detached : Detached b) (s : System) (events : List SnapshotEvent) :
    (Transition.run snapshotNext (s, b) events).2 = b := by
  induction events generalizing s with
  | nil => rfl
  | cons event events ih =>
    rw [Transition.run_cons]
    cases event with
    | call a => exact ih (s.next a)
    | get key =>
      have same : snapshotNext (s, b) (.get key) = (s, b) := by
        simp only [snapshotNext, detached.lookup]
      rw [same]
      exact ih s

/-- `Block` hands out the record of the block. -/
theorem blockAt_eq {d : Disk} (found : getSpec d h = some spec) (able : canRebase d spec.state = true) :
    (blockAt d h).2 = .ok { spec.toBlock with hash := some h } := by
  have block : getBlock d h = some { spec.toBlock with hash := some h } := by
    unfold getBlock
    rw [found]
    rfl
  have state : spec.toBlock.state = spec.state := rfl
  unfold canRebase at able
  rw [newMptWorldState_disk] at able
  unfold blockAt
  rw [block, newMptWorldState_disk]
  simp only [state]
  cases rebased : (freshState.rebase (freshDisk d) spec.state) with
  | mk d' rest =>
    obtain ⟨t, error⟩ := rest
    simp only [rebased] at able ⊢
    rw [Option.isNone_iff_eq_none.mp able]

omit [Sha512] in
theorem detached_toBlock (spec : BlockSpec) (h : Byte64) : Detached { spec.toBlock with hash := some h } :=
  ⟨rfl, rfl⟩

/-- A fetched block reads its world state: from then on, whatever the engine is asked to do and whatever is read from
the block in between, its answer for `key` is the one in the world state with the given root. -/
def ReadsState (s : System) (h root : Byte64) (key : Bytes) : Prop :=
  ∃ b, (blockAt s.db h).2 = .ok b ∧ ∀ events,
    let p := Transition.run snapshotNext (s.next (.block h), b) events
    (p.2.lookup p.1.db key).2 = replyOf (worldStateValue s.db root key)

/-- **A fetched block cannot be read.** In every state of a node `Block` succeeds for every stored block to whose
world state it can rebase, and every `Lookup` on the block that it returns is a nil dereference, now and later. -/
theorem fetched_block_unreadable (found : getSpec s.db h = some spec)
    (able : canRebase s.db spec.state = true) (key : Bytes) :
    (∃ b, (blockAt s.db h).2 = .ok b ∧ ∀ events,
      let p := Transition.run snapshotNext (s.next (.block h), b) events
      (p.2.lookup p.1.db key).2 = .panic) ∧
    ¬ ReadsState s h spec.state key := by
  have fetched := blockAt_eq found able
  have detached := detached_toBlock spec h
  refine ⟨⟨_, fetched, fun events => ?_⟩, ?_⟩
  · intro p
    simp only [p, detached.run, detached.lookup]
  · rintro ⟨b, fetched', reads⟩
    rw [fetched] at fetched'
    cases fetched'
    have answer := reads []
    simp only [Transition.run_nil, detached.lookup] at answer
    cases value : worldStateValue s.db spec.state key with
    | ok v => simp [value, replyOf] at answer
    | error e => simp [value, replyOf] at answer

end Fetched

section Worked

attribute [local instance] workedSha512

/-- After the failed `Rebase` the tip is `smallChild`, whose world state has `a = 1`, and the best block is
handed out with the world state of `left`, which does not have `a`. -/
theorem Worked.lagging_snapshot :
    let s := (System.boot 1 1 [7]).run Worked.lag
    Reached (fun _ _ => True) (genesisHash 1 1) s ∧
      ∃ c d handle, s.engine = some c ∧ bestBlock c s.db = (d, some handle) ∧
        replyOf (worldStateValue s.db c.tip.state [97]) = .value [1] ∧
        (handle.lookup d [97]).2 = .error (.core .notFound "key does not exists") := by
  intro s
  have run : s.engine.any fun c : BlockChainConsensus =>
      decide (replyOf (worldStateValue s.db c.tip.state [97]) = .value [1]) &&
        (bestBlock c s.db).2.any fun handle : Block =>
          decide ((handle.lookup (bestBlock c s.db).1 [97]).2 = .error (.core .notFound "key does not exists")) := by
    decide +kernel
  obtain ⟨c, engine, found⟩ := (Option.any_eq_true _ _).mp run
  rw [Bool.and_eq_true] at found
  obtain ⟨handle, best, missing⟩ := (Option.any_eq_true _ _).mp found.2
  exact ⟨Worked.reached_always Worked.lag, c, _, handle, engine, Prod.ext rfl best, of_decide_eq_true found.1,
    of_decide_eq_true missing⟩

/-- While the snapshot is out, the PoW check of `large` cleans up the world state it was taken from. -/
def Worked.looking : List SnapshotEvent :=
  .get [98] :: (Worked.checkLarge.map SnapshotEvent.call ++ [.get [97], .call .bestBlock])

theorem snapshot_isolated_looking :
    let s := (System.boot 1 1 [7]).run Worked.deliverSmall
    ∃ c d handle, s.engine = some c ∧ bestBlock c s.db = (d, some handle) ∧
      let p := Transition.run snapshotNext (s.next .bestBlock, handle) Worked.looking
      (p.2.lookup p.1.db [97]).2 = .value [1] := by
  intro s
  have run : System.Along RebaseOk (System.boot 1 1 [7]) Worked.deliverSmall ∧
      s.engine.any fun c : BlockChainConsensus =>
        decide (replyOf (worldStateValue s.db c.tip.state [97]) = .value [1]) &&
          (bestBlock c s.db).2.any fun handle : Block =>
            decide (Worked.Covered (Transition.run snapshotNext (s.next .bestBlock, handle) Worked.looking).1.db) := by
    decide +kernel
  obtain ⟨fine, run⟩ := run
  obtain ⟨c, engine, found⟩ := (Option.any_eq_true _ _).mp run
  rw [Bool.and_eq_true] at found
  obtain ⟨handle, best, covered⟩ := (Option.any_eq_true _ _).mp found.2
  have reached : Reached RebaseOk (genesisHash 1 1) s := ⟨1, 1, [7], Worked.deliverSmall, Worked.started, rfl, fine, rfl⟩
  have best' : bestBlock c s.db = ((bestBlock c s.db).1, some handle) := Prod.ext rfl best
  have answer := snapshot_isolated reached engine best' Worked.looking [97]
    (Worked.hashSound_of_covered (of_decide_eq_true covered))
  exact ⟨c, _, handle, engine, best', answer.trans (of_decide_eq_true found.1)⟩

/-- `small` is stored, with its world state. -/
theorem Worked.small_stored :
    let s := (System.boot 1 1 [7]).run Worked.deliverSmall
    getSpec s.db (digest smallDigest) = some Worked.small ∧ canRebase s.db Worked.small.state = true ∧
      replyOf (worldStateValue s.db Worked.small.state [97]) = .value [1] := by decide +kernel

/-- The world state of `small` has `a = 1`. The best block, which is `small`, gives that answer, and `small` fetched by
its hash gives none. -/
theorem Worked.fetched_small :
    let s := (System.boot 1 1 [7]).run Worked.deliverSmall
    Reached (fun _ _ => True) (genesisHash 1 1) s ∧ getSpec s.db (digest smallDigest) = some Worked.small ∧
      canRebase s.db Worked.small.state = true ∧
      replyOf (worldStateValue s.db Worked.small.state [97]) = .value [1] ∧
      ∃ b, (blockAt s.db (digest smallDigest)).2 = .ok b ∧
        (b.lookup (blockAt s.db (digest smallDigest)).1 [97]).2 = .panic := by
  intro s
  obtain ⟨found, able, value⟩ := Worked.small_stored
  refine ⟨Worked.reached_always Worked.deliverSmall, found, able, value, _, blockAt_eq found able, ?_⟩
  rw [(detached_toBlock _ _).lookup]

theorem fetched_block_unreadable_small :
    let s := (System.boot 1 1 [7]).run Worked.deliverSmall
    ¬ ReadsState s (digest smallDigest) Worked.small.state [97] := by
  intro s
  obtain ⟨found, able, -⟩ := Worked.small_stored
  exact (fetched_block_unreadable found able [97]).2

end Worked

end TrustNet
