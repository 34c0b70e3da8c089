import TrustNet.Consensus.Replay

/-!
# What a block shows of its world state

A block answers a `Lookup` from its overlay, and from its world state for the keys that
the overlay does not have. `reply` is that answer, as a function of the overlay and of the
keys of the world state; `effective` is the map it amounts to. Overlays with the same
replies lead to the same world state when they are persisted: an entry that the other
overlay lacks repeats the value that the world state has already.
-/

namespace TrustNet
set_option autoImplicit false

/-- The reply to a `Lookup` on a block with the overlay `vars` over the keys of `version`. -/
def reply (version : Version) (vars : Variables) (key : Bytes) : Reply :=
  match vars.lookup key with
  | some none => .error (.core .keyNotFound "key not found")
  | some (some value) => .value value
  | none =>
    match version key with
    | some value => .value value
    | none => .error (.core .notFound "key does not exists")

/-- The keys that the block shows. -/
def effective (version : Version) (vars : Variables) : Version := fun key =>
  match vars.lookup key with
  | some entry => entry
  | none => version key

/-- The value of a reply; an error is a key that was not found. -/
def Reply.found : Reply → Option Bytes
  | .value v => some v
  | _ => none

/-- The overlays answer every `Lookup` alike. -/
def SameReplies (version : Version) (vars vars' : Variables) : Prop := ∀ key, reply version vars key = reply version vars' key

section Overlay

variable {version : Version} {vars vars' : Variables} {key key' : Bytes}

theorem effective_empty (version : Version) : effective version ∅ = version := rfl

theorem effective_insert (version : Version) (vars : Variables) (key : Bytes) (entry : Option Bytes) :
    effective version (vars.insert key entry) = Function.update (effective version vars) key entry := by
  funext key'
  unfold effective
  by_cases eq : key' = key
  · subst eq
    rw [AList.lookup_insert, Function.update_self]
  · rw [AList.lookup_insert_ne eq, Function.update_of_ne eq]

theorem reply_insert_self (version : Version) (vars : Variables) (key : Bytes) (entry : Option Bytes) :
    reply version (vars.insert key entry) key =
      match entry with
      | none => .error (.core .keyNotFound "key not found")
      | some value => .value value := by
  unfold reply
  rw [AList.lookup_insert]
  cases entry with
  | none => rfl
  | some value => rfl

theorem reply_insert_of_ne (version : Version) (vars : Variables) (entry : Option Bytes) (ne : key' ≠ key) :
    reply version (vars.insert key entry) key' = reply version vars key' := by
  unfold reply
  rw [AList.lookup_insert_ne ne]

/-- A `Lookup` that is kept changes no reply. -/
theorem reply_record_lookup (version : Version) (vars : Variables) (key key' : Bytes) :
    reply version (BlockOp.record version vars (.lookup key)) key' = reply version vars key' := by
  simp only [BlockOp.record]
  split
  · rename_i value absent found
    by_cases eq : key' = key
    · subst eq
      rw [reply_insert_self]
      unfold reply
      rw [absent, found]
    · exact reply_insert_of_ne version vars _ eq
  · rfl

/-- The map that replies amount to. -/
theorem effective_eq (version : Version) (vars : Variables) (key : Bytes) :
    effective version vars key = match reply version vars key with
      | .value value => some value
      | _ => none := by
  unfold effective reply
  cases vars.lookup key with
  | some entry =>
    cases entry with
    | none => rfl
    | some value => rfl
  | none =>
    cases version key with
    | none => rfl
    | some value => rfl

theorem found_reply (version : Version) (vars : Variables) (key : Bytes) :
    (reply version vars key).found = effective version vars key := by
  rw [effective_eq]
  cases reply version vars key with
  | value v => rfl
  | error e => rfl
  | panic => rfl

theorem effective_record_lookup (version : Version) (vars : Variables) (key : Bytes) :
    effective version (BlockOp.record version vars (.lookup key)) = effective version vars := by
  funext key'
  rw [effective_eq, effective_eq, reply_record_lookup]

theorem SameReplies.refl (version : Version) (vars : Variables) : SameReplies version vars vars := fun _ => rfl

theorem SameReplies.symm (same : SameReplies version vars vars') : SameReplies version vars' vars :=
  fun key => (same key).symm

theorem SameReplies.trans {vars'' : Variables} (first : SameReplies version vars vars')
    (second : SameReplies version vars' vars'') : SameReplies version vars vars'' :=
  fun key => (first key).trans (second key)

theorem SameReplies.insert (same : SameReplies version vars vars') (key : Bytes) (entry : Option Bytes) :
    SameReplies version (vars.insert key entry) (vars'.insert key entry) := by
  intro key'
  by_cases eq : key' = key
  · subst eq
    rw [reply_insert_self, reply_insert_self]
  · rw [reply_insert_of_ne version vars entry eq, reply_insert_of_ne version vars' entry eq, same]

theorem SameReplies.record (same : SameReplies version vars vars') (op : BlockOp) :
    SameReplies version (op.record version vars) (op.record version vars') := by
  cases op with
  | update key value => exact same.insert key (some value)
  | delete key => exact same.insert key none
  | lookup key =>
    intro key'
    rw [reply_record_lookup, reply_record_lookup, same]

end Overlay

section Block

variable [Sha512] {d : Disk} {b : Block} {ws : MptWorldState} {T : Contents}

/-- A `Lookup` on a block. -/
theorem lookup_eq (working : Working d ws T) (sound : HashSound (Known d)) (state : b.worldState = some ws) (key : Bytes) :
    b.lookup d key =
      ({ b with vars := BlockOp.record (versionOf T) b.vars (.lookup key) }, reply (versionOf T) b.vars key) := by
  have answer := working.holds.lookup working.log sound key
  simp only [Block.lookup, reply, BlockOp.record]
  cases b.vars.lookup key with
  | some entry =>
    cases entry with
    | none => rfl
    | some value => rfl
  | none =>
    simp only
    split
    · rename_i absent
      rw [state] at absent
      cases absent
    · rename_i ws' present
      rw [state] at present
      cases present
      simp only [answer, Version.answer]
      cases versionOf T key with
      | none => rfl
      | some value => rfl

/-- The keys that a block shows, as its `Lookup` finds them. -/
def Block.shows (b : Block) (d : Disk) : Version := fun key => (b.lookup d key).2.found

theorem shows_eq (working : Working d ws T) (sound : HashSound (Known d)) (state : b.worldState = some ws) :
    b.shows d = effective (versionOf T) b.vars := by
  funext key
  rw [Block.shows, lookup_eq working sound state, found_reply]

end Block

/-! ## What is persisted -/

section Persisted

variable {T : Contents} {vars vars' : Variables} {order order' : List Entry}

/-- An entry that another overlay with the same replies lacks repeats the value that the world state has. -/
theorem SameReplies.idle (same : SameReplies (versionOf T) vars vars') (closed : T.Closed) {e : Entry}
    (member : e ∈ vars.entries) (lacks : e.1 ∉ vars') : T.edit [] (makeHex e.1, e.2) = T := by
  obtain ⟨key, entry⟩ := e
  have here : vars.lookup key = some entry := AList.mem_lookup_iff.mpr member
  have there : vars'.lookup key = none := AList.lookup_eq_none.mpr lacks
  have replies := same key
  unfold reply at replies
  rw [here, there] at replies
  cases entry with
  | none =>
    cases found : versionOf T key with
    | none => simp [found] at replies
    | some value => simp [found] at replies
  | some value =>
    cases found : versionOf T key with
    | none => simp [found] at replies
    | some value' =>
      simp only [found, Reply.value.injEq] at replies
      subst replies
      refine PathMap.set_present closed ?_
      unfold versionOf nonEmpty at found
      split at found
      · cases found
      · rename_i nonempty
        cases present : T (makeHex key) with
        | none =>
          rw [present] at nonempty
          exact absurd rfl nonempty
        | some v =>
          rw [present] at found
          exact found

/-- Overlays with the same replies have the same entries for the keys that both have. -/
theorem SameReplies.common {version : Version} (same : SameReplies version vars vars') {e : Entry}
    (member : e ∈ vars.entries) (has : e.1 ∈ vars') : e ∈ vars'.entries := by
  obtain ⟨key, entry⟩ := e
  have here : vars.lookup key = some entry := AList.mem_lookup_iff.mpr member
  obtain ⟨entry', there⟩ := Option.isSome_iff_exists.mp (AList.lookup_isSome.mpr has)
  have replies := same key
  unfold reply at replies
  rw [here, there] at replies
  have eq : entry = entry' := by
    cases entry with
    | none =>
      cases entry' with
      | none => rfl
      | some value => cases replies
    | some value =>
      cases entry' with
      | none => cases replies
      | some value' =>
        cases replies
        rfl
  rw [eq]
  exact AList.mem_lookup_iff.mp there

/-- The entries that the other overlay lacks can be left out. -/
theorem SameReplies.edits_common (same : SameReplies (versionOf T) vars vars') (closed : T.Closed)
    (perm : order.Perm vars.entries) :
    T.edits [] (batch order) = T.edits [] (batch (order.filter fun e => e.1 ∈ vars')) := by
  have split : (order.filter (fun e => !decide (e.1 ∈ vars')) ++ order.filter fun e => e.1 ∈ vars').Perm order :=
    List.perm_append_comm.trans (List.filter_append_perm _ order)
  rw [← PathMap.edits_perm T (batch_distinct (split.trans perm)) (batch_perm split), batch, List.map_append,
    PathMap.edits_append]
  congr 1
  refine PathMap.edits_idle fun e member => ?_
  obtain ⟨entry, kept, rfl⟩ := List.mem_map.mp member
  obtain ⟨listed, lacks⟩ := List.mem_filter.mp kept
  exact same.idle closed (perm.subset listed) (by simpa using lacks)

/-- **Overlays with the same replies are persisted alike.** -/
theorem SameReplies.edits_eq (same : SameReplies (versionOf T) vars vars') (closed : T.Closed)
    (perm : order.Perm vars.entries) (perm' : order'.Perm vars'.entries) :
    T.edits [] (batch order) = T.edits [] (batch order') := by
  rw [same.edits_common closed perm, same.symm.edits_common closed perm']
  have nodup : ∀ {vars : Variables} {order : List Entry}, order.Perm vars.entries → order.Nodup :=
    fun {vars} _ perm => perm.nodup_iff.mpr vars.nodupKeys.nodup
  have both : (order.filter fun e => e.1 ∈ vars').Perm (order'.filter fun e => e.1 ∈ vars) := by
    rw [List.perm_ext_iff_of_nodup ((nodup perm).filter _) ((nodup perm').filter _)]
    intro e
    simp only [List.mem_filter, decide_eq_true_eq, perm.mem_iff, perm'.mem_iff]
    constructor
    · rintro ⟨member, has⟩
      exact ⟨same.common member has, AList.mem_keys.mpr (List.mem_keys_of_mem member)⟩
    · rintro ⟨member, has⟩
      exact ⟨same.symm.common member has, AList.mem_keys.mpr (List.mem_keys_of_mem member)⟩
  refine PathMap.edits_perm T ?_ (batch_perm both)
  intro e member e' member' eq
  refine batch_distinct perm e ?_ e' ?_ eq
  · exact List.map_subset _ (List.filter_subset_self _) member
  · exact List.map_subset _ (List.filter_subset_self _) member'

theorem bind_nonEmpty (T : Contents) (key : Bytes) : (versionOf T key).bind nonEmpty = versionOf T key := by
  unfold versionOf
  generalize (T (makeHex key)).getD [] = value
  unfold nonEmpty
  by_cases empty : value = []
  · rw [if_pos empty]
    rfl
  · rw [if_neg empty]
    exact if_neg empty

theorem versionOf_edit (T : Contents) (e : Entry) :
    versionOf (T.edit [] (makeHex e.1, e.2)) = Function.update (versionOf T) e.1 (e.2.bind nonEmpty) := by
  obtain ⟨key, entry⟩ := e
  cases entry with
  | none => exact versionOf_clear T key
  | some value => exact versionOf_set T key value

theorem versionOf_edits (T : Contents) {order : List Entry} (nodup : order.NodupKeys) (key : Bytes) :
    versionOf (T.edits [] (batch order)) key =
      match order.dlookup key with
      | some entry => entry.bind nonEmpty
      | none => versionOf T key := by
  induction order generalizing T with
  | nil => rfl
  | cons e order ih =>
    obtain ⟨absent, nodup⟩ := List.nodupKeys_cons.mp nodup
    have step : T.edits [] (batch (e :: order)) = (T.edit [] (makeHex e.1, e.2)).edits [] (batch order) := rfl
    rw [step, ih _ nodup]
    by_cases eq : key = e.1
    · subst eq
      rw [List.dlookup_eq_none.mpr absent, versionOf_edit, Function.update_self, List.dlookup_cons_eq order e.1 e.2]
    · rw [List.dlookup_cons_ne order e eq]
      cases order.dlookup key with
      | some entry => rfl
      | none => simp only [versionOf_edit, Function.update_of_ne eq]

/-- **The keys of the state that is persisted are the keys that the block showed**, less those with an empty value. -/
theorem versionOf_persisted (T : Contents) (perm : order.Perm vars.entries) (key : Bytes) :
    versionOf (T.edits [] (batch order)) key = (effective (versionOf T) vars key).bind nonEmpty := by
  have nodup : order.NodupKeys := (List.perm_nodupKeys perm).mpr vars.nodupKeys
  rw [versionOf_edits T nodup, List.perm_dlookup key nodup perm]
  unfold effective
  change _ = (match vars.lookup key with
    | some entry => entry
    | none => versionOf T key).bind nonEmpty
  unfold AList.lookup
  cases List.dlookup key vars.entries with
  | some entry => rfl
  | none =>
    exact (bind_nonEmpty T key).symm

end Persisted

end TrustNet
