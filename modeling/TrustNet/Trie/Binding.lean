import Mathlib.Data.Set.Function
import TrustNet.Core.Digests
import TrustNet.Trie.Store

/-!
# The root hash binds the contents

A node is hashed as zeros, sixteen child hashes and a value; the number of zeros
depends on the length of the value, so the data determines the node. Without a
collision among the nodes of two databases, two tries with the same root hash are
the same trie, whatever operations built them.
-/

namespace TrustNet
set_option autoImplicit false

section Data

/-- The data whose digest is the hash of a node. -/
def Node.data (n : Node) : Bytes :=
  List.replicate (16 * 64 + n.value.length) 0 ++ (List.finRange 16).flatMap (fun i => (n.idxs i).bytes) ++ n.value

theorem Node.data_congr {m n : Node} (same : m.Same n) : m.data = n.data := by
  simp only [Node.data, same.1, same.2]

theorem length_flatMap_bytes {α : Type} (l : List α) (f : α → Byte64) :
    (l.flatMap fun i => (f i).bytes).length = l.length * 64 := by
  induction l with
  | nil => rfl
  | cons i l ih =>
    rw [List.flatMap_cons, List.length_append, ih, (f i).length_eq, List.length_cons]
    omega

/-- Arrays of one length can be told apart in their concatenation. -/
theorem flatMap_bytes_injective {α : Type} {l : List α} {f g : α → Byte64}
    (same : (l.flatMap fun i => (f i).bytes) = l.flatMap fun i => (g i).bytes) : ∀ i ∈ l, f i = g i := by
  induction l with
  | nil => simp
  | cons i l ih =>
    rw [List.flatMap_cons, List.flatMap_cons] at same
    obtain ⟨first, rest⟩ := List.append_inj same ((f i).length_eq.trans (g i).length_eq.symm)
    intro j member
    rcases List.mem_cons.mp member with rfl | member
    · exact Byte64.ext first
    · exact ih rest j member

/-- **The hashed data determines the node**, up to its tombstone. -/
theorem Node.data_injective {m n : Node} (same : m.data = n.data) : m.Same n := by
  have total := congrArg List.length same
  simp only [Node.data, List.length_append, List.length_replicate, length_flatMap_bytes] at total
  have lengths : m.value.length = n.value.length := by omega
  unfold Node.data at same
  rw [lengths] at same
  obtain ⟨front, value⟩ := List.append_inj' same lengths
  have children := flatMap_bytes_injective (List.append_cancel_left front)
  exact ⟨funext fun i => children i (List.mem_finRange i), value⟩

end Data

section Binding

variable [Sha512] {known : Node → Prop}

theorem Node.hash_eq (n : Node) : n.hash = sum512 n.data := rfl

/-- SHA-512 has no collision and no all-zero digest on the data of the nodes. -/
structure CollisionFree (known : Node → Prop) : Prop where
  injective : Set.InjOn sum512 {data | ∃ n, known n ∧ n.data = data}
  proper : ∀ n, known n → sum512 n.data ≠ null

theorem CollisionFree.hashSound (free : CollisionFree known) : HashSound known :=
  ⟨fun {m n} knowsM knowsN same => Node.data_injective (free.injective ⟨m, knowsM, rfl⟩ ⟨n, knowsN, rfl⟩ same),
    fun {n} knows => free.proper n knows⟩

theorem HashSound.collisionFree (sound : HashSound known) : CollisionFree known := by
  refine ⟨?_, fun n knows => sound.proper knows⟩
  rintro _ ⟨m, knowsM, rfl⟩ _ ⟨n, knowsN, rfl⟩ same
  exact Node.data_congr (sound.same knowsM knowsN same)

variable {d d' : Disk} {ws ws' : MptWorldState} {T T' : Contents}

/-- World states with the same hash have the same contents. -/
theorem Holds.contents_eq (sound : HashSound fun n => Known d n ∨ Known d' n) (holds : Holds d ws T)
    (holds' : Holds d' ws' T') (same : ws.rootHash = ws'.rootHash) : T = T' := by
  have hashes : ws.rootNode.hash = ws'.rootNode.hash := by rw [← holds.hash, ← holds'.hash, same]
  have nodes := sound.same (Or.inl holds.known) (Or.inr holds'.known) hashes
  exact Rep.contents_eq sound (holds.rep.mono fun _ => Or.inl) (holds'.rep.mono fun _ => Or.inr) nodes

variable {s s' : TrieStore} {i j : Nat}

/-- **The root hash binds the world state.** Two world states with the same hash, on one database or on two,
answer every lookup alike, whatever operations were made on the databases. -/
theorem lookup_eq_of_rootHash_eq (reached : s.Reached) (reached' : s'.Reached) (state : s.states i = some ws)
    (state' : s'.states j = some ws') (free : CollisionFree fun n => Known s.db n ∨ Known s'.db n)
    (same : ws.rootHash = ws'.rootHash) (key : Bytes) : ws.lookup s.db key = ws'.lookup s'.db key := by
  have both := free.hashSound
  have sound : HashSound (Known s.db) := both.mono fun _ => Or.inl
  have sound' : HashSound (Known s'.db) := both.mono fun _ => Or.inr
  obtain ⟨T, holds⟩ := reached.sound.holds sound i ws state
  obtain ⟨T', holds'⟩ := reached'.sound.holds sound' j ws' state'
  have contents := holds.contents_eq both holds' same
  subst contents
  exact holds.lookup_eq reached.sound.log reached'.sound.log sound sound' holds' key

end Binding

/-! ## Worked stores -/

namespace Worked

/-- The state nodes that were stored, and the empty one. -/
def knownNodes (d : Disk) : List Node :=
  emptyNode :: d.log.filterMap fun
    | (.state _, some (.node n)) => some n
    | _ => none

theorem mem_knownNodes {d : Disk} {k : Byte64} {n : Node} (stored : (.state k, some (.node n)) ∈ d.log) :
    n ∈ knownNodes d :=
  List.mem_cons_of_mem _ (List.mem_filterMap.mpr ⟨_, stored, rfl⟩)

/-- SHA-512 behaves on nodes that are listed in a table of different digests. -/
theorem hashSound_of_table [Sha512] {known : Node → Prop} (table : List (Node × Byte64))
    (covers : ∀ n, known n → ∃ p ∈ table, n.Same p.1) (hashes : ∀ p ∈ table, p.1.hash = p.2 ∧ p.2 ≠ null)
    (distinct : ∀ p ∈ table, ∀ q ∈ table, p.2 = q.2 → p = q) : HashSound known := by
  refine ⟨fun {m n} knowsM knowsN same => ?_, fun {n} knows => ?_⟩
  · obtain ⟨p, member, sameM⟩ := covers m knowsM
    obtain ⟨q, member', sameN⟩ := covers n knowsN
    have digests : p.2 = q.2 := by
      rw [← (hashes p member).1, ← (hashes q member').1, ← Node.hash_congr sameM.1 sameM.2,
        ← Node.hash_congr sameN.1 sameN.2, same]
    rw [← distinct p member q member' digests] at sameN
    exact ⟨sameM.1.trans sameN.1.symm, sameM.2.trans sameN.2.symm⟩
  · obtain ⟨p, member, same⟩ := covers n knows
    rw [Node.hash_congr same.1 same.2, (hashes p member).1]
    exact (hashes p member).2

/-- A node with the given children. -/
def node (children : List (Fin 16 × Nat)) (value : Bytes) : Node :=
  ⟨fun k => ((children.lookup k).map digest).getD null, value, .unmarked⟩

/-- The nodes of the world states with `a = 1`, `b = 2` and both. -/
def nodeTable : List (Node × Byte64) := [
  (emptyNode, digest emptyDigest),
  (node [] [1], digest leafOneDigest),
  (node [(1, leafOneDigest)] [], digest pathDigest),
  (node [(6, pathDigest)] [], digest oneDigest),
  (node [] [2], digest leafTwoDigest),
  (node [(2, leafTwoDigest)] [], digest pathTwoDigest),
  (node [(6, pathTwoDigest)] [], digest twoDigest),
  (node [(1, leafOneDigest), (2, leafTwoDigest)] [], digest forkDigest),
  (node [(6, forkDigest)] [], digest bothDigest)]

end Worked

section Worked

attribute [local instance] workedSha512

theorem Worked.nodeTable_hashes : (∀ p ∈ Worked.nodeTable, p.1.hash = p.2 ∧ p.2 ≠ null) ∧
    ∀ p ∈ Worked.nodeTable, ∀ q ∈ Worked.nodeTable, p.2 = q.2 → p = q := by decide +kernel

/-- All nodes of the database are in the table. -/
def Worked.Covered (d : Disk) : Prop :=
  ∀ n ∈ Worked.knownNodes d, ∃ p ∈ Worked.nodeTable, n.idxs = p.1.idxs ∧ n.value = p.1.value

instance (d : Disk) : Decidable (Worked.Covered d) := inferInstanceAs (Decidable (∀ n ∈ Worked.knownNodes d, _))

theorem Worked.Covered.known {d : Disk} (covered : Worked.Covered d) (n : Node) (knows : Known d n) :
    ∃ p ∈ Worked.nodeTable, n.Same p.1 := by
  rcases knows with empty | stored
  · exact ⟨_, List.mem_cons_self, empty⟩
  · exact covered n (Worked.mem_knownNodes stored)

/-- A database whose nodes are all in the table. -/
theorem Worked.hashSound_of_covered {d : Disk} (covered : Worked.Covered d) : HashSound (Known d) :=
  Worked.hashSound_of_table Worked.nodeTable covered.known Worked.nodeTable_hashes.1 Worked.nodeTable_hashes.2

/-- Two such databases. -/
theorem Worked.hashSound_of_both {d d' : Disk} (covered : Worked.Covered d) (covered' : Worked.Covered d') :
    HashSound fun n => Known d n ∨ Known d' n :=
  Worked.hashSound_of_table Worked.nodeTable (fun n knows => knows.elim (covered.known n) (covered'.known n))
    Worked.nodeTable_hashes.1 Worked.nodeTable_hashes.2

/-- The store after operations on an empty database. -/
def Worked.store (calls : List TrieCall) : TrieStore := Transition.run TrieStore.next ⟨WriteLog.empty, fun _ => none⟩ calls

/-- Set `a`, then `b`. -/
def Worked.setBoth : List TrieCall := [.newMptWorldState 0, .update 0 [97] [1], .update 0 [98] [2]]

/-- Set `b`, then `a`, and clean up the root between them. -/
def Worked.setBothCleaned : List TrieCall :=
  [.newMptWorldState 0, .update 0 [98] [2], .update 0 [97] [1], .cleanup (digest twoDigest)]

theorem Worked.stores_run :
    Worked.Covered (Worked.store Worked.setBoth).db ∧ Worked.Covered (Worked.store Worked.setBothCleaned).db ∧
      ((Worked.store Worked.setBoth).states 0).map (·.rootHash) = some (digest bothDigest) ∧
      ((Worked.store Worked.setBothCleaned).states 0).map (·.rootHash) = some (digest bothDigest) := by decide +kernel

theorem lookup_eq_of_rootHash_eq_setBoth :
    ∃ ws ws', (Worked.store Worked.setBoth).states 0 = some ws ∧ (Worked.store Worked.setBothCleaned).states 0 = some ws' ∧
      ws.rootHash = ws'.rootHash ∧
      ∀ key, ws.lookup (Worked.store Worked.setBoth).db key = ws'.lookup (Worked.store Worked.setBothCleaned).db key := by
  obtain ⟨covered, covered', root, root'⟩ := Worked.stores_run
  obtain ⟨ws, state, hash⟩ := Option.map_eq_some_iff.mp root
  obtain ⟨ws', state', hash'⟩ := Option.map_eq_some_iff.mp root'
  have same : ws.rootHash = ws'.rootHash := hash.trans hash'.symm
  exact ⟨ws, ws', state, state', same, lookup_eq_of_rootHash_eq ⟨_, rfl⟩ ⟨_, rfl⟩ state state'
    (Worked.hashSound_of_both covered covered').collisionFree same⟩

end Worked

end TrustNet
