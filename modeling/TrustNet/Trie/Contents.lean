import TrustNet.Lib.PathMap
import TrustNet.Trie.Writes

/-!
# The contents of a trie

`Rep known n T`: the node `n`, with the nodes that its hashes name among those
in `known`, is the root of a trie with contents `T`. The nodes of a database are
those it was ever told to store (`Known`); `Cleanup` removes none of them but the
empty node, which the walks take a missing node for. So `Rep` does not change
when more is written, and the hash of a root is a function of its contents.

What is asked of SHA-512 is `HashSound`: no two of the nodes at hand that differ
have the same hash, and none has the null hash.
-/

namespace TrustNet
set_option autoImplicit false
open WriteLog (WritesOnly)

/-- The contents of a world state, by nibbles. -/
abbrev Contents := PathMap (Fin 16) Bytes

/-- The nodes agree in all that is hashed. -/
def Node.Same (m n : Node) : Prop := m.idxs = n.idxs ∧ m.value = n.value

/-! ## Keys and paths -/

theorem nibbles_injective {a b : UInt8}
    (high : Fin.ofNat 16 (a.toNat / 16) = Fin.ofNat 16 (b.toNat / 16))
    (low : Fin.ofNat 16 (a.toNat % 16) = Fin.ofNat 16 (b.toNat % 16)) : a = b := by
  have boundA := a.toNat_lt
  have boundB := b.toNat_lt
  simp only [Fin.ofNat, Fin.mk.injEq] at high low
  apply UInt8.toNat_inj.mp
  omega

theorem makeHex_injective {a b : Bytes} (same : makeHex a = makeHex b) : a = b := by
  induction a generalizing b with
  | nil => cases b with
    | nil => rfl
    | cons y b => cases same
  | cons x a ih => cases b with
    | nil => cases same
    | cons y b =>
      simp only [makeHex, List.flatMap_cons, List.cons_append, List.nil_append, List.cons.injEq] at same
      obtain ⟨high, low, rest⟩ := same
      rw [nibbles_injective high low, ih rest]

/-! ## Nodes and contents -/

variable [Sha512]

/-- The database was told to store the state node. -/
def InLog (d : Disk) (n : Node) : Prop := (.state n.hash, some (.node n)) ∈ d.log

/-- The nodes that a walk can meet. -/
def Known (d : Disk) (n : Node) : Prop := n.IsEmpty ∨ InLog d n

/-- SHA-512 behaves on the nodes at hand. -/
structure HashSound (known : Node → Prop) : Prop where
  same : ∀ {m n}, known m → known n → m.hash = n.hash → m.Same n
  proper : ∀ {n}, known n → n.hash ≠ null

/-- The node is the root of a trie with contents `T`. -/
inductive Rep (known : Node → Prop) : Node → Contents → Prop where
  | node (n : Node) (T : Contents) (child : Fin 16 → Node) (value : T [] = some n.value)
      (absent : ∀ k, T [k] = none → n.idxs k = null ∧ T.below k = PathMap.void)
      (present : ∀ k, T [k] ≠ none → n.idxs k = (child k).hash ∧ known (child k))
      (children : ∀ k, T [k] ≠ none → Rep known (child k) (T.below k)) : Rep known n T

variable {known known' : Node → Prop} {d d' : Disk} {n m : Node} {T U : Contents}

theorem HashSound.mono (sub : ∀ n, known n → known' n) (sound : HashSound known') : HashSound known :=
  ⟨fun m n => sound.same (sub _ m) (sub _ n), fun n => sound.proper (sub _ n)⟩

theorem InLog.mono (grow : d.log <:+ d'.log) (stored : InLog d n) : InLog d' n := grow.subset stored

theorem Known.mono (grow : d.log <:+ d'.log) (n : Node) (h : Known d n) : Known d' n := h.imp_right (InLog.mono grow)

theorem HashSound.of_suffix (grow : d.log <:+ d'.log) (sound : HashSound (Known d')) : HashSound (Known d) :=
  sound.mono (Known.mono grow)

/-! ## What a representation depends on -/

theorem Rep.mono (sub : ∀ n, known n → known' n) (rep : Rep known n T) : Rep known' n T := by
  induction rep with
  | node n T child value absent present _ ih =>
    exact .node n T child value absent (fun k some' => ⟨(present k some').1, sub _ (present k some').2⟩) ih

theorem Rep.of_suffix (grow : d.log <:+ d'.log) (rep : Rep (Known d) n T) : Rep (Known d') n T :=
  rep.mono (Known.mono grow)

/-- The tombstone does not matter. -/
theorem Rep.congr (rep : Rep known n T) (same : m.Same n) : Rep known m T := by
  cases rep with
  | node n T child value absent present children =>
    refine .node m T child (by rw [same.2]; exact value) (fun k => ?_) (fun k => ?_) children
    · rw [same.1]
      exact absent k
    · rw [same.1]
      exact present k

theorem Rep.root (rep : Rep known n T) : T [] = some n.value := by
  cases rep with
  | node n T child value _ _ _ => exact value

theorem rep_empty (known : Node → Prop) {n : Node} (empty : n.IsEmpty) : Rep known n (PathMap.single []) := by
  refine .node n _ (fun _ => emptyNode) (by rw [empty.2]; rfl) (fun k _ => ⟨by rw [empty.1], rfl⟩) ?_ ?_
  · exact fun k some' => absurd rfl some'
  · exact fun k some' => absurd rfl some'

/-- A node has the nodes on the way to it. -/
theorem Rep.closed (rep : Rep known n T) : T.Closed := by
  intro path p way present
  induction p generalizing path n T with
  | nil =>
    rw [rep.root]
    simp
  | cons k p ih =>
    obtain ⟨rest, rfl⟩ := way
    cases rep with
    | node n T child value absent _ children =>
      by_cases none' : T [k] = none
      · exact absurd (congrFun (absent k none').2 (p ++ rest)) present
      · exact ih (children k none') (p ++ rest) (List.prefix_append p rest) present

/-- **The hash of a root is a function of its contents.** -/
theorem Rep.same (rep : Rep known n T) (rep' : Rep known' m T) : n.Same m := by
  induction rep generalizing m with
  | node n T child value absent present children ih =>
    cases rep' with
    | node m T child' value' absent' present' children' =>
      refine ⟨funext fun k => ?_, Option.some.inj (value.symm.trans value')⟩
      cases found : T [k] with
      | none => rw [(absent k found).1, (absent' k found).1]
      | some v =>
        have some' : T [k] ≠ none := by rw [found]; simp
        obtain ⟨idxs, value⟩ := ih k some' (children' k some')
        rw [(present k some').1, (present' k some').1, Node.hash_congr idxs value]

/-- **The contents are a function of the hash**, for nodes on which SHA-512 has no collision. -/
theorem Rep.contents_eq (sound : HashSound known) (rep : Rep known n T) (rep' : Rep known m U) (same : n.Same m) :
    T = U := by
  induction rep generalizing m U with
  | node n T child value absent present children ih =>
    cases rep' with
    | node m U child' value' absent' present' children' =>
      funext path
      cases path with
      | nil => rw [value, value', same.2]
      | cons k path =>
        by_cases none' : T [k] = none
        · obtain ⟨idx, below⟩ := absent k none'
          have noneU : U [k] = none := by
            by_contra some'
            obtain ⟨idx', knows⟩ := present' k some'
            rw [← same.1, idx] at idx'
            exact sound.proper knows idx'.symm
          have belowU := (absent' k noneU).2
          exact (congrFun below path).trans (congrFun belowU path).symm
        · obtain ⟨idx, knows⟩ := present k none'
          by_cases noneU : U [k] = none
          · have idx' := (absent' k noneU).1
            rw [← same.1, idx] at idx'
            exact absurd idx' (sound.proper knows)
          · obtain ⟨idx', knows'⟩ := present' k noneU
            have hash : (child k).hash = (child' k).hash := by rw [← idx, ← idx', same.1]
            exact congrFun (ih k none' (children' k noneU) (sound.same knows knows' hash)) path

/-- An empty node has no contents but its own value. -/
theorem Rep.of_isEmpty (sound : HashSound known) (rep : Rep known n T) (empty : n.IsEmpty) : T = PathMap.single [] := by
  cases rep with
  | node n T child value absent present children =>
    funext path
    cases path with
    | nil => rw [value, empty.2]; rfl
    | cons k path =>
      by_cases none' : T [k] = none
      · exact congrFun (absent k none').2 path
      · obtain ⟨idx, knows⟩ := present k none'
        rw [empty.1] at idx
        exact absurd idx.symm (sound.proper knows)

/-! ## Reading -/

theorem inLog_of_getState (log : TrieLog d) {h : Byte64} (found : getState d h = some n) : h = n.hash ∧ InLog d n := by
  have key := (log.state found).1
  refine ⟨key, ?_⟩
  have member := mem_of_getNode found
  rw [key] at member
  exact member

/-- A node that is not empty is never lost. -/
theorem getState_of_inLog (log : TrieLog d) (sound : HashSound (Known d)) (stored : InLog d n) (full : ¬ n.IsEmpty) :
    ∃ m, getState d n.hash = some m ∧ m.Same n := by
  have member := WriteLog.get_of_mem stored
  have write := log _ member rfl
  unfold getState getNode
  simp only [Disk.get_eq]
  generalize key : Key.state n.hash = k at member write ⊢
  generalize WriteLog.get d k = v at member write
  cases write with
  | node m mark =>
    have hash : m.hash = n.hash := (Key.state.inj key).symm
    exact ⟨m, rfl, sound.same (Or.inr member) (Or.inr stored) hash⟩
  | txRoot h m empty => cases key
  | dropTx h => cases key
  | dropRoot h hit => cases key
  | dropEmpty hit =>
    obtain ⟨idxs, value⟩ := sound.same (Or.inr stored) (Or.inl emptyNode_isEmpty) (Key.state.inj key)
    exact absurd ⟨idxs, value⟩ full

/-- The child that a walk reads; a missing child is an empty one. -/
theorem Rep.child (log : TrieLog d) (sound : HashSound (Known d)) (rep : Rep (Known d) n T) {k : Fin 16}
    (some' : T [k] ≠ none) :
    n.idxs k ≠ null ∧ ((∃ m, getState d (n.idxs k) = some m ∧ Rep (Known d) m (T.below k)) ∨
      (getState d (n.idxs k) = none ∧ T.below k = PathMap.single [])) := by
  cases rep with
  | node n T child value absent present children =>
    obtain ⟨idx, knows⟩ := present k some'
    rw [idx]
    refine ⟨sound.proper knows, ?_⟩
    cases found : getState d (child k).hash with
    | some m =>
      obtain ⟨key, stored⟩ := inLog_of_getState log found
      exact Or.inl ⟨m, rfl, (children k some').congr (sound.same (Or.inr stored) knows key.symm)⟩
    | none =>
      refine Or.inr ⟨rfl, (children k some').of_isEmpty sound ?_⟩
      by_contra full
      obtain ⟨m, found', -⟩ := getState_of_inLog log sound (knows.resolve_left full) full
      rw [found] at found'
      cases found'

theorem Rep.noChild (rep : Rep known n T) {k : Fin 16} (none' : T [k] = none) :
    n.idxs k = null ∧ T.below k = PathMap.void := by
  cases rep with
  | node n T child value absent present children => exact absent k none'

/-- `Lookup` reads the contents. -/
theorem lookupDepthFirst_rep (log : TrieLog d) (sound : HashSound (Known d)) (path : List (Fin 16))
    (rep : Rep (Known d) n T) : lookupDepthFirst getState d n path = (T path).getD [] := by
  induction path generalizing n T with
  | nil =>
    rw [rep.root]
    rfl
  | cons k path ih =>
    unfold lookupDepthFirst
    change _ = (T.below k path).getD []
    by_cases none' : T [k] = none
    · obtain ⟨idx, void⟩ := rep.noChild none'
      rw [if_neg (not_not.mpr idx), void]
      rfl
    · obtain ⟨idx, ⟨m, found, below⟩ | ⟨missing, blank⟩⟩ := rep.child log sound none'
      · rw [if_pos idx, found]
        exact ih below
      · rw [if_pos idx, missing, blank]
        cases path with
        | nil => rfl
        | cons k path => rfl

/-! ## Writing -/

/-- A node with a new child. -/
theorem Rep.withChild {c : Node} {k : Fin 16} {T' : Contents} (rep : Rep known n T) (childRep : Rep known c U)
    (knows : known c) (root : T' [] = T []) (here : T'.below k = U) (there : ∀ k', k' ≠ k → T'.below k' = T.below k') :
    Rep known (n.withChild k c.hash) T' := by
  cases rep with
  | node n T child value absent present children =>
    have other : ∀ {k'}, k' ≠ k → T' [k'] = T [k'] := fun ne => congrFun (there _ ne) []
    have here' : T' [k] ≠ none := by
      change T'.below k [] ≠ none
      rw [here, childRep.root]
      simp
    refine .node _ T' (Function.update child k c) (root.trans value) (fun k' none' => ?_) (fun k' some' => ?_)
      (fun k' some' => ?_)
    · have ne : k' ≠ k := by
        rintro rfl
        exact here' none'
      rw [other ne] at none'
      rw [there k' ne]
      simpa [Node.withChild, ne] using absent k' none'
    · by_cases eq : k' = k
      · subst eq
        simpa [Node.withChild] using knows
      · rw [other eq] at some'
        simpa [Node.withChild, eq] using present k' some'
    · by_cases eq : k' = k
      · subst eq
        rw [Function.update_self, here]
        exact childRep
      · rw [other eq] at some'
        rw [Function.update_of_ne eq, there k' eq]
        exact children k' some'

/-- What a walk that made a new root has left. -/
structure Walked (d : Disk) (T : Contents) (d' : Disk) (n : Node) (h : Byte64) : Prop where
  rep : Rep (Known d') n T
  hash : h = n.hash
  stored : InLog d' n
  nodes : ∀ c, InLog d' c → InLog d c ∨ ∃ U, Rep (Known d') c U

theorem inLog_write (d : Disk) (n : Node) : InLog (d.write (.state n.hash) (some (.node n))) n := List.mem_cons_self

/-- The last step of a walk: the node is stored under its hash. -/
theorem walked_write {d₁ : Disk} (rep : Rep (Known (d₁.write (.state n.hash) (some (.node n)))) n T)
    (nodes : ∀ c, InLog d₁ c → InLog d c ∨ ∃ U, Rep (Known d₁) c U) :
    Walked d T (d₁.write (.state n.hash) (some (.node n))) n n.hash := by
  refine ⟨rep, rfl, inLog_write d₁ n, fun c stored => ?_⟩
  rcases List.mem_cons.mp stored with new | old
  · simp only [Prod.mk.injEq, Option.some.injEq, Value.node.injEq] at new
    rw [new.2]
    exact Or.inr ⟨T, rep⟩
  · exact (nodes c old).imp_right fun ⟨U, repU⟩ => ⟨U, repU.of_suffix (List.suffix_cons _ _)⟩

/-- A leaf of a walk: the value changes, the children stay. -/
theorem Rep.withValue {T' : Contents} {value : Bytes} (rep : Rep known n T) (root : T' [] = some value)
    (below : ∀ k, T'.below k = T.below k) : Rep known { tombStone n with value } T' := by
  cases rep with
  | node n T child _ absent present children =>
    have same : ∀ k, T' [k] = T [k] := fun k => congrFun (below k) []
    refine .node _ T' child root (fun k => ?_) (fun k => ?_) (fun k => ?_)
    · rw [same, below]
      exact absent k
    · rw [same]
      exact present k
    · rw [same, below]
      exact children k

/-- The child that `Update` walks on with. -/
theorem Rep.childNode (log : TrieLog d) (sound : HashSound (Known d)) (rep : Rep (Known d) n T) (k : Fin 16) :
    ∃ U, Rep (Known d) (childNode d n k) U ∧
      ∀ path value, U.set [] path value = (T.below k).set [] path value := by
  unfold TrustNet.childNode
  by_cases none' : T [k] = none
  · obtain ⟨idx, void⟩ := rep.noChild none'
    rw [if_neg (not_not.mpr idx), void]
    exact ⟨_, rep_empty _ emptyNode_isEmpty, fun path value => PathMap.set_single⟩
  · obtain ⟨idx, ⟨m, found, below⟩ | ⟨missing, blank⟩⟩ := rep.child log sound none'
    · rw [if_pos idx, found]
      exact ⟨_, below, fun path value => rfl⟩
    · rw [if_pos idx, missing, blank]
      exact ⟨_, rep_empty _ emptyNode_isEmpty, fun path value => rfl⟩

/-- **`Update` sets a path.** -/
theorem updateDepthFirst_rep (path : List (Fin 16)) (value : Bytes) (log : TrieLog d) (rep : Rep (Known d) n T)
    (sound : HashSound (Known (updateDepthFirst putState getState d n path value).1)) :
    Walked d (T.set [] path value) (updateDepthFirst putState getState d n path value).1
      (updateDepthFirst putState getState d n path value).2.1
      (updateDepthFirst putState getState d n path value).2.2 := by
  induction path generalizing d n T with
  | nil =>
    have leaf : Rep (Known d) { tombStone n with value } (T.set [] [] value) := by
      refine rep.withValue (by simp [PathMap.set]) fun k => ?_
      rw [PathMap.set_nil]
      rfl
    exact walked_write (leaf.of_suffix (List.suffix_cons _ _)) fun c stored => Or.inl stored
  | cons k path ih =>
    have steps : TrieSteps (fun _ => False) d (updateDepthFirst putState getState d n (k :: path) value).1 :=
      updateDepthFirst_steps _ _ _ _
    obtain ⟨U, childRep, set⟩ := rep.childNode log (sound.of_suffix steps.suffix) k
    have inner : TrieSteps (fun _ => False) d (updateDepthFirst putState getState d (childNode d n k) path value).1 :=
      updateDepthFirst_steps _ _ _ _
    have walked := ih log childRep
    rw [updateDepthFirst_cons] at sound ⊢
    generalize updateDepthFirst putState getState d (childNode d n k) path value = walk at walked inner sound ⊢
    obtain ⟨d₁, c, childHash⟩ := walk
    simp only at walked inner sound ⊢
    have sound₁ : HashSound (Known d₁) := by
      refine sound.of_suffix ?_
      split
      · exact List.suffix_refl _
      · exact List.suffix_cons _ _
    obtain ⟨rep₁, rfl, stored, nodes⟩ := walked sound₁
    rw [if_neg (sound₁.proper (Or.inr stored))]
    have new : Rep (Known d₁) (n.withChild k c.hash) (T.set [] (k :: path) value) := by
      refine (rep.of_suffix inner.suffix).withChild rep₁ (Or.inr stored) ?_ ?_ fun k' ne => PathMap.below_set_of_ne ne
      · rw [PathMap.set_cons_nil, rep.root]
        rfl
      · rw [PathMap.below_set, set]
    exact walked_write (new.of_suffix (List.suffix_cons _ _)) nodes

theorem deleteDepthFirst_child {k : Fin 16} (path : List (Fin 16)) (idx : n.idxs k ≠ null)
    (found : getState d (n.idxs k) = some m) :
    deleteDepthFirst putState getState d n (k :: path) =
      match deleteDepthFirst putState getState d m path with
      | (d', _, childHash) =>
        if childHash = null then (d', n, null)
        else (d'.write (.state (n.withChild k childHash).hash) (some (.node (n.withChild k childHash))),
          n.withChild k childHash, (n.withChild k childHash).hash) := by
  rw [deleteDepthFirst_cons, if_pos idx, found]

/-- **`Delete` clears a path**, or finds nothing to clear and changes nothing. -/
theorem deleteDepthFirst_rep (path : List (Fin 16)) (log : TrieLog d) (rep : Rep (Known d) n T)
    (sound : HashSound (Known (deleteDepthFirst putState getState d n path).1)) :
    (deleteDepthFirst putState getState d n path = (d, n, null) ∧ T.clear [] path = T) ∨
      Walked d (T.clear [] path) (deleteDepthFirst putState getState d n path).1
        (deleteDepthFirst putState getState d n path).2.1 (deleteDepthFirst putState getState d n path).2.2 := by
  induction path generalizing d n T with
  | nil =>
    right
    have leaf : Rep (Known d) { tombStone n with value := [] } (T.clear [] []) := by
      refine rep.withValue (by simp [PathMap.clear, rep.root]) fun k => ?_
      funext p
      simp [PathMap.below, PathMap.clear]
    exact walked_write (leaf.of_suffix (List.suffix_cons _ _)) fun c stored => Or.inl stored
  | cons k path ih =>
    have steps : TrieSteps (fun _ => False) d (deleteDepthFirst putState getState d n (k :: path)).1 :=
      deleteDepthFirst_steps _ _ _
    by_cases none' : T [k] = none
    · obtain ⟨idx, void⟩ := rep.noChild none'
      rw [deleteDepthFirst_cons, if_neg (not_not.mpr idx)]
      refine Or.inl ⟨rfl, PathMap.clear_of_blank fun v found => ?_⟩
      have nothing : T (k :: path) = none := congrFun void path
      rw [nothing] at found
      cases found
    · obtain ⟨idx, ⟨m, found, childRep⟩ | ⟨missing, blank⟩⟩ := rep.child log (sound.of_suffix steps.suffix) none'
      · rw [deleteDepthFirst_child path idx found] at sound ⊢
        have inner : TrieSteps (fun _ => False) d (deleteDepthFirst putState getState d m path).1 :=
          deleteDepthFirst_steps _ _ _
        have walked := ih log childRep
        generalize deleteDepthFirst putState getState d m path = walk at walked inner sound ⊢
        obtain ⟨d₁, c, childHash⟩ := walk
        simp only at walked inner sound ⊢
        have sound₁ : HashSound (Known d₁) := by
          refine sound.of_suffix ?_
          split
          · exact List.suffix_refl _
          · exact List.suffix_cons _ _
        rcases walked sound₁ with ⟨eq, same⟩ | ⟨rep₁, rfl, stored, nodes⟩
        · cases eq
          rw [if_pos rfl]
          exact Or.inl ⟨rfl, PathMap.clear_cons_of_below same⟩
        · rw [if_neg (sound₁.proper (Or.inr stored))]
          right
          have new : Rep (Known d₁) (n.withChild k c.hash) (T.clear [] (k :: path)) :=
            (rep.of_suffix inner.suffix).withChild rep₁ (Or.inr stored) PathMap.clear_cons_nil PathMap.below_clear
              fun k' ne => PathMap.below_clear_of_ne ne
          exact walked_write (new.of_suffix (List.suffix_cons _ _)) nodes
      · rw [deleteDepthFirst_cons, if_pos idx, missing]
        refine Or.inl ⟨rfl, PathMap.clear_of_blank fun v found => ?_⟩
        have value : PathMap.single [] path = some v := (congrFun blank path).symm.trans found
        cases path with
        | nil => exact (Option.some.inj value).symm
        | cons k path => cases value

end TrustNet
