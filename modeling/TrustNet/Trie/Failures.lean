import TrustNet.Trie.RootChange

/-!
# Writes that fail

`Update` and `Delete` change the root node in memory before they store it, and move the
root hash only after the transaction record of the new root is stored. A `Put` that fails
below the root stops the walk before the root node is touched. A failed `Put` of the root
node, or of the record, leaves a world state whose root node has the new contents under
the old root hash.

A call is compared with the same call on a database whose writes succeed. Over a key of
`L` nibbles its puts are, in this order, `L` nodes below the root, the root node (number
`L`), the mark on the record of the old root and the record of the new root (number
`L + 2`). The result of the mark is not looked at.
-/

namespace TrustNet
set_option autoImplicit false
open WriteLog (WritesOnly)

/-- A database in a call: the `n`-th `Put` of the call fails if `fails n`, and then stores nothing. -/
structure FailingDisk where
  disk : Disk
  puts : Nat
  fails : Nat → Bool

instance : Database FailingDisk where
  put f k v :=
    if f.fails f.puts then ({ f with puts := f.puts + 1 }, some "put failed")
    else ({ f with disk := f.disk.write k (some v), puts := f.puts + 1 }, none)
  get f k := f.disk.get k
  delete f k := ({ f with disk := f.disk.write k none }, none)
  calls f := f.disk.log.length

section Walks

variable [Sha512] {d : Disk} {n m : Node} {T T' : Contents} {fails : Nat → Bool} {start : Nat}

omit [Sha512] in
theorem putState_fails (f : FailingDisk) (h : Byte64) (n : Node) (failed : f.fails f.puts = true) :
    putState f h n = ({ f with puts := f.puts + 1 }, some "put failed") := by
  simp only [putState, putNode, Database.put, failed, if_true]

omit [Sha512] in
theorem putState_ok (f : FailingDisk) (h : Byte64) (n : Node) (ok : f.fails f.puts = false) :
    putState f h n = ({ f with disk := f.disk.write (.state h) (some (.node n)), puts := f.puts + 1 }, none) := by
  simp only [putState, putNode, Database.put, ok, Bool.false_eq_true, if_false]

omit [Sha512] in
theorem getState_failing (f : FailingDisk) (h : Byte64) : getState f h = getState f.disk h := rfl

/-- What a walk has written, whether it was cut off or not: nodes that are roots of tries. -/
structure Leaves (d disk : Disk) : Prop where
  steps : TrieSteps (fun _ => False) d disk
  nodes : ∀ c, InLog disk c → InLog d c ∨ ∃ U, Rep (Known disk) c U

/-- A walk whose puts may fail, next to the result `ideal` of the walk whose puts succeed: it is the same, or it was
cut off below the root and has left the root node as it was, or the root node was changed and not stored. -/
inductive Cut (d : Disk) (n : Node) (T' : Contents) (ideal : Disk × Node × Byte64) (fails : Nat → Bool) (start L : Nat) :
    FailingDisk × Node × Byte64 → Prop where
  | whole (ok : ∀ j ≤ L, fails (start + j) = false) (walked : Walked d T' ideal.1 ideal.2.1 ideal.2.2)
      (mark : ideal.2.1.tombstone = .unmarked) :
    Cut d n T' ideal fails start L (⟨ideal.1, start + L + 1, fails⟩, ideal.2)
  | below {disk : Disk} {puts j : Nat} (small : j < L) (failed : fails (start + j) = true)
      (leaves : Leaves d disk) : Cut d n T' ideal fails start L (⟨disk, puts, fails⟩, n, null)
  | root {disk : Disk} {puts : Nat} (ok : ∀ j < L, fails (start + j) = false) (failed : fails (start + L) = true)
      (leaves : Leaves d disk) (rep : Rep (Known disk) ideal.2.1 T') (mark : ideal.2.1.tombstone = .unmarked) :
    Cut d n T' ideal fails start L (⟨disk, puts, fails⟩, ideal.2.1, null)

/-- The last step of a walk: the changed node is stored. -/
def storeNode (f : FailingDisk) (n : Node) : FailingDisk × Node × Byte64 :=
  match putState f n.hash n with
  | (f, some _) => (f, n, null)
  | (f, none) => (f, n, n.hash)

theorem Cut.store {n' : Node} {disk₁ : Disk} {L : Nat} (ok : ∀ j < L, fails (start + j) = false)
    (leaves : Leaves d disk₁) (rep : Rep (Known disk₁) n' T') (mark : n'.tombstone = .unmarked) :
    Cut d n T' (disk₁.write (.state n'.hash) (some (.node n')), n', n'.hash) fails start L
      (storeNode ⟨disk₁, start + L, fails⟩ n') := by
  unfold storeNode
  cases last : fails (start + L) with
  | true =>
    rw [putState_fails _ _ _ last]
    exact .root ok last leaves rep mark
  | false =>
    rw [putState_ok _ _ _ last]
    refine .whole (fun j small => ?_) (walked_write (rep.of_suffix (List.suffix_cons _ _)) leaves.nodes) mark
    rcases Nat.lt_or_eq_of_le small with less | rfl
    · exact ok j less
    · exact last

/-- The last steps of a walk above a child. -/
def storeChild (walk : FailingDisk × Node × Byte64) (n : Node) (k : Fin 16) : FailingDisk × Node × Byte64 :=
  if walk.2.2 = null then (walk.1, n, null) else storeNode walk.1 (n.withChild k walk.2.2)

theorem storeNode_steps (f : FailingDisk) (n : Node) (mark : n.tombstone = .unmarked) :
    TrieSteps (fun _ => False) f.disk (storeNode f n).1.disk := by
  unfold storeNode
  cases last : f.fails f.puts with
  | true =>
    rw [putState_fails _ _ _ last]
    exact WritesOnly.refl _
  | false =>
    rw [putState_ok _ _ _ last]
    exact putState_steps _ n mark

theorem storeChild_steps (walk : FailingDisk × Node × Byte64) (n : Node) (k : Fin 16) :
    TrieSteps (fun _ => False) walk.1.disk (storeChild walk n k).1.disk := by
  unfold storeChild
  split
  · exact WritesOnly.refl _
  · exact storeNode_steps _ _ rfl

theorem updateDepthFirst_failing_nil (f : FailingDisk) (n : Node) (value : Bytes) :
    updateDepthFirst putState getState f n [] value = storeNode f { tombStone n with value } := by
  cases last : f.fails f.puts with
  | true => simp only [updateDepthFirst, storeNode, putState_fails f _ _ last]
  | false => simp only [updateDepthFirst, storeNode, putState_ok f _ _ last]

theorem updateDepthFirst_failing (f : FailingDisk) (n : Node) (k : Fin 16) (path : List (Fin 16)) (value : Bytes) :
    updateDepthFirst putState getState f n (k :: path) value =
      storeChild (updateDepthFirst putState getState f (childNode f.disk n k) path value) n k := by
  have child : (if n.idxs k ≠ null then getState f (n.idxs k) else none).getD emptyNode = childNode f.disk n k := rfl
  simp only [updateDepthFirst, child]
  generalize updateDepthFirst putState getState f (childNode f.disk n k) path value = walk
  unfold storeChild
  split
  · rfl
  · cases last : walk.1.fails walk.1.puts with
    | true =>
      simp only [storeNode, putState_fails walk.1 _ _ last]
      rfl
    | false =>
      simp only [storeNode, putState_ok walk.1 _ _ last]
      rfl

theorem updateDepthFirst_failing_steps (path : List (Fin 16)) (value : Bytes) (f : FailingDisk) (n : Node) :
    TrieSteps (fun _ => False) f.disk (updateDepthFirst putState getState f n path value).1.disk := by
  induction path generalizing n with
  | nil =>
    rw [updateDepthFirst_failing_nil]
    exact storeNode_steps f _ rfl
  | cons k path ih =>
    rw [updateDepthFirst_failing]
    exact (ih _).trans (storeChild_steps _ n k)

/-- The walk above a child that was cut off, or was not. -/
theorem Cut.up {c : Node} {k : Fin 16} {U : Contents} {ideal₁ : Disk × Node × Byte64} {L : Nat}
    {walk : FailingDisk × Node × Byte64} (rep : Rep (Known d) n T) (cut : Cut d c U ideal₁ fails start L walk)
    (steps : TrieSteps (fun _ => False) d ideal₁.1) (sound : HashSound (Known walk.1.disk))
    (root : T' [] = T []) (here : T'.below k = U) (there : ∀ k', k' ≠ k → T'.below k' = T.below k') :
    Cut d n T' (if ideal₁.2.2 = null then (ideal₁.1, n, null)
      else (ideal₁.1.write (.state (n.withChild k ideal₁.2.2).hash) (some (.node (n.withChild k ideal₁.2.2))),
        n.withChild k ideal₁.2.2, (n.withChild k ideal₁.2.2).hash)) fails start (L + 1) (storeChild walk n k) := by
  cases cut with
  | whole ok walked _ =>
    obtain ⟨d₁, c', h⟩ := ideal₁
    obtain ⟨rep₁, hash, stored, nodes⟩ := walked
    dsimp only at rep₁ hash stored nodes sound steps ⊢
    subst hash
    have proper := sound.proper (Or.inr stored)
    have new : Rep (Known d₁) (n.withChild k c'.hash) T' :=
      (rep.of_suffix steps.suffix).withChild rep₁ (Or.inr stored) root here there
    unfold storeChild
    rw [if_neg proper, if_neg proper]
    exact Cut.store (fun j small => ok j (Nat.lt_succ_iff.mp small)) ⟨steps, nodes⟩ new rfl
  | below small failed leaves =>
    unfold storeChild
    rw [if_pos rfl]
    exact .below (Nat.lt_succ_of_lt small) failed leaves
  | root ok failed leaves _ _ =>
    unfold storeChild
    rw [if_pos rfl]
    exact .below (Nat.lt_succ_self L) failed leaves

/-- `Update` over puts that may fail. -/
theorem updateDepthFirst_cut (path : List (Fin 16)) (value : Bytes) (log : TrieLog d) (rep : Rep (Known d) n T)
    (sound : HashSound (Known (updateDepthFirst putState getState (⟨d, start, fails⟩ : FailingDisk) n path value).1.disk)) :
    Cut d n (T.set [] path value) (updateDepthFirst putState getState d n path value) fails start path.length
      (updateDepthFirst putState getState (⟨d, start, fails⟩ : FailingDisk) n path value) := by
  induction path generalizing n T with
  | nil =>
    have leaf : Rep (Known d) { tombStone n with value } (T.set [] [] value) := by
      refine rep.withValue (by simp [PathMap.set]) fun k => ?_
      rw [PathMap.set_nil]
      rfl
    rw [updateDepthFirst_failing_nil]
    exact Cut.store (fun j none' => absurd none' (Nat.not_lt_zero j)) ⟨WritesOnly.refl d, fun c stored => Or.inl stored⟩ leaf rfl
  | cons k path ih =>
    rw [updateDepthFirst_failing] at sound ⊢
    have sound₁ := sound.of_suffix (storeChild_steps _ n k).suffix
    have steps : TrieSteps (fun _ => False) d (updateDepthFirst putState getState d (childNode d n k) path value).1 :=
      updateDepthFirst_steps _ _ _ _
    have sound₀ : HashSound (Known d) := sound₁.of_suffix (updateDepthFirst_failing_steps path value ⟨d, start, fails⟩ _).suffix
    obtain ⟨U, childRep, set⟩ := rep.childNode log sound₀ k
    refine Cut.up rep (ih childRep sound₁) steps sound₁ ?_ ?_ fun k' ne => PathMap.below_set_of_ne ne
    · rw [PathMap.set_cons_nil, rep.root]
      rfl
    · rw [PathMap.below_set, set]

theorem deleteDepthFirst_failing_nil (f : FailingDisk) (n : Node) :
    deleteDepthFirst putState getState f n [] = storeNode f { tombStone n with value := [] } := by
  cases last : f.fails f.puts with
  | true => simp only [deleteDepthFirst, storeNode, putState_fails f _ _ last]
  | false => simp only [deleteDepthFirst, storeNode, putState_ok f _ _ last]

theorem deleteDepthFirst_failing (f : FailingDisk) (n : Node) (k : Fin 16) (path : List (Fin 16)) :
    deleteDepthFirst putState getState f n (k :: path) =
      if n.idxs k ≠ null then
        match getState f.disk (n.idxs k) with
        | none => (f, n, null)
        | some child => storeChild (deleteDepthFirst putState getState f child path) n k
      else (f, n, null) := by
  simp only [deleteDepthFirst, getState_failing]
  split
  · cases getState f.disk (n.idxs k) with
    | none => rfl
    | some child =>
      simp only
      generalize deleteDepthFirst putState getState f child path = walk
      unfold storeChild
      split
      · rfl
      · cases last : walk.1.fails walk.1.puts with
        | true =>
          simp only [storeNode, putState_fails walk.1 _ _ last]
          rfl
        | false =>
          simp only [storeNode, putState_ok walk.1 _ _ last]
          rfl
  · rfl

theorem deleteDepthFirst_failing_steps (path : List (Fin 16)) (f : FailingDisk) (n : Node) :
    TrieSteps (fun _ => False) f.disk (deleteDepthFirst putState getState f n path).1.disk := by
  induction path generalizing n with
  | nil =>
    rw [deleteDepthFirst_failing_nil]
    exact storeNode_steps f _ rfl
  | cons k path ih =>
    rw [deleteDepthFirst_failing]
    split
    · split
      · exact WritesOnly.refl _
      · exact (ih _).trans (storeChild_steps _ n k)
    · exact WritesOnly.refl _

/-- `Delete` over puts that may fail. A missing path ends it without a `Put`. -/
theorem deleteDepthFirst_cut (path : List (Fin 16)) (log : TrieLog d) (rep : Rep (Known d) n T)
    (sound : HashSound (Known (deleteDepthFirst putState getState (⟨d, start, fails⟩ : FailingDisk) n path).1.disk)) :
    (deleteDepthFirst putState getState (⟨d, start, fails⟩ : FailingDisk) n path = (⟨d, start, fails⟩, n, null) ∧
      deleteDepthFirst putState getState d n path = (d, n, null) ∧ T.clear [] path = T) ∨
    Cut d n (T.clear [] path) (deleteDepthFirst putState getState d n path) fails start path.length
      (deleteDepthFirst putState getState (⟨d, start, fails⟩ : FailingDisk) n path) := by
  induction path generalizing n T with
  | nil =>
    right
    have leaf : Rep (Known d) { tombStone n with value := [] } (T.clear [] []) := by
      refine rep.withValue (by simp [PathMap.clear, rep.root]) fun k => ?_
      funext p
      simp [PathMap.below, PathMap.clear]
    rw [deleteDepthFirst_failing_nil]
    exact Cut.store (fun j none' => absurd none' (Nat.not_lt_zero j)) ⟨WritesOnly.refl d, fun c stored => Or.inl stored⟩ leaf rfl
  | cons k path ih =>
    have sound₀ : HashSound (Known d) := sound.of_suffix (deleteDepthFirst_failing_steps (k :: path) ⟨d, start, fails⟩ _).suffix
    by_cases none' : T [k] = none
    · obtain ⟨idx, void⟩ := rep.noChild none'
      rw [deleteDepthFirst_failing, deleteDepthFirst_cons, if_neg (not_not.mpr idx), if_neg (not_not.mpr idx)]
      refine Or.inl ⟨rfl, rfl, PathMap.clear_of_blank fun v found => ?_⟩
      have nothing : T (k :: path) = none := congrFun void path
      rw [nothing] at found
      cases found
    · obtain ⟨idx, ⟨m, found, childRep⟩ | ⟨missing, blank⟩⟩ := rep.child log sound₀ none'
      · rw [deleteDepthFirst_failing, if_pos idx, found] at sound ⊢
        rw [deleteDepthFirst_child path idx found]
        dsimp only at sound ⊢
        have sound₁ := sound.of_suffix (storeChild_steps _ n k).suffix
        have steps : TrieSteps (fun _ => False) d (deleteDepthFirst putState getState d m path).1 :=
          deleteDepthFirst_steps _ _ _
        rcases ih childRep sound₁ with ⟨faulty, ideal, same⟩ | cut
        · rw [faulty, ideal]
          exact Or.inl ⟨rfl, rfl, PathMap.clear_cons_of_below same⟩
        · exact Or.inr (Cut.up rep cut steps sound₁ PathMap.clear_cons_nil PathMap.below_clear
            fun k' ne => PathMap.below_clear_of_ne ne)
      · rw [deleteDepthFirst_failing, deleteDepthFirst_cons, if_pos idx, if_pos idx, missing]
        refine Or.inl ⟨rfl, rfl, PathMap.clear_of_blank fun v found => ?_⟩
        have value : PathMap.single [] path = some v := (congrFun blank path).symm.trans found
        cases path with
        | nil => exact (Option.some.inj value).symm
        | cons k path => cases value

end Walks

/-! ## A call -/

section Calls

variable [Sha512] {σ : Type} [Database σ]

/-- The walk of `Update`, or of `Delete` if there is no value. -/
def editDepthFirst (db : σ) (n : Node) (path : List (Fin 16)) : Option Bytes → σ × Node × Byte64
  | some value => updateDepthFirst putState getState db n path value
  | none => deleteDepthFirst putState getState db n path

/-- `Update`, or `Delete` if there is no value. -/
def MptWorldState.edit (t : MptWorldState) (db : σ) (key : Bytes) (value : Option Bytes) : σ × MptWorldState × Byte64 :=
  t.switchRoot (editDepthFirst db t.rootNode (makeHex key) value)

theorem edit_update (t : MptWorldState) (db : σ) (key value : Bytes) : t.edit db key (some value) = t.update db key value :=
  rfl

theorem edit_delete (t : MptWorldState) (db : σ) (key : Bytes) : t.edit db key none = t.delete db key := rfl

theorem editDepthFirst_steps (d : Disk) (n : Node) (path : List (Fin 16)) (value : Option Bytes) :
    TrieSteps (fun _ => False) d (editDepthFirst d n path value).1 := by
  cases value with
  | some value => exact updateDepthFirst_steps _ _ _ _
  | none => exact deleteDepthFirst_steps _ _ _

/-- Only records of roots are written. -/
abbrev RecordWrites (d d' : Disk) : Prop :=
  WritesOnly (fun w => ∃ (h : Byte64) (m : Node), m.IsEmpty ∧ w = (.txRoot h, some (.node m))) d d'

theorem RecordWrites.steps {d d' : Disk} (writes : RecordWrites d d') : TrieSteps (fun _ => False) d d' := by
  refine WritesOnly.mono ?_ writes
  rintro _ ⟨h, m, empty, rfl⟩
  exact .txRoot h m empty

omit [Sha512] in
/-- A record of a root is written, or is not. -/
theorem putNode_record (f : FailingDisk) (h : Byte64) {n : Node} (empty : n.IsEmpty) :
    ∃ disk, RecordWrites f.disk disk ∧
      putNode f (.txRoot h) n =
        (⟨disk, f.puts + 1, f.fails⟩, if f.fails f.puts = true then some "put failed" else none) := by
  cases last : f.fails f.puts with
  | true =>
    refine ⟨f.disk, WritesOnly.refl _, ?_⟩
    simp only [putNode, Database.put, last, if_true]
  | false =>
    refine ⟨f.disk.write (.txRoot h) (some (.node n)), WritesOnly.write ⟨h, n, empty, rfl⟩ _, ?_⟩
    simp only [putNode, Database.put, last, Bool.false_eq_true, if_false]

omit [Sha512] in
/-- The end of a call: the root hash moves if the record of the new root is stored. -/
theorem switchRoot_failing (t : MptWorldState) (f : FailingDisk) (n : Node) {h : Byte64} (proper : h ≠ null)
    (empty : t.txNode.IsEmpty) :
    ∃ disk tx, RecordWrites f.disk disk ∧ tx.IsEmpty ∧
      t.switchRoot (f, n, h) =
        if f.fails (f.puts + 1) = true then (⟨disk, f.puts + 2, f.fails⟩, ⟨t.rootHash, n, tx⟩, t.rootHash)
        else (⟨disk, f.puts + 2, f.fails⟩, ⟨h, n, tx⟩, h) := by
  obtain ⟨disk₁, first, eq₁⟩ := putNode_record f t.rootHash (n := { t.txNode with tombstone := .marked }) empty
  obtain ⟨disk₂, second, eq₂⟩ := putNode_record ⟨disk₁, f.puts + 1, f.fails⟩ h
    (n := { t.txNode with tombstone := .unmarked }) empty
  refine ⟨disk₂, { t.txNode with tombstone := .unmarked }, first.trans second, empty, ?_⟩
  unfold MptWorldState.switchRoot
  simp only [proper, ne_eq, not_false_eq_true, if_true, eq₁, eq₂]
  cases f.fails (f.puts + 1) <;> rfl

omit [Sha512] in
theorem switchRoot_cut (t : MptWorldState) (f : FailingDisk) (n : Node) :
    t.switchRoot (f, n, null) = (f, { t with rootNode := n }, t.rootHash) := by
  unfold MptWorldState.switchRoot
  simp only [ne_eq, not_true_eq_false, if_false]

/-- A walk that was not cut off is the walk whose puts succeed, and one that was has written less. -/
def Within (walk : FailingDisk × Node × Byte64) (ideal : Disk × Node × Byte64) : Prop :=
  (walk.1.disk = ideal.1 ∧ walk.2 = ideal.2) ∨ (walk.2.2 = null ∧ walk.1.disk.log <:+ ideal.1.log)

theorem storeNode_within (f : FailingDisk) (n : Node) :
    Within (storeNode f n) (f.disk.write (.state n.hash) (some (.node n)), n, n.hash) := by
  unfold storeNode
  cases last : f.fails f.puts with
  | true =>
    rw [putState_fails _ _ _ last]
    exact Or.inr ⟨rfl, List.suffix_cons _ _⟩
  | false =>
    rw [putState_ok _ _ _ last]
    exact Or.inl ⟨rfl, rfl⟩

theorem storeChild_within {walk : FailingDisk × Node × Byte64} {ideal : Disk × Node × Byte64} (within : Within walk ideal)
    (n : Node) (k : Fin 16) :
    Within (storeChild walk n k) (if ideal.2.2 = null then (ideal.1, n, null)
      else (ideal.1.write (.state (n.withChild k ideal.2.2).hash) (some (.node (n.withChild k ideal.2.2))),
        n.withChild k ideal.2.2, (n.withChild k ideal.2.2).hash)) := by
  unfold storeChild
  rcases within with ⟨disk, rest⟩ | ⟨cut, less⟩
  · rw [rest, ← disk]
    split
    · exact Or.inl ⟨rfl, rfl⟩
    · exact storeNode_within walk.1 _
  · rw [if_pos cut]
    refine Or.inr ⟨rfl, less.trans ?_⟩
    split
    · exact List.suffix_refl _
    · exact List.suffix_cons _ _

theorem editDepthFirst_within (f : FailingDisk) (n : Node) (path : List (Fin 16)) (value : Option Bytes) :
    Within (editDepthFirst f n path value) (editDepthFirst f.disk n path value) := by
  induction path generalizing n with
  | nil =>
    cases value with
    | some value =>
      simp only [editDepthFirst]
      rw [updateDepthFirst_failing_nil]
      exact storeNode_within f _
    | none =>
      simp only [editDepthFirst]
      rw [deleteDepthFirst_failing_nil]
      exact storeNode_within f _
  | cons k path ih =>
    cases value with
    | some value =>
      simp only [editDepthFirst] at ih ⊢
      rw [updateDepthFirst_failing]
      exact storeChild_within (ih _) n k
    | none =>
      simp only [editDepthFirst] at ih ⊢
      rw [deleteDepthFirst_failing, deleteDepthFirst_cons]
      split
      · cases getState f.disk (n.idxs k) with
        | none => exact Or.inl ⟨rfl, rfl⟩
        | some child => exact storeChild_within (ih child) n k
      · exact Or.inl ⟨rfl, rfl⟩

omit [Sha512] in
theorem Within.suffix {walk : FailingDisk × Node × Byte64} {ideal : Disk × Node × Byte64} (within : Within walk ideal) :
    walk.1.disk.log <:+ ideal.1.log := by
  rcases within with ⟨disk, -⟩ | ⟨-, less⟩
  · rw [disk]
  · exact less

end Calls

section Ends

variable [Sha512] {d disk ideal : Disk} {ws : MptWorldState} {T T' : Contents} {fails : Nat → Bool} {L : Nat}
  {walk : FailingDisk × Node × Byte64} {result : FailingDisk × MptWorldState × Byte64}

/-- Records of roots are no nodes. -/
theorem InLog.of_records {disk' : Disk} {c : Node} (writes : RecordWrites disk disk') (stored : InLog disk' c) :
    InLog disk c := by
  rcases writes.mem_cases stored with old | ⟨h, m, -, eq⟩
  · exact old
  · cases eq

theorem Leaves.records {disk' : Disk} (leaves : Leaves d disk) (writes : RecordWrites disk disk') : Leaves d disk' := by
  refine ⟨leaves.steps.trans writes.steps, fun c stored => ?_⟩
  · rcases leaves.nodes c (stored.of_records writes) with before | ⟨U, rep⟩
    · exact Or.inl before
    · exact Or.inr ⟨U, rep.of_suffix writes.suffix⟩

theorem Leaves.whole (leaves : Leaves d disk) (whole : Whole d) : Whole disk := by
  intro c stored
  rcases leaves.nodes c stored with old | new
  · obtain ⟨U, rep⟩ := whole c old
    exact ⟨U, rep.of_suffix leaves.steps.suffix⟩
  · exact new

/-- How a call ends: the world state is as it was, the root has moved, or the root node has the new contents under the
old root hash. -/
inductive Ended (d : Disk) (ws : MptWorldState) (T T' : Contents) (ideal : Disk × Node × Byte64) (fails : Nat → Bool)
    (L : Nat) : FailingDisk × MptWorldState × Byte64 → Prop where
  | kept {f : FailingDisk} {tx : Node} (why : (∃ j < L, fails j = true) ∨ T' = T) (leaves : Leaves d f.disk)
      (empty : tx.IsEmpty) : Ended d ws T T' ideal fails L (f, ⟨ws.rootHash, ws.rootNode, tx⟩, ws.rootHash)
  | moved {f : FailingDisk} {tx : Node} (ok : fails L = false ∧ fails (L + 2) = false) (leaves : Leaves d f.disk)
      (empty : tx.IsEmpty) (rep : Rep (Known f.disk) ideal.2.1 T') (stored : InLog f.disk ideal.2.1) :
    Ended d ws T T' ideal fails L (f, ⟨ideal.2.1.hash, ideal.2.1, tx⟩, ideal.2.1.hash)
  | torn {f : FailingDisk} {tx : Node} (ok : ∀ j < L, fails j = false) (failed : fails L = true ∨ fails (L + 2) = true)
      (leaves : Leaves d f.disk) (empty : tx.IsEmpty) (rep : Rep (Known f.disk) ideal.2.1 T')
      (mark : ideal.2.1.tombstone = .unmarked) :
    Ended d ws T T' ideal fails L (f, ⟨ws.rootHash, ideal.2.1, tx⟩, ws.rootHash)

theorem Cut.ended {ideal : Disk × Node × Byte64} (cut : Cut d ws.rootNode T' ideal fails 0 L walk)
    (steps : TrieSteps (fun _ => False) d ideal.1) (empty : ws.txNode.IsEmpty)
    (sound : HashSound (Known walk.1.disk)) : Ended d ws T T' ideal fails L (ws.switchRoot walk) := by
  cases cut with
  | whole ok walked mark =>
    have ok' : ∀ j ≤ L, fails j = false := fun j small => by simpa using ok j small
    have leaves : Leaves d ideal.1 := ⟨steps, walked.nodes⟩
    have proper : ideal.2.2 ≠ null := by
      rw [walked.hash]
      exact sound.proper (Or.inr walked.stored)
    obtain ⟨disk, tx, writes, txEmpty, eq⟩ := switchRoot_failing ws ⟨ideal.1, 0 + L + 1, fails⟩ ideal.2.1 proper empty
    have number : 0 + L + 1 + 1 = L + 2 := by omega
    rw [eq]
    dsimp only
    rw [number]
    have rep := walked.rep.of_suffix writes.suffix
    by_cases last : fails (L + 2) = true
    · rw [if_pos last]
      exact .torn (fun j small => ok' j (Nat.le_of_lt small)) (Or.inr last) (leaves.records writes) txEmpty rep mark
    · rw [if_neg last, walked.hash]
      exact .moved ⟨ok' L (Nat.le_refl L), Bool.eq_false_iff.mpr last⟩ (leaves.records writes) txEmpty rep (walked.stored.mono writes.suffix)
  | below small failed leaves =>
    rw [switchRoot_cut]
    rw [Nat.zero_add] at failed
    exact .kept (Or.inl ⟨_, small, failed⟩) leaves empty
  | root ok failed leaves rep mark =>
    rw [switchRoot_cut]
    rw [Nat.zero_add] at failed
    exact .torn (fun j small => by simpa using ok j small) (Or.inl failed) leaves empty rep mark

omit [Sha512] in
theorem length_makeHex (key : Bytes) : (makeHex key).length = 2 * key.length := by
  induction key with
  | nil => rfl
  | cons b key ih =>
    have step : makeHex (b :: key) = Fin.ofNat 16 (b.toNat / 16) :: Fin.ofNat 16 (b.toNat % 16) :: makeHex key := rfl
    rw [step, List.length_cons, List.length_cons, List.length_cons, ih]
    omega

omit [Sha512] in
theorem switchRoot_failing_records (t : MptWorldState) (walk : FailingDisk × Node × Byte64) (empty : t.txNode.IsEmpty) :
    RecordWrites walk.1.disk (t.switchRoot walk).1.disk ∧ (t.switchRoot walk).2.1.txNode.IsEmpty := by
  obtain ⟨f, n, h⟩ := walk
  by_cases cut : h = null
  · rw [cut, switchRoot_cut]
    exact ⟨WritesOnly.refl _, empty⟩
  · obtain ⟨disk, tx, writes, txEmpty, eq⟩ := switchRoot_failing t f n cut empty
    rw [eq]
    split
    · exact ⟨writes, txEmpty⟩
    · exact ⟨writes, txEmpty⟩

theorem edit_failing_steps (t : MptWorldState) (f : FailingDisk) (key : Bytes) (value : Option Bytes)
    (empty : t.txNode.IsEmpty) :
    TrieSteps (fun _ => False) f.disk (t.edit f key value).1.disk ∧ (t.edit f key value).2.1.txNode.IsEmpty := by
  obtain ⟨last, txEmpty⟩ := switchRoot_failing_records t (editDepthFirst f t.rootNode (makeHex key) value) empty
  refine ⟨WritesOnly.trans ?_ last.steps, txEmpty⟩
  cases value with
  | some value => exact updateDepthFirst_failing_steps _ _ _ _
  | none => exact deleteDepthFirst_failing_steps _ _ _

/-- **A call over puts that may fail.** -/
theorem edit_ended (log : TrieLog d) (rep : Rep (Known d) ws.rootNode T) (empty : ws.txNode.IsEmpty) (key : Bytes)
    (value : Option Bytes) (sound : HashSound (Known (ws.edit (⟨d, 0, fails⟩ : FailingDisk) key value).1.disk)) :
    Ended d ws T (T.edit [] (makeHex key, value)) (editDepthFirst d ws.rootNode (makeHex key) value) fails
      (2 * key.length) (ws.edit (⟨d, 0, fails⟩ : FailingDisk) key value) := by
  have steps := editDepthFirst_steps d ws.rootNode (makeHex key) value
  have sound₁ := sound.of_suffix (switchRoot_failing_records ws _ empty).1.suffix
  rw [← length_makeHex]
  cases value with
  | some value => exact (updateDepthFirst_cut (makeHex key) value log rep sound₁).ended steps empty sound₁
  | none =>
    rcases deleteDepthFirst_cut (makeHex key) log rep sound₁ with ⟨faulty, ideal, same⟩ | cut
    · unfold MptWorldState.edit editDepthFirst
      rw [faulty, ideal, switchRoot_cut]
      exact .kept (Or.inr same) ⟨WritesOnly.refl d, fun _ stored => Or.inl stored⟩ empty
    · exact cut.ended steps empty sound₁

/-! ## Consistency -/

/-- A call has left a consistent world state: the root node in memory hashes to the reported root, every `Lookup`
answers as the trie of that root does, and if the root is the old one, as before the call. -/
structure Consistent (d : Disk) (ws : MptWorldState) (result : FailingDisk × MptWorldState × Byte64) : Prop where
  root : result.2.1.rootNode.hash = result.2.1.rootHash
  reported : result.2.2 = result.2.1.rootHash
  answers : ∃ n T, Known result.1.disk n ∧ n.hash = result.2.2 ∧ Rep (Known result.1.disk) n T ∧
    ∀ key, result.2.1.lookup result.1.disk key = (versionOf T).answer key
  unmoved : result.2.2 = ws.rootHash → ∀ key, result.2.1.lookup result.1.disk key = ws.lookup d key

/-- The value of the node at the end of a path. A node that is not found counts as an empty one, as in `Update`. -/
def storedValue (d : Disk) (n : Node) : List (Fin 16) → Option Bytes
  | [] => some n.value
  | k :: path => if n.idxs k ≠ null then storedValue d ((getState d (n.idxs k)).getD emptyNode) path else none

/-- The trie already is what the call makes of it. -/
def Idle (d : Disk) (ws : MptWorldState) (key : Bytes) : Option Bytes → Prop
  | some value => storedValue d ws.rootNode (makeHex key) = some value
  | none => (storedValue d ws.rootNode (makeHex key)).getD [] = []

/-- The failures that leave a consistent world state: one below the root, none of the root node and of the record of
the new root, or any if the call has no effect. -/
def Survives (d : Disk) (ws : MptWorldState) (key : Bytes) (value : Option Bytes) (fails : Nat → Bool) : Prop :=
  (∃ j < 2 * key.length, fails j = true) ∨
    (fails (2 * key.length) = false ∧ fails (2 * key.length + 2) = false) ∨ Idle d ws key value

theorem storedValue_rep (log : TrieLog d) (sound : HashSound (Known d)) {n : Node} (path : List (Fin 16))
    (rep : Rep (Known d) n T) : storedValue d n path = T path := by
  induction path generalizing n T with
  | nil =>
    rw [rep.root]
    rfl
  | cons k path ih =>
    unfold storedValue
    change _ = T.below k path
    by_cases none' : T [k] = none
    · obtain ⟨idx, void⟩ := rep.noChild none'
      rw [if_neg (not_not.mpr idx), void]
      rfl
    · obtain ⟨idx, ⟨m, found, below⟩ | ⟨missing, blank⟩⟩ := rep.child log sound none'
      · rw [if_pos idx, found]
        exact ih below
      · rw [if_pos idx, missing, blank]
        exact ih (rep_empty _ emptyNode_isEmpty)

theorem idle_iff (log : TrieLog d) (sound : HashSound (Known d)) (rep : Rep (Known d) ws.rootNode T) (key : Bytes)
    (value : Option Bytes) : Idle d ws key value ↔ T.edit [] (makeHex key, value) = T := by
  cases value with
  | some value =>
    unfold Idle
    rw [storedValue_rep log sound _ rep]
    exact (PathMap.set_eq_iff rep.closed).symm
  | none =>
    unfold Idle
    rw [storedValue_rep log sound _ rep]
    exact PathMap.clear_eq_iff.symm

theorem TrieLog.mark {n : Node} (log : TrieLog d) (stored : InLog d n) : n.tombstone = .unmarked ∨ n.IsEmpty := by
  have write := log _ stored rfl
  generalize eq : ((Key.state n.hash, some (Value.node n)) : Key × Option Value) = w at write
  cases write with
  | node m mark =>
    simp only [Prod.mk.injEq, Option.some.injEq, Value.node.injEq] at eq
    rw [eq.2]
    exact mark
  | txRoot h m empty => cases eq
  | dropTx h => cases eq
  | dropRoot h hit => cases eq
  | dropEmpty hit => simp at eq

/-- A root node that was changed to what it was. -/
theorem known_of_same {n m : Node} (log : TrieLog d) (known : Known d n) (same : m.Same n) (mark : m.tombstone = .unmarked) :
    Known d m := by
  rcases known with empty | stored
  · exact Or.inl ⟨same.1.trans empty.1, same.2.trans empty.2⟩
  · rcases log.mark stored with unmarked | empty
    · have eq : m = n := by
        obtain ⟨idxs, value, tombstone⟩ := m
        obtain ⟨idxs', value', tombstone'⟩ := n
        obtain ⟨rfl, rfl⟩ := same
        simp only at mark unmarked
        rw [mark, unmarked]
      rw [eq]
      exact Or.inr stored
    · exact Or.inl ⟨same.1.trans empty.1, same.2.trans empty.2⟩

variable {ideal : Disk × Node × Byte64}

theorem Ended.leaves (ended : Ended d ws T T' ideal fails L result) : Leaves d result.1.disk := by
  cases ended with
  | kept _ leaves => exact leaves
  | moved _ leaves => exact leaves
  | torn _ _ leaves => exact leaves

theorem Ended.reported (ended : Ended d ws T T' ideal fails L result) : result.2.2 = result.2.1.rootHash := by
  cases ended <;> rfl

/-- After a failure that it survives, a world state has contents. -/
theorem Ended.holds (ended : Ended d ws T T' ideal fails L result) (log : TrieLog d) (holds : Holds d ws T)
    (survives : (∃ j < L, fails j = true) ∨ (fails L = false ∧ fails (L + 2) = false) ∨ T' = T) :
    ∃ U, Holds result.1.disk result.2.1 U := by
  have grows := ended.leaves.steps.suffix
  have log' : TrieLog result.1.disk := log.steps ended.leaves.steps
  have old := holds.of_suffix grows
  cases ended with
  | kept => exact ⟨T, old.rep, old.hash, old.known⟩
  | moved ok leaves empty rep stored => exact ⟨T', rep, rfl, Or.inr stored⟩
  | torn ok failed leaves empty rep mark =>
    rcases survives with ⟨j, small, cut⟩ | ⟨okRoot, okRecord⟩ | unchanged
    · rw [ok j small] at cut
      cases cut
    · rw [okRoot, okRecord] at failed
      simp at failed
    · subst unchanged
      have same := rep.same holds.rep
      exact ⟨T', rep, holds.hash.trans (Node.hash_congr same.1 same.2).symm, known_of_same log' old.known same mark⟩

theorem consistent_of_holds {U : Contents} (log : TrieLog d) (log' : TrieLog result.1.disk)
    (grows : d.log <:+ result.1.disk.log) (sound : HashSound (Known result.1.disk)) (holds : Holds d ws T)
    (reported : result.2.2 = result.2.1.rootHash) (after : Holds result.1.disk result.2.1 U) : Consistent d ws result where
  root := after.hash.symm
  reported := reported
  answers := ⟨result.2.1.rootNode, U, after.known, by rw [reported, after.hash], after.rep, after.lookup log' sound⟩
  unmoved same key := by
    rw [reported] at same
    rw [after.lookup log' sound, holds.lookup log (sound.of_suffix grows),
      (holds.rootHash_eq_iff grows sound after).mp same]

/-- **A call ends consistently exactly if** it was cut off below the root, or stored the root node and the record, or
had no effect. -/
theorem Ended.consistent_iff (ended : Ended d ws T T' ideal fails L result) (log : TrieLog d) (holds : Holds d ws T)
    (sound : HashSound (Known ideal.1)) (knows : ∀ c, Known result.1.disk c → Known ideal.1 c)
    (walked : T' = T ∨ Walked d T' ideal.1 ideal.2.1 ideal.2.2) :
    Consistent d ws result ↔ (∃ j < L, fails j = true) ∨ (fails L = false ∧ fails (L + 2) = false) ∨ T' = T := by
  have leaves := ended.leaves
  constructor
  · intro consistent
    cases ended with
    | kept why =>
      rcases why with cut | same
      · exact Or.inl cut
      · exact Or.inr (Or.inr same)
    | moved ok => exact Or.inr (Or.inl ok)
    | torn ok failed _ empty rep mark =>
      refine Or.inr (Or.inr ?_)
      rcases walked with same | walked
      · exact same
      -- the root node in memory has the old hash, so it has the old contents
      · have root := consistent.root
        dsimp only at root
        rw [holds.hash] at root
        have known : Known ideal.1 ws.rootNode := knows _ (holds.known.mono leaves.steps.suffix _)
        have old := (holds.rep.of_suffix leaves.steps.suffix).mono knows
        exact walked.rep.contents_eq sound old (sound.same (Or.inr walked.stored) known root)
  · intro survives
    obtain ⟨U, after⟩ := ended.holds log holds survives
    exact consistent_of_holds log (log.steps leaves.steps) leaves.steps.suffix (sound.mono knows) holds
      ended.reported after

end Ends

/-! ## Runs -/

section Runs

variable [Sha512] {s : TrieStore} {i : Nat} {ws : MptWorldState} {fails : Nat → Bool}

/-- `Update` or `Delete` by the world state `i`, over puts that may fail. -/
def TrieStore.editFailing (s : TrieStore) (i : Nat) (key : Bytes) (value : Option Bytes) (fails : Nat → Bool) :
    TrieStore :=
  match s.states i with
  | none => s
  | some ws =>
    match ws.edit (⟨s.db, 0, fails⟩ : FailingDisk) key value with
    | (f, ws, _) => s.put i f.disk (some ws)

/-- A call, and the puts that fail in it if it is `Update` or `Delete`. -/
def TrieStore.nextFailing (s : TrieStore) (step : TrieCall × (Nat → Bool)) : TrieStore :=
  match step.1 with
  | .update i key value => s.editFailing i key (some value) step.2
  | .delete i key => s.editFailing i key none step.2
  | .newMptWorldState i => s.next (.newMptWorldState i)
  | .rebase i hash => s.next (.rebase i hash)
  | .cleanup hash => s.next (.cleanup hash)

/-- The failures of the call are ones that its world state survives. -/
def TrieStore.Survived (s : TrieStore) (step : TrieCall × (Nat → Bool)) : Prop :=
  match step.1 with
  | .update i key value => ∀ ws, s.states i = some ws → Survives s.db ws key (some value) step.2
  | .delete i key => ∀ ws, s.states i = some ws → Survives s.db ws key none step.2
  | _ => True

/-- The store after operations on an empty database, whose failures were all survived. -/
def TrieStore.ReachedFailing (s : TrieStore) : Prop :=
  ∃ steps, Transition.Along TrieStore.nextFailing TrieStore.Survived ⟨WriteLog.empty, fun _ => none⟩ steps ∧
    Transition.run TrieStore.nextFailing ⟨WriteLog.empty, fun _ => none⟩ steps = s

theorem TrieStore.Sound.editFailing (inv : s.Sound) (key : Bytes) (value : Option Bytes)
    (survived : ∀ ws, s.states i = some ws → Survives s.db ws key value fails) :
    (s.editFailing i key value fails).Sound := by
  unfold TrieStore.editFailing
  cases state : s.states i with
  | none => exact inv
  | some ws =>
    have empty := inv.txNode i ws state
    obtain ⟨steps, txEmpty⟩ := edit_failing_steps ws ⟨s.db, 0, fails⟩ key value empty
    refine inv.put steps txEmpty fun sound => ?_
    have sound₀ : HashSound (Known s.db) := sound.of_suffix steps.suffix
    obtain ⟨T, holds⟩ := inv.holds sound₀ i ws state
    have ended := edit_ended inv.log holds.rep empty key value sound
    have survives := survived ws state
    rw [Survives, idle_iff inv.log sound₀ holds.rep] at survives
    exact ⟨ended.leaves.whole (inv.whole sound₀), ended.holds inv.log holds survives⟩

theorem TrieStore.Sound.nextFailing (inv : s.Sound) (step : TrieCall × (Nat → Bool)) (survived : s.Survived step) :
    (s.nextFailing step).Sound := by
  obtain ⟨call, fails⟩ := step
  cases call with
  | update i key value => exact inv.editFailing key (some value) survived
  | delete i key => exact inv.editFailing key none survived
  | newMptWorldState i => exact inv.next (.newMptWorldState i)
  | rebase i hash => exact inv.next (.rebase i hash)
  | cleanup hash => exact inv.next (.cleanup hash)

theorem TrieStore.ReachedFailing.sound (reached : s.ReachedFailing) : s.Sound := by
  obtain ⟨steps, survived, rfl⟩ := reached
  refine Transition.Along.invariant TrieStore.Sound (fun s step inv ok => inv.nextFailing step ok)
    ⟨TrieLog.empty, ?_, fun _ => whole_empty, ?_⟩ survived
  · intro i ws found
    cases found
  · intro _ i ws found
    cases found

/-- The call whose puts succeed. -/
theorem edit_walked {T : Contents} (inv : s.Sound) (holds : Holds s.db ws T) (key : Bytes) (value : Option Bytes)
    (sound : HashSound (Known (editDepthFirst s.db ws.rootNode (makeHex key) value).1)) :
    T.edit [] (makeHex key, value) = T ∨ Walked s.db (T.edit [] (makeHex key, value))
      (editDepthFirst s.db ws.rootNode (makeHex key) value).1
      (editDepthFirst s.db ws.rootNode (makeHex key) value).2.1
      (editDepthFirst s.db ws.rootNode (makeHex key) value).2.2 := by
  cases value with
  | some value => exact Or.inr (updateDepthFirst_rep (makeHex key) value inv.log holds.rep sound)
  | none => exact (deleteDepthFirst_rep (makeHex key) inv.log holds.rep sound).imp_left And.right

theorem TrieStore.Sound.edit_consistent_iff (inv : s.Sound) (state : s.states i = some ws) (key : Bytes)
    (value : Option Bytes) (sound : HashSound (Known (editDepthFirst s.db ws.rootNode (makeHex key) value).1)) :
    Consistent s.db ws (ws.edit (⟨s.db, 0, fails⟩ : FailingDisk) key value) ↔ Survives s.db ws key value fails := by
  have sound₀ := sound.of_suffix (editDepthFirst_steps _ _ _ _).suffix
  obtain ⟨T, holds⟩ := inv.holds sound₀ i ws state
  have empty := inv.txNode i ws state
  have knows : ∀ c, Known (ws.edit (⟨s.db, 0, fails⟩ : FailingDisk) key value).1.disk c →
      Known (editDepthFirst s.db ws.rootNode (makeHex key) value).1 c := by
    rintro c (blank | stored)
    · exact Or.inl blank
    · have walked : InLog (editDepthFirst (⟨s.db, 0, fails⟩ : FailingDisk) ws.rootNode (makeHex key) value).1.disk c :=
        stored.of_records (switchRoot_failing_records ws _ empty).1
      exact Or.inr (walked.mono (editDepthFirst_within ⟨s.db, 0, fails⟩ _ _ _).suffix)
  have ended := edit_ended inv.log holds.rep empty key value (sound.mono knows)
  rw [ended.consistent_iff inv.log holds sound knows (edit_walked inv holds key value sound), Survives,
    idle_iff inv.log sound₀ holds.rep]

/-- **When a failed write leaves the world state consistent.** In every run whose failures were survived, the next
`Update` or `Delete`, whatever puts fail in it, leaves a consistent world state exactly if it survives its failures. -/
theorem failed_write_consistent_iff (reached : s.ReachedFailing) (state : s.states i = some ws) (key : Bytes)
    (fails : Nat → Bool) :
    (∀ value, CollisionFree (Known (ws.update s.db key value).1) →
      (Consistent s.db ws (ws.update (⟨s.db, 0, fails⟩ : FailingDisk) key value) ↔
        Survives s.db ws key (some value) fails)) ∧
    (CollisionFree (Known (ws.delete s.db key).1) →
      (Consistent s.db ws (ws.delete (⟨s.db, 0, fails⟩ : FailingDisk) key) ↔ Survives s.db ws key none fails)) := by
  refine ⟨fun value free => ?_, fun free => ?_⟩
  · exact reached.sound.edit_consistent_iff state key (some value)
      (free.hashSound.of_suffix (switchRoot_writes ws _).suffix)
  · exact reached.sound.edit_consistent_iff state key none (free.hashSound.of_suffix (switchRoot_writes ws _).suffix)

end Runs

section Worked

attribute [local instance] workedSha512

/-- `a` is set, and no put fails. -/
def Worked.untroubled : TrieStore :=
  Transition.run TrieStore.nextFailing ⟨WriteLog.empty, fun _ => none⟩ (Worked.setOne.map fun call => (call, fun _ => false))

theorem Worked.untroubled_reached : Worked.untroubled.ReachedFailing :=
  ⟨Worked.setOne.map fun call => (call, fun _ => false),
    ⟨trivial, fun _ _ => Or.inr (Or.inl ⟨rfl, rfl⟩), trivial⟩, rfl⟩

/-- `b` is set, and the put of the root node fails. -/
def Worked.torn (ws : MptWorldState) : FailingDisk × MptWorldState × Byte64 :=
  ws.update (⟨Worked.untroubled.db, 0, fun j => j == 2⟩ : FailingDisk) [98] [2]

/-- The call reports the old root, in which there is no `b`, and `Lookup` finds `b`. -/
theorem Worked.torn_update :
    Worked.untroubled.ReachedFailing ∧ ∃ ws, Worked.untroubled.states 0 = some ws ∧
      (Worked.torn ws).2.2 = ws.rootHash ∧ (Worked.torn ws).2.1.rootNode.hash ≠ (Worked.torn ws).2.1.rootHash ∧
      (Worked.torn ws).2.1.lookup (Worked.torn ws).1.disk [98] = .ok [2] ∧
      ws.lookup Worked.untroubled.db [98] = .error (.core .notFound "key does not exists") ∧
      ¬ Consistent Worked.untroubled.db ws (Worked.torn ws) := by
  have run : (Worked.untroubled.states 0).any (fun ws =>
      decide ((Worked.torn ws).2.2 = ws.rootHash ∧
        (Worked.torn ws).2.1.rootNode.hash ≠ (Worked.torn ws).2.1.rootHash ∧
        (Worked.torn ws).2.1.lookup (Worked.torn ws).1.disk [98] = .ok [2] ∧
        ws.lookup Worked.untroubled.db [98] = .error (.core .notFound "key does not exists"))) = true := by
    decide +kernel
  obtain ⟨ws, state, torn⟩ := (Option.any_eq_true _ _).mp run
  obtain ⟨reports, differs, found, missing⟩ := of_decide_eq_true torn
  exact ⟨Worked.untroubled_reached, ws, state, reports, differs, found, missing,
    fun consistent => differs consistent.root⟩

/-- The put of a node below the root fails, and all is as before. -/
theorem failed_write_consistent_iff_below :
    ∃ ws, Worked.untroubled.states 0 = some ws ∧
      Consistent Worked.untroubled.db ws
        (ws.update (⟨Worked.untroubled.db, 0, fun j => j == 1⟩ : FailingDisk) [98] [2]) := by
  have run : (Worked.untroubled.states 0).any (fun ws =>
      decide (Worked.Covered (ws.update Worked.untroubled.db [98] [2]).1)) = true := by decide +kernel
  obtain ⟨ws, state, covered⟩ := (Option.any_eq_true _ _).mp run
  have free := (Worked.hashSound_of_covered (of_decide_eq_true covered)).collisionFree
  obtain ⟨updates, -⟩ := failed_write_consistent_iff Worked.untroubled_reached state [98] fun j => j == 1
  exact ⟨ws, state, (updates [2] free).mpr (Or.inl ⟨1, by decide, rfl⟩)⟩

end Worked

end TrustNet
