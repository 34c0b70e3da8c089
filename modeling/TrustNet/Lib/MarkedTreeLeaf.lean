import TrustNet.Lib.MarkedTree

/-!
# Attaching a leaf to a stored tree

A leaf is attached in two writes, first to the list of its parent and then as a node of
its own; in between the list names a node that is not stored. The marked branch stays
what it is, or moves to the leaf.
-/

namespace MarkedTree
set_option autoImplicit false
open NodeStore ParentTree

variable {σ K N P : Type} [DecidableEq K] [NodeStore σ K N P]

/-! ## Linking the leaf -/

section Link

variable {s : σ} {g c k : K} {pn n n₀ : N}

/-- What a node was before its parent's list was extended. -/
theorem get_link_some (stored : get s (key σ pn) = some pn) (found : get (put s (addChild σ pn c)) k = some n) :
    ∃ n₀, get s k = some n₀ ∧ key σ n = key σ n₀ ∧ parent σ n = parent σ n₀ ∧ payload σ n = payload σ n₀ ∧
      marked σ n = marked σ n₀ ∧ ∀ k' ∈ children σ n, k' ∈ children σ n₀ ∨ (k' = c ∧ k = key σ pn) := by
  have eq := links_addChild (σ := σ) pn c
  simp only [Prod.mk.injEq] at eq
  rw [get_put, eq.1] at found
  split at found
  · rename_i key'
    cases found
    refine ⟨pn, by rw [key']; exact stored, eq.1, eq.2.1, eq.2.2.2, marked_addChild pn c, fun k' member => ?_⟩
    rw [eq.2.2.1, List.mem_append, List.mem_singleton] at member
    exact member.imp_right fun same => ⟨same, key'⟩
  · exact ⟨n, found, rfl, rfl, rfl, rfl, fun _ => Or.inl⟩

/-- What becomes of a node. -/
theorem get_link_of (stored : get s (key σ pn) = some pn) (found : get s k = some n₀) :
    ∃ n, get (put s (addChild σ pn c)) k = some n ∧ parent σ n = parent σ n₀ ∧ payload σ n = payload σ n₀ ∧
      marked σ n = marked σ n₀ ∧ (∀ k' ∈ children σ n₀, k' ∈ children σ n) := by
  have eq := links_addChild (σ := σ) pn c
  simp only [Prod.mk.injEq] at eq
  by_cases key' : k = key σ pn
  · subst key'
    rw [stored] at found
    cases found
    refine ⟨addChild σ pn c, by rw [get_put, if_pos eq.1.symm], eq.2.1, eq.2.2.2, marked_addChild pn c,
      fun k' member => ?_⟩
    rw [eq.2.2.1]
    exact List.mem_append_left _ member
  · exact ⟨n₀, by rw [get_put, eq.1, if_neg key', found], rfl, rfl, rfl, fun _ => id⟩

theorem isSome_link (stored : get s (key σ pn) = some pn) :
    (get (put s (addChild σ pn c)) k).isSome = (get s k).isSome := by
  rw [Bool.eq_iff_iff, Option.isSome_iff_exists, Option.isSome_iff_exists]
  constructor
  · rintro ⟨n, found⟩
    obtain ⟨n₀, found₀, -⟩ := get_link_some stored found
    exact ⟨n₀, found₀⟩
  · rintro ⟨n₀, found₀⟩
    obtain ⟨n, found, -⟩ := get_link_of stored found₀
    exact ⟨n, found⟩

theorem map_link {β : Type} (f : N → β) (keeps : ∀ n, f (addChild σ n c) = f n) (stored : get s (key σ pn) = some pn) :
    (get (put s (addChild σ pn c)) k).map f = (get s k).map f := by
  have eq := links_addChild (σ := σ) pn c
  simp only [Prod.mk.injEq] at eq
  rw [get_put, eq.1]
  split
  · rename_i key'
    rw [key', stored, Option.map_some, Option.map_some, keeps]
  · rfl

theorem parentOf_link (stored : get s (key σ pn) = some pn) : parentOf (put s (addChild σ pn c)) g = parentOf s g := by
  funext k
  unfold parentOf
  rw [map_link (parent σ) (fun n => congrArg (fun l => l.2.1) (links_addChild (σ := σ) n c)) stored]

theorem marked_link (stored : get s (key σ pn) = some pn) : Marked (put s (addChild σ pn c)) k ↔ Marked s k := by
  constructor
  · rintro ⟨n, found, on⟩
    obtain ⟨n₀, found₀, -, -, -, mark, -⟩ := get_link_some stored found
    exact ⟨n₀, found₀, by rw [← mark]; exact on⟩
  · rintro ⟨n₀, found₀, on⟩
    obtain ⟨n, found, -, -, mark, -⟩ := get_link_of (c := c) stored found₀
    exact ⟨n, found, by rw [mark]; exact on⟩

/-- A list may name a child before the child is stored. -/
theorem Tree.link (tree : Tree s g) (stored : get s (key σ pn) = some pn) (fresh : get s c = none) :
    Tree (put s (addChild σ pn c)) g := by
  refine ⟨fun {k n} found => ?_, ?_, fun {k n} found ne => ?_, fun {p qn k cn} foundP member foundC => ?_, ?_⟩
  · obtain ⟨n₀, found₀, key', -⟩ := get_link_some stored found
    rw [key']
    exact tree.keyed found₀
  · rw [isSome_link stored]
    exact tree.root
  · obtain ⟨n₀, found₀, -, parent', -⟩ := get_link_some stored found
    obtain ⟨p, foundP, member⟩ := tree.listed found₀ ne
    obtain ⟨p', foundP', -, -, -, sub⟩ := get_link_of (c := c) stored foundP
    rw [parent']
    exact ⟨p', foundP', sub k member⟩
  · obtain ⟨qn₀, foundQ, -, -, -, -, sub⟩ := get_link_some stored foundP
    obtain ⟨cn₀, foundC₀, -, parent', -⟩ := get_link_some stored foundC
    rcases sub k member with old | ⟨rfl, -⟩
    · rw [parent']
      exact tree.children foundQ old foundC₀
    · rw [fresh] at foundC₀
      cases foundC₀
  · obtain ⟨rank, ranked, bound⟩ := tree.ranked
    refine ⟨rank, by rw [parentOf_link stored]; exact ranked, fun k found => ?_⟩
    rw [isSome_link stored] at found
    exact Nat.lt_trans (bound k found) (size_put s _)

end Link

/-! ## Storing the leaf -/

section Leaf

variable {s : σ} {g m : K} {x pn : N} (tree : Tree s g) (fresh : get s (key σ x) = none)

include fresh in
theorem ne_of_fresh {k : K} (stored : (get s k).isSome) : k ≠ key σ x := by
  intro eq
  rw [eq, fresh] at stored
  cases stored

include tree fresh

theorem Tree.no_edge_to_fresh (k : K) : parentOf s g k ≠ some (key σ x) := by
  intro edge
  exact ne_of_fresh fresh (tree.parent_stored edge) rfl

omit tree fresh in
theorem parentOf_put_of_ne {k : K} (ne : k ≠ key σ x) : parentOf (put s x) g k = parentOf s g k := by
  unfold parentOf
  rw [get_put_of_ne s x ne]

theorem Tree.parentOf_leaf : parentOf (put s x) g (key σ x) = some (parent σ x) :=
  parentOf_of_found (get_put_self s x) fun eq => ne_of_fresh fresh tree.root eq.symm

/-- A stored leaf keeps the tree, if its parent and nobody else lists it. -/
theorem Tree.addLeaf (pn : N) (leaf : NodeStore.children σ x = []) (parentStored : get s (parent σ x) = some pn)
    (member : key σ x ∈ NodeStore.children σ pn)
    (only : ∀ q qn, get s q = some qn → key σ x ∈ NodeStore.children σ qn → q = parent σ x) : Tree (put s x) g := by
  have old : ∀ {q}, (get s q).isSome → get (put s x) q = get s q :=
    fun stored => get_put_of_ne s x (ne_of_fresh fresh stored)
  have read : ∀ {q n}, get (put s x) q = some n → (q = key σ x ∧ n = x) ∨ get s q = some n := by
    intro q n found
    rw [get_put] at found
    split at found
    · rename_i eq
      cases found
      exact Or.inl ⟨eq, rfl⟩
    · exact Or.inr found
  have storedP : (get s (parent σ x)).isSome := by rw [parentStored]; rfl
  refine ⟨fun {k n} found => ?_, ?_, fun {k n} found ne => ?_, fun {q qn k cn} foundQ listed foundC => ?_, ?_⟩
  · rcases read found with ⟨rfl, rfl⟩ | found
    · rfl
    · exact tree.keyed found
  · rw [old tree.root]
    exact tree.root
  · rcases read found with ⟨rfl, rfl⟩ | found
    · exact ⟨pn, by rw [old storedP]; exact parentStored, member⟩
    · obtain ⟨p, stored, listed⟩ := tree.listed found ne
      exact ⟨p, by rw [old (by rw [stored]; rfl)]; exact stored, listed⟩
  · rcases read foundQ with ⟨rfl, rfl⟩ | oldQ
    · rw [leaf] at listed
      cases listed
    · rcases read foundC with ⟨rfl, rfl⟩ | oldC
      · exact ⟨(only q qn oldQ listed).symm, fun eq => ne_of_fresh fresh tree.root eq.symm⟩
      · exact tree.children oldQ listed oldC
  · obtain ⟨rank, ranked, bound⟩ := tree.ranked
    have grow := size_put s x
    refine ⟨fun k => if k = key σ x then rank (parent σ x) + 1 else rank k, fun a b edge => ?_, fun k stored => ?_⟩
    · by_cases eq : a = key σ x
      · subst eq
        rw [tree.parentOf_leaf fresh] at edge
        cases edge
        simp [ne_of_fresh fresh storedP]
      · rw [parentOf_put_of_ne eq] at edge
        have ne : b ≠ key σ x := fun eq => tree.no_edge_to_fresh fresh a (by rw [← eq]; exact edge)
        simpa [eq, ne] using ranked a b edge
    · obtain ⟨n, found⟩ := Option.isSome_iff_exists.mp stored
      rcases read found with ⟨rfl, rfl⟩ | found
      · have := bound _ storedP
        simp only [if_true]
        omega
      · have ne := ne_of_fresh fresh (k := k) (by rw [found]; rfl)
        have := bound k (by rw [found]; rfl)
        simp only [ne, if_false]
        omega

omit tree fresh in
theorem marked_put_leaf (s : σ) (x : N) (k : K) : Marked (put s (mark σ x true)) k ↔ k = key σ x ∨ Marked s k := by
  unfold Marked
  rw [get_put, key_mark]
  split
  · simp [marked_mark, *]
  · simp [*]

/-- The leaf is stored in the tree that the walk up has left. -/
theorem WalkedUp.addLeaf {par : K → Option K} {s₁ : σ} {below qn last : N}
    (up : WalkedUp par s pn below s₁ qn last) (stored : get s (key σ pn) = some pn)
    (leaf : NodeStore.children σ x = []) (parent' : parent σ x = key σ pn) (member : key σ x ∈ NodeStore.children σ pn)
    (only : ∀ q qn, get s q = some qn → key σ x ∈ NodeStore.children σ qn → q = parent σ x) :
    get s₁ (key σ x) = none ∧ Tree (put s₁ (mark σ x true)) g := by
  have fresh₁ : get s₁ (key σ x) = none := by
    have eq := up.same.isSome (k := key σ x)
    rw [fresh] at eq
    simpa using eq
  have freshM : get s₁ (key σ (mark σ x true)) = none := by rw [key_mark]; exact fresh₁
  obtain ⟨pn₁, stored₁, eq⟩ := up.same.some stored
  simp only [links, Prod.mk.injEq] at eq
  refine ⟨fresh₁, (up.same.tree up.grown tree).addLeaf freshM pn₁ (by rw [children_mark, leaf]) ?_ ?_ ?_⟩
  · rw [parent_mark, parent']
    exact stored₁
  · rw [key_mark, eq.2.2.1]
    exact member
  · intro q qn' found listed
    rw [key_mark] at listed
    rw [parent_mark]
    obtain ⟨qn₀, found₀, eqQ⟩ := up.same.symm.some found
    simp only [links, Prod.mk.injEq] at eqQ
    exact only q qn₀ found₀ (by rw [eqQ.2.2.1]; exact listed)

/-- **The marks move to a new leaf.** If the marked nodes are the branch of `m`, they are the branch of the leaf
afterwards, and nothing else has changed. -/
theorem moveMarks_spec (pn : N) (main : Branch s g m) (stored : get s (key σ pn) = some pn)
    (leaf : NodeStore.children σ x = []) (parent' : parent σ x = key σ pn) (member : key σ x ∈ NodeStore.children σ pn)
    (only : ∀ q qn, get s q = some qn → key σ x ∈ NodeStore.children σ qn → q = parent σ x) :
    ∃ s', moveMarks s x pn = (s', none) ∧ SameLinks (put s x) s' ∧ Tree s' g ∧ Branch s' g (key σ x) := by
  obtain ⟨rank, ranked, bound⟩ := tree.ranked
  have storedP : (get s (key σ pn)).isSome := by rw [stored]; rfl
  obtain ⟨s₁, qn, last, runUp, up⟩ := markUp_spec ranked (size s + 1) (mark σ x true) tree rfl stored
    (tree.anc_root storedP) ((main.2 g).mpr (tree.anc_root main.1)) (Nat.lt_succ_of_lt (bound _ storedP))
  obtain ⟨fresh₁, tree₂⟩ := up.addLeaf tree fresh stored leaf parent' member only
  have edgeX : parentOf (put s₁ (mark σ x true)) g (key σ x) = some (key σ pn) := by
    have edge := (up.same.tree up.grown tree).parentOf_leaf (x := mark σ x true) (by rw [key_mark]; exact fresh₁)
    rw [key_mark, parent_mark, parent'] at edge
    exact edge
  have agree : ∀ k, k ≠ key σ x → parentOf (put s₁ (mark σ x true)) g k = parentOf s g k := by
    intro k ne
    rw [parentOf_put_of_ne (by rw [key_mark]; exact ne), up.same.parentOf_eq]
  have same₂ : SameLinks (put s x) (put s₁ (mark σ x true)) := by
    intro k
    rw [get_put, get_put, key_mark]
    split
    · rw [Option.map_some, Option.map_some, links_mark_eq]
    · exact up.same k
  have marks₂ := marked_put_leaf s₁ x
  have read₂ : ∀ {k}, k ≠ key σ x → get (put s₁ (mark σ x true)) k = get s₁ k :=
    fun ne => get_put_of_ne s₁ _ (by rw [key_mark]; exact ne)
  have run : moveMarks s x pn = unmarkDown (size (put s₁ (mark σ x true)) + 1) (put s₁ (mark σ x true))
      (markedChild (put s₁ (mark σ x true)) qn (some last)) := by
    simp only [moveMarks, runUp]
  have keyed₂ : (get (put s₁ (mark σ x true)) (key σ x)).isSome := by
    rw [get_put, key_mark, if_pos rfl]
    rfl
  rw [run]
  generalize put s₁ (mark σ x true) = s₂ at tree₂ edgeX agree same₂ marks₂ read₂ keyed₂ ⊢
  have noEdge := tree.no_edge_to_fresh fresh
  have old := fun {a b : K} (ne : a ≠ key σ x) => anc_of_ne_leaf (b := b) noEdge agree ne
  have new := fun {b : K} => anc_leaf (b := b) noEdge agree edgeX (ne_of_fresh fresh storedP)
  have mNe := ne_of_fresh fresh main.1
  have ancP : ∀ {k}, Anc (parentOf s g) (key σ pn) k → k ≠ key σ x :=
    fun up => ne_of_fresh fresh (tree.anc_stored storedP up)
  obtain ⟨s', done, same, grown, marks⟩ := unmarkDown_branch (m := m) (x := key σ x) qn last tree₂
    (by
      rw [read₂ (ancP up.reached)]
      exact up.stored)
    (by
      rw [read₂ mNe, up.same.isSome]
      exact main.1)
    ((old mNe).mpr ((main.2 (key σ qn)).mp up.marked))
    (new.mpr (Or.inr up.reached))
    (by
      intro k
      rw [marks₂ k, old mNe]
      by_cases eq : k = key σ x
      · subst eq
        simp only [true_or, true_iff]
        exact Or.inr ⟨Anc.refl, new.mpr (Or.inr up.reached)⟩
      · simp only [eq, up.marks k, main.2 k, old eq, new, false_or])
    (by
      intro k xk kq ne
      rw [old mNe]
      rcases new.mp xk with eq | pk
      · rw [eq]
        exact fun up => ne_of_fresh fresh (tree.anc_stored main.1 up) rfl
      · rw [← main.2 k]
        exact up.first k pk ((old (ancP pk)).mp kq) ne)
    (by
      rcases up.last with ⟨eq, -⟩ | ⟨pl, -⟩
      · rw [eq, key_mark]
        exact Anc.refl
      · exact new.mpr (Or.inr pl))
    (by
      rcases up.last with ⟨eq, sameQ⟩ | ⟨pl, edge⟩
      · rw [eq, sameQ, key_mark]
        exact edgeX
      · exact (agree (key σ last) (ancP pl)).trans edge)
  refine ⟨s', done, same₂.trans same, same.tree grown tree₂, ?_, ?_⟩
  · rw [same.isSome]
    exact keyed₂
  · rw [same.parentOf_eq]
    exact marks

end Leaf

/-! ## Attaching a leaf -/

/-- The leaf `x` was attached, and the marked nodes are the branch of `m`. -/
structure Attached (s : σ) (g : K) (x : N) (m : K) (s' : σ) : Prop where
  tree : Tree s' g
  complete : Complete s'
  main : Branch s' g m
  payloads : ∀ k, (get s' k).map (payload σ) = if k = key σ x then some (payload σ x) else (get s k).map (payload σ)

section Attach

variable {s l : σ} {g m : K} {x pn : N} (tree : Tree s g) (complete : Complete s) (main : Branch s g m)
  (fresh : get s (key σ x) = none) (stored : get s (key σ pn) = some pn) (leaf : NodeStore.children σ x = [])
  (parent' : parent σ x = key σ pn) (linked : ∀ k, get l k = get (put s (addChild σ pn (key σ x))) k)
  (grow : size (put s (addChild σ pn (key σ x))) ≤ size l)

include complete fresh stored parent' linked in
/-- Nobody but the parent lists the leaf that was linked. -/
theorem listed_link {q : K} {qn : N} (found : get l q = some qn) (listed : key σ x ∈ NodeStore.children σ qn) :
    q = parent σ x := by
  rw [linked] at found
  obtain ⟨qn₀, found₀, -, -, -, -, sub⟩ := get_link_some stored found
  rcases sub _ listed with old | ⟨-, eq⟩
  · have present := complete q qn₀ _ found₀ old
    rw [fresh] at present
    cases present
  · rw [eq, parent']

theorem mem_addChild (n : N) (c : K) : c ∈ NodeStore.children σ (addChild σ n c) := by
  have eq := links_addChild (σ := σ) n c
  simp only [Prod.mk.injEq] at eq
  rw [eq.2.2.1]
  exact List.mem_append_right _ (List.mem_singleton_self c)

theorem key_addChild (s : σ) (pn : N) (c : K) : key σ (addChild σ pn c) = key σ pn ∧ get (put s (addChild σ pn c)) (key σ pn) =
    some (addChild σ pn c) := by
  have eq : key σ (addChild σ pn c) = key σ pn := congrArg Prod.fst (links_addChild (σ := σ) pn c)
  exact ⟨eq, by rw [← eq]; exact get_put_self s _⟩

include fresh stored linked in
theorem fresh_link : get l (key σ x) = none := by
  rw [linked, ← Option.isNone_iff_eq_none, ← Option.not_isSome, isSome_link stored, fresh]
  simp

include complete fresh stored leaf linked in
/-- With the leaf stored, every list is complete again. -/
theorem complete_attach {s' : σ} (same : SameLinks (put l x) s') : Complete s' := by
  have storedL : ∀ {k}, (get s k).isSome → (get (put l x) k).isSome := by
    intro k present
    rw [get_put, if_neg (ne_of_fresh fresh present), linked, isSome_link stored]
    exact present
  refine same.complete fun k n c found member => ?_
  rw [get_put] at found
  split at found
  · cases found
    rw [leaf] at member
    cases member
  · rw [linked] at found
    obtain ⟨n₀, found₀, -, -, -, -, sub⟩ := get_link_some stored found
    rcases sub c member with old | ⟨rfl, -⟩
    · exact storedL (complete k n₀ c found₀ old)
    · rw [get_put_self]
      rfl

include stored linked in
/-- What neither the marks nor the lists of children are part of. -/
theorem map_attach {β : Type} (f : K × K × List K × P → β)
    (keeps : ∀ n : N, f (links σ (addChild σ n (key σ x))) = f (links σ n)) {s' : σ} (same : SameLinks (put l x) s') (k : K) :
    (get s' k).map (fun n => f (links σ n)) =
      if k = key σ x then some (f (links σ x)) else (get s k).map fun n => f (links σ n) := by
  have eq := congrArg (Option.map f) (same k)
  rw [Option.map_map, Option.map_map] at eq
  refine Eq.trans eq ?_
  rw [get_put]
  split
  · rfl
  · rw [linked]
    exact map_link (fun n => f (links σ n)) keeps stored

include stored linked in
theorem payloads_attach {s' : σ} (same : SameLinks (put l x) s') (k : K) :
    (get s' k).map (payload σ) = if k = key σ x then some (payload σ x) else (get s k).map (payload σ) :=
  map_attach stored linked (fun t => t.2.2.2) (fun n => congrArg (fun t => t.2.2.2) (links_addChild (σ := σ) n _)) same k

include tree complete main fresh stored leaf parent' linked grow

/-- **A leaf off the branch.** -/
theorem attach_side (off : NodeStore.marked σ x = false) : Attached s g x m (put l x) := by
  obtain ⟨-, storedP⟩ := key_addChild s pn (key σ x)
  have same := SameLinks.of_eq linked
  have treeL := same.tree grow (tree.link stored fresh)
  have freshL := fresh_link fresh stored linked
  have mNe := ne_of_fresh fresh main.1
  refine ⟨treeL.addLeaf freshL (addChild σ pn (key σ x)) leaf ?_ ?_
    (fun q qn => listed_link complete fresh stored parent' linked), complete_attach complete fresh stored leaf linked
    (SameLinks.refl _), ⟨?_, fun k => ?_⟩, payloads_attach stored linked (SameLinks.refl _)⟩
  · rw [linked, parent']
    exact storedP
  · exact mem_addChild pn _
  · rw [get_put, if_neg mNe, linked, isSome_link stored]
    exact main.1
  · have edges : ∀ k, k ≠ key σ x → parentOf (put l x) g k = parentOf s g k := by
      intro k ne
      rw [parentOf_put_of_ne ne, same.parentOf_eq, parentOf_link stored]
    rw [anc_of_ne_leaf (tree.no_edge_to_fresh fresh) edges mNe, ← main.2 k]
    unfold Marked
    rw [get_put]
    split
    · rename_i eq
      rw [eq, fresh]
      simp [off]
    · rw [linked]
      exact marked_link stored

/-- The marks move to the leaf, and nothing else changes. -/
theorem attach_main_links :
    ∃ s', moveMarks l x (addChild σ pn (key σ x)) = (s', none) ∧ Attached s g x (key σ x) s' ∧ SameLinks (put l x) s' := by
  obtain ⟨keyP, storedP⟩ := key_addChild s pn (key σ x)
  have same := SameLinks.of_eq linked
  have treeL := same.tree grow (tree.link stored fresh)
  have freshL := fresh_link fresh stored linked
  have mainL : Branch l g m := by
    refine ⟨?_, fun k => ?_⟩
    · rw [linked, isSome_link stored]
      exact main.1
    · rw [same.parentOf_eq, parentOf_link stored, ← main.2 k]
      unfold Marked
      rw [linked]
      exact marked_link stored
  obtain ⟨s', run, same', tree', main'⟩ := moveMarks_spec treeL freshL (addChild σ pn (key σ x)) mainL
    (by rw [linked, keyP]; exact storedP) leaf (by rw [parent', keyP])
    (mem_addChild pn _)
    (fun q qn => listed_link complete fresh stored parent' linked)
  exact ⟨s', run, ⟨tree', complete_attach complete fresh stored leaf linked same', main',
    payloads_attach stored linked same'⟩, same'⟩

/-- **The marks move to the leaf.** -/
theorem attach_main :
    ∃ s', moveMarks l x (addChild σ pn (key σ x)) = (s', none) ∧ Attached s g x (key σ x) s' := by
  obtain ⟨s', run, attached, -⟩ := attach_main_links tree complete main fresh stored leaf parent' linked grow
  exact ⟨s', run, attached⟩

end Attach

end MarkedTree
