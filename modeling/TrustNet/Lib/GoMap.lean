import Mathlib.Data.List.AList

/-!
# Maps

An `AList` whose values are of one type, as a finite map: what a lookup finds after an
insertion or an erasure, and how many keys there are.
-/

namespace GoMap
set_option autoImplicit false

variable {K V : Type} [DecidableEq K]

theorem lookup_insert (s : AList fun _ : K => V) (a b : K) (v : V) :
    (s.insert a v).lookup b = if b = a then some v else s.lookup b := by
  split
  · rename_i eq
    subst eq
    exact AList.lookup_insert s
  · rename_i ne
    exact AList.lookup_insert_ne ne

theorem lookup_erase (s : AList fun _ : K => V) (a b : K) :
    (s.erase a).lookup b = if b = a then none else s.lookup b := by
  split
  · rename_i eq
    subst eq
    exact AList.lookup_erase _ _
  · rename_i ne
    exact AList.lookup_erase_ne ne

theorem mem_keys_iff (s : AList fun _ : K => V) (a : K) : a ∈ s.keys ↔ (s.lookup a).isSome := by
  rw [AList.lookup_isSome, AList.mem_keys]

theorem length_insert (s : AList fun _ : K => V) {a : K} (v : V) (fresh : s.lookup a = none) :
    (s.insert a v).keys.length = s.keys.length + 1 := by
  have absent : a ∉ s.keys := by
    rw [mem_keys_iff, fresh]
    simp
  rw [AList.keys_insert, List.erase_of_not_mem absent, List.length_cons]

theorem length_erase (s : AList fun _ : K => V) {a : K} (present : (s.lookup a).isSome) :
    (s.erase a).keys.length + 1 = s.keys.length := by
  rw [AList.keys_erase, List.length_erase_add_one ((mem_keys_iff s a).mpr present)]

/-- Maps with the same keys are of one size. -/
theorem length_keys_eq {W : Type} (s : AList fun _ : K => V) (t : AList fun _ : K => W)
    (same : ∀ a, (s.lookup a).isSome = (t.lookup a).isSome) : s.keys.length = t.keys.length := by
  apply List.Perm.length_eq
  rw [List.perm_ext_iff_of_nodup s.keys_nodup t.keys_nodup]
  intro a
  rw [mem_keys_iff, mem_keys_iff, same]

end GoMap
