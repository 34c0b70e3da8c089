import Mathlib.Logic.Function.Basic

/-!
# Versioned maps

Readers and writers share a store of versions. Each of them has a current map; a
write makes a new map and publishes it under a root, and a rebase takes up the map
that was published first under a root.
-/

set_option autoImplicit false

/-- The current map of every user, and the map that was first published under every root. -/
structure VersionedMap (ι κ α ρ : Type) where
  current : ι → Option (κ → Option α)
  versions : ρ → Option (κ → Option α)

namespace VersionedMap

variable {ι κ α ρ : Type}

/-- What a user did; a write of `none` erases the key. -/
inductive Event (ι κ α ρ : Type) where
  | created (i : ι) (root : ρ)
  | wrote (i : ι) (key : κ) (value : Option α) (root : ρ)
  | rebased (i : ι) (root : ρ)
  | silent

/-- The user whose map an event changes. -/
def Event.user : Event ι κ α ρ → Option ι
  | .created i _ | .wrote i _ _ _ | .rebased i _ => some i
  | .silent => none

/-- Nobody has a map yet. -/
def empty : VersionedMap ι κ α ρ := ⟨fun _ => none, fun _ => none⟩

variable [DecidableEq ι] [DecidableEq ρ]

/-- A user has a new map, which is published under its root unless the root is taken. -/
def produce (a : VersionedMap ι κ α ρ) (i : ι) (map : κ → Option α) (root : ρ) : VersionedMap ι κ α ρ :=
  ⟨Function.update a.current i (some map), Function.update a.versions root (some ((a.versions root).getD map))⟩

variable {a : VersionedMap ι κ α ρ} {e : Event ι κ α ρ} {i : ι} {r root : ρ} {map map' : κ → Option α}

@[simp] theorem produce_current_self : (a.produce i map root).current i = some map := by
  simp [produce]

theorem produce_current_of_ne {j : ι} (ne : j ≠ i) : (a.produce i map root).current j = a.current j := by
  simp [produce, ne]

/-- The first version of a root stays. -/
theorem produce_versions (r : ρ) :
    (a.produce i map root).versions r = if r = root then some ((a.versions root).getD map) else a.versions r := by
  simp only [produce, Function.update_apply]

theorem produce_versions_of_some (found : a.versions r = some map') : (a.produce i map root).versions r = some map' := by
  rw [produce_versions]
  split
  · rename_i eq
    rw [← eq, found]
    rfl
  · exact found

variable [DecidableEq κ]

def next (a : VersionedMap ι κ α ρ) : Event ι κ α ρ → VersionedMap ι κ α ρ
  | .created i root => a.produce i (fun _ => none) root
  | .wrote i key value root =>
    match a.current i with
    | some map => a.produce i (Function.update map key value) root
    | none => a
  | .rebased i root =>
    match a.versions root with
    | some map => { a with current := Function.update a.current i (some map) }
    | none => a
  | .silent => a

theorem next_versions_of_some (found : a.versions r = some map) : (a.next e).versions r = some map := by
  cases e with
  | created i root => exact produce_versions_of_some found
  | wrote i key value root =>
    simp only [next]
    split
    · exact produce_versions_of_some found
    · exact found
  | rebased i root =>
    simp only [next]
    split
    · exact found
    · exact found
  | silent => exact found

/-- Only its own events change the map of a user. -/
theorem next_current_of_ne (other : e.user ≠ some i) : (a.next e).current i = a.current i := by
  have ne : ∀ {j : ι}, some j ≠ some i → i ≠ j := fun ne eq => ne (by rw [eq])
  cases e with
  | created j root => exact produce_current_of_ne (ne other)
  | wrote j key value root =>
    simp only [next]
    split
    · exact produce_current_of_ne (ne other)
    · rfl
  | rebased j root =>
    simp only [next]
    split
    · exact Function.update_of_ne (ne other) _ _
    · rfl
  | silent => rfl

/-- A new version is the map of the user that produced it. -/
theorem next_versions_of_none (none' : a.versions r = none) (found : (a.next e).versions r = some map) :
    ∃ i, (a.next e).current i = some map ∧
      (e = .created i r ∨ ∃ key value, e = .wrote i key value r) := by
  have fresh : ∀ {i map' root}, (a.produce i map' root).versions r = some map → r = root ∧ map' = map := by
    intro i map' root found
    rw [produce_versions] at found
    split at found
    · rename_i eq
      rw [← eq, none', Option.getD_none, Option.some.injEq] at found
      exact ⟨eq, found⟩
    · rw [none'] at found
      cases found
  cases e with
  | created i root =>
    obtain ⟨rfl, rfl⟩ := fresh found
    exact ⟨i, produce_current_self, Or.inl rfl⟩
  | wrote i key value root =>
    simp only [next] at found ⊢
    split at found
    · obtain ⟨rfl, rfl⟩ := fresh found
      exact ⟨i, by simp [*], Or.inr ⟨key, value, rfl⟩⟩
    · rw [none'] at found
      cases found
  | rebased i root =>
    simp only [next] at found
    split at found
    · rw [none'] at found
      cases found
    · rw [none'] at found
      cases found
  | silent =>
    rw [next, none'] at found
    cases found

end VersionedMap
