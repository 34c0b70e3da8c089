import TrustNet.Consensus.Snapshot
import TrustNet.Consensus.View

/-!
# Reads before and after a commit

A block answers a `Lookup` from its overlay and its world state. Persisting the overlay
makes a new world state, and everything that is handed out on that state later answers
from it. Both are the same keys, with one exception: the trie takes an empty value for a
missing one, the overlay does not.
-/

namespace TrustNet
set_option autoImplicit false

section Answers

variable {T : Contents} {vars : Variables} {key : Bytes}

end Answers

section Commit

variable [Sha512] {P : System → Action → Prop} {s : System} {g root : Byte64} {i : Nat} {b handle : Block} {d d' : Disk}
  {ws ws' : MptWorldState} {T : Contents} {order : List Entry} {key : Bytes}

/-- A block in hand is at work on contents. -/
theorem Reached.working (reached : Reached P g s) (block : s.blocks i = some b) (state : b.worldState = some ws)
    (sound : HashSound (Known s.db)) : ∃ T, Working s.db ws T := by
  obtain ⟨whole, holds⟩ := reached.contents sound
  obtain ⟨T, holds⟩ := holds i b ws block state
  obtain ⟨ws₁, state₁, ready⟩ := reached.ready.blocks i b block
  rw [state, Option.some.injEq] at state₁
  subst state₁
  exact ⟨T, reached.ready.log, whole, ready, holds⟩

end Commit

namespace Worked

/-- The trie node above the empty one, for the key `a`. -/
def blankPathDigest : Nat :=
  0xeed0d9a138a26ad01c0a07507e5955452b3fdfdea288f0232851bc1d267dae42843d11179593d138f2039761eb614d50f0be6f304be830793dc9ca80716e2abb

/-- The world state in which `a` was set to the empty value. -/
def blankDigest : Nat :=
  0x741f54c120dc0a941fa9c0e1aa0ec22728462bf98cc88a3e79a09b6406a1c0b3eee109a8e601cca37e417a042c131d6e5f2aecc1c657e6eee8d1cb48c1405a80

/-- SHA-512 with these nodes. -/
@[reducible] def blankSha512 : Sha512 :=
  Sha512.ofRows ((724783667725507681, blankPathDigest) :: (2303596334020809502, blankDigest) :: digestRows)

end Worked

section Worked

attribute [local instance] Worked.blankSha512

end Worked

section Worked

attribute [local instance] workedSha512

end Worked

end TrustNet
