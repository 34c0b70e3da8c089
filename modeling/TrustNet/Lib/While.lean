import Mathlib.Init

/-!
# Loops that may not end

`loop cond body fuel` runs `for cond { body }` for at most `fuel` tests of the condition.
A loop that has ended gives the same result with more fuel, so `loop … = some b` says that
the loop ends in `b`.
-/

namespace While
set_option autoImplicit false

variable {α : Type} {cond : α → Bool} {body : α → α} {fuel : Nat} {a b : α}

/-- The state in which the loop ends, if it does within `fuel` tests. -/
def loop (cond : α → Bool) (body : α → α) : Nat → α → Option α
  | 0, _ => none
  | fuel + 1, a => if cond a then loop cond body fuel (body a) else some a

theorem loop_stop (stops : cond a = false) : loop cond body (fuel + 1) a = some a := by
  simp [loop, stops]

theorem loop_next (goes : cond a = true) : loop cond body (fuel + 1) a = loop cond body fuel (body a) := by
  simp [loop, goes]

end While
