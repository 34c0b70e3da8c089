import TrustNet.Consensus.View
import TrustNet.Network.Platform

/-!
# What the application does to a block

A script works on a block through its view, so what it does to the overlay and what it
says are functions of the replies that it gets. On overlays with the same replies it says
the same, and leaves overlays with the same replies. `plays` is the loop of `processBlock`
over the transactions of a block.
-/

namespace TrustNet
set_option autoImplicit false

/-- What a script makes of the overlay `vars` over the keys of `version`, and its verdict. -/
def Script.play (version : Version) : Script → Variables → Variables × Bool
  | .done accepted, vars => (vars, accepted)
  | .lookup key next, vars => (next (reply version vars key)).play version (BlockOp.record version vars (.lookup key))
  | .update key value next, vars => next.play version (vars.insert key (some value))
  | .delete key next, vars => next.play version (vars.insert key none)

/-- The transactions are processed up to the first that is rejected. -/
def plays (txProcessor : Transaction → Script) (version : Version) : List Transaction → Variables → Variables × Bool
  | [], vars => (vars, true)
  | tx :: txs, vars =>
    match (txProcessor tx).play version vars with
    | (vars, true) => plays txProcessor version txs vars
    | (vars, false) => (vars, false)

/-- The script writes and deletes none of the keys. -/
def Script.Spares (keys : Bytes → Prop) : Script → Prop
  | .done _ => True
  | .lookup _ next => ∀ reply, (next reply).Spares keys
  | .update key _ next => ¬ keys key ∧ next.Spares keys
  | .delete key next => ¬ keys key ∧ next.Spares keys

theorem reply_ne_panic (version : Version) (vars : Variables) (key : Bytes) : reply version vars key ≠ .panic := by
  unfold reply
  cases vars.lookup key with
  | some entry =>
    cases entry with
    | none => exact Reply.noConfusion
    | some value => exact Reply.noConfusion
  | none =>
    cases version key with
    | none => exact Reply.noConfusion
    | some value => exact Reply.noConfusion

section Run

variable [Sha512] {d : Disk} {b : Block} {ws : MptWorldState} {T : Contents}

/-- The callback at work. -/
theorem Script.run_eq (working : Working d ws T) (sound : HashSound (Known d)) (script : Script)
    (state : b.worldState = some ws) :
    script.run d b =
      some ({ b with vars := (script.play (versionOf T) b.vars).1 }, (script.play (versionOf T) b.vars).2) := by
  induction script generalizing b with
  | done accepted => rfl
  | lookup key next ih =>
    have fine := reply_ne_panic (versionOf T) b.vars key
    rw [Script.run, lookup_eq working sound state, Script.play]
    generalize reply (versionOf T) b.vars key = answer at fine
    cases answer with
    | panic => exact absurd rfl fine
    | value v => exact ih (.value v) (b := { b with vars := BlockOp.record (versionOf T) b.vars (.lookup key) }) state
    | error e => exact ih (.error e) (b := { b with vars := BlockOp.record (versionOf T) b.vars (.lookup key) }) state
  | update key value next ih => exact ih (b := b.update key value) state
  | delete key next ih => exact ih (b := b.delete key) state

end Run

section Play

variable {version : Version} {vars vars' : Variables}

/-- **A script cannot tell overlays with the same replies apart.** -/
theorem Script.play_same (script : Script) (same : SameReplies version vars vars') :
    SameReplies version (script.play version vars).1 (script.play version vars').1 ∧
      (script.play version vars).2 = (script.play version vars').2 := by
  induction script generalizing vars vars' with
  | done accepted => exact ⟨same, rfl⟩
  | lookup key next ih =>
    rw [Script.play, Script.play, same key]
    exact ih _ (same.record (.lookup key))
  | update key value next ih => exact ih (same.insert key (some value))
  | delete key next ih => exact ih (same.insert key none)

/-- One more transaction. -/
theorem plays_append {txProcessor : Transaction → Script} {txs : List Transaction} (tx : Transaction)
    (accepted : (plays txProcessor version txs vars).2 = true) :
    plays txProcessor version (txs ++ [tx]) vars =
      (txProcessor tx).play version (plays txProcessor version txs vars).1 := by
  induction txs generalizing vars with
  | nil =>
    have once : plays txProcessor version [tx] vars = match (txProcessor tx).play version vars with
        | (vars, true) => (vars, true)
        | (vars, false) => (vars, false) := rfl
    rw [List.nil_append, once]
    change _ = (txProcessor tx).play version vars
    generalize (txProcessor tx).play version vars = result
    obtain ⟨vars', verdict⟩ := result
    cases verdict with
    | true => rfl
    | false => rfl
  | cons tx' txs ih =>
    rw [List.cons_append, plays]
    rw [plays] at accepted ⊢
    generalize (txProcessor tx').play version vars = result at accepted
    obtain ⟨vars', verdict⟩ := result
    cases verdict with
    | true => exact ih accepted
    | false => cases accepted

/-- If all are accepted, so are the first ones, and the rest is processed after them. -/
theorem plays_split {txProcessor : Transaction → Script} {txs rest : List Transaction}
    (accepted : (plays txProcessor version (txs ++ rest) vars).2 = true) :
    (plays txProcessor version txs vars).2 = true ∧
      plays txProcessor version (txs ++ rest) vars = plays txProcessor version rest (plays txProcessor version txs vars).1 := by
  induction txs generalizing vars with
  | nil => exact ⟨rfl, rfl⟩
  | cons tx txs ih =>
    rw [List.cons_append, plays] at accepted ⊢
    rw [plays]
    generalize (txProcessor tx).play version vars = result at accepted
    obtain ⟨vars', verdict⟩ := result
    cases verdict with
    | true => exact ih accepted
    | false => cases accepted

/-- If all are accepted, so is the first. -/
theorem plays_head {txProcessor : Transaction → Script} {tx : Transaction} {rest : List Transaction}
    (accepted : (plays txProcessor version (tx :: rest) vars).2 = true) : ((txProcessor tx).play version vars).2 = true := by
  rw [plays] at accepted
  generalize (txProcessor tx).play version vars = result at accepted
  obtain ⟨vars', verdict⟩ := result
  cases verdict with
  | true => rfl
  | false => cases accepted

/-- A script that spares a key leaves it in the view, and leaves its entry in the overlay. -/
theorem Script.play_spares {keys : Bytes → Prop} {script : Script} (spares : script.Spares keys) {key : Bytes}
    (spared : keys key) :
    effective version (script.play version vars).1 key = effective version vars key ∧
      (key ∈ vars → (script.play version vars).1.lookup key = vars.lookup key) := by
  induction script generalizing vars with
  | done accepted => exact ⟨rfl, fun _ => rfl⟩
  | lookup key' next ih =>
    rw [Script.play]
    obtain ⟨shown, entry⟩ := @ih _ (BlockOp.record version vars (.lookup key')) (spares _)
    have kept : key ∈ vars → (BlockOp.record version vars (.lookup key')).lookup key = vars.lookup key := by
      intro present
      simp only [BlockOp.record]
      split
      · rename_i value absent found
        have ne : key ≠ key' := by
          rintro rfl
          exact AList.lookup_eq_none.mp absent present
        exact AList.lookup_insert_ne ne
      · rfl
    refine ⟨shown.trans (by rw [effective_record_lookup]), fun present => ?_⟩
    have still : key ∈ BlockOp.record version vars (.lookup key') := by
      rw [← AList.lookup_isSome, kept present, AList.lookup_isSome]
      exact present
    exact (entry still).trans (kept present)
  | update key' value next ih =>
    have ne : key ≠ key' := by
      rintro rfl
      exact spares.1 spared
    obtain ⟨shown, entry⟩ := @ih (vars.insert key' (some value)) spares.2
    refine ⟨shown.trans ?_, fun present => (entry ?_).trans (AList.lookup_insert_ne ne)⟩
    · rw [effective_insert, Function.update_of_ne ne]
    · exact (AList.mem_insert _).mpr (Or.inr present)
  | delete key' next ih =>
    have ne : key ≠ key' := by
      rintro rfl
      exact spares.1 spared
    obtain ⟨shown, entry⟩ := @ih (vars.insert key' none) spares.2
    refine ⟨shown.trans ?_, fun present => (entry ?_).trans (AList.lookup_insert_ne ne)⟩
    · rw [effective_insert, Function.update_of_ne ne]
    · exact (AList.mem_insert _).mpr (Or.inr present)

end Play

end TrustNet
