import TrustNet.Consensus.InHand
import TrustNet.Consensus.Replay

/-!
# Filling a candidate

The application fills a candidate while the node goes on with other calls. Whatever
these do to the database, the candidate stays on the world state that it was made on,
and its overlay records the accesses as if there had been nothing else.
-/

namespace TrustNet
set_option autoImplicit false

/-- The access to the state of block `i` that a call makes. -/
def Action.op (i : Nat) : Action → Option BlockOp
  | .update j key value => if j = i then some (.update key value) else none
  | .delete j key => if j = i then some (.delete key) else none
  | .lookup j key => if j = i then some (.lookup key) else none
  | _ => none

/-- The call does no more with block `i` than to access its state or to add a transaction. -/
def Action.Fills (i : Nat) (a : Action) : Prop := a.target = some i → (a.op i).isSome ∨ ∃ tx, a = .addTransaction i tx

theorem Action.eq_of_op {i : Nat} {a : Action} {op : BlockOp} (eq : a.op i = some op) : a = op.action i := by
  cases a with
  | update j key value =>
    simp only [Action.op, Option.ite_none_right_eq_some, Option.some.injEq] at eq
    obtain ⟨rfl, rfl⟩ := eq
    rfl
  | delete j key =>
    simp only [Action.op, Option.ite_none_right_eq_some, Option.some.injEq] at eq
    obtain ⟨rfl, rfl⟩ := eq
    rfl
  | lookup j key =>
    simp only [Action.op, Option.ite_none_right_eq_some, Option.some.injEq] at eq
    obtain ⟨rfl, rfl⟩ := eq
    rfl
  | _ => cases eq

/-- A candidate that was filled: it is on the world state `t` and under the parent `p`, and was not hashed. -/
structure Filled (p : Byte64) (t : MptWorldState) (vars : Variables) (b : Block) : Prop where
  parent : b.phash = p
  state : b.worldState = some t
  vars : b.vars = vars
  unhashed : b.hash = none

section Fill

variable [Sha512] {s s' : System} {a : Action} {o : Option Outcome} {i : Nat} {b' : Block} {p : Byte64} {t : MptWorldState}
  {T : Contents} {vars : Variables}

/-- The database of a node only grows. -/
theorem StepResult.grows (result : StepResult s a s' o) : s.db.log <:+ s'.db.log := by
  cases result with
  | quiet s' o steps engine blocks contents => exact steps.suffix
  | added i c c' b child ws₀ ws order parent d₁ d' outcome submits target engine block state cleaned valid hashed root
      result =>
    rw [submitted_db]
    exact hashed.persisted.steps.suffix.trans result.writes.suffix
  | stopped =>
    have steps : TrieSteps (fun _ => False) s.db (freshDisk s.db) := freshDisk_steps s.db
    exact steps.suffix
  | restarted h spec d' t gn minerId restarts tip found rebased =>
    have steps : TrieSteps (fun _ => False) s.db d' := rebased.fresh_steps
    exact steps.suffix

theorem run_grows (ready : SystemReady s) (actions : List Action) : s.db.log <:+ (s.run actions).db.log := by
  induction actions generalizing s with
  | nil => exact List.suffix_refl _
  | cons a actions ih => exact (step_result ready a).grows.trans (ih (systemReady_next ready a))

/-- A call on another block leaves block `i`. -/
theorem StepResult.other (result : StepResult s a s' o) (other : a.target ≠ some i) (found : s'.blocks i = some b') :
    s.blocks i = some b' ∧ (s.engine.isSome → s'.engine.isSome) := by
  cases result with
  | quiet s' o steps engine blocks contents =>
    rcases blocks i b' found with ⟨old, -⟩ | ⟨target, -⟩
    · exact ⟨old, fun running => by rw [engine]; exact running⟩
    · exact absurd target other
  | added j c c' b child ws₀ ws order parent d₁ d' outcome submits target engine block state cleaned valid hashed root
      result =>
    rcases submitted_block found with ⟨-, old⟩ | ⟨eq, -⟩
    · refine ⟨old, fun _ => ?_⟩
      cases outcome with
      | ok => rfl
      | error e => rfl
      | panic => cases found
    · rw [eq] at other
      exact absurd target other
  | stopped => cases found
  | restarted => cases found

/-- Filling makes no block: what is in hand afterwards was in hand before. -/
theorem Action.Fills.present (ready : SystemReady s) (fills : a.Fills i) (found : (s.next a).blocks i = some b') :
    (s.blocks i).isSome := by
  by_cases target : a.target = some i
  · cases block : s.blocks i with
    | some b => rfl
    | none =>
      rcases fills target with op | ⟨tx, rfl⟩
      · obtain ⟨op, eq⟩ := Option.isSome_iff_exists.mp op
        rw [Action.eq_of_op eq] at found
        cases op <;> simp [System.next, BlockOp.action, System.step, System.onBlock, block] at found
      · simp [System.next, System.step, System.onBlock, block] at found
  · rw [((step_result ready a).other target found).1]
    rfl

theorem present_run {calls : List Action} (ready : SystemReady s) (fills : ∀ a ∈ calls, a.Fills i)
    (found : (s.run calls).blocks i = some b') : (s.blocks i).isSome := by
  induction calls generalizing s with
  | nil =>
    have block : s.blocks i = some b' := found
    rw [block]
    rfl
  | cons a calls ih =>
    have later := ih (systemReady_next ready a) (fun a member => fills a (List.mem_cons_of_mem _ member)) found
    obtain ⟨b, block⟩ := Option.isSome_iff_exists.mp later
    exact (fills a List.mem_cons_self).present ready block

/-- An access is recorded in the overlay. -/
theorem Filled.access {b : Block} (working : Working s.db t T) (sound : HashSound (Known s.db)) (filled : Filled p t vars b)
    (op : BlockOp) : Filled p t (op.record (versionOf T) vars) (op.apply s.db b) := by
  have vars' := apply_vars working sound filled.state op
  obtain ⟨parent, state, eqVars, unhashed⟩ := filled
  obtain ⟨vars₁, apply⟩ := op.apply_eq s.db b
  rw [eqVars] at vars'
  rw [apply] at vars' ⊢
  exact ⟨parent, state, vars', unhashed⟩

/-- `AddTransaction` touches the transactions only. -/
theorem Filled.addTransaction {b : Block} (filled : Filled p t vars b) (tx : Transaction) :
    Filled p t vars (b.addTransaction s.db tx).1 := by
  rcases addTransaction_cases b s.db tx with same | ⟨-, -, eq⟩
  · rw [same]
    exact filled
  · rw [eq]
    exact ⟨filled.parent, filled.state, filled.vars, filled.unhashed⟩

/-- **One call.** The accesses are recorded in the overlay. -/
theorem Filled.next (ready : SystemReady s) (working : Working s.db t T) (sound : HashSound (Known s.db)) (fills : a.Fills i)
    (before : ∀ b, s.blocks i = some b → s.engine.isSome ∧ Filled p t vars b)
    (found : (s.next a).blocks i = some b') :
    (s.next a).engine.isSome ∧ Filled p t ((a.op i).elim vars (BlockOp.record (versionOf T) vars)) b' := by
  by_cases target : a.target = some i
  · obtain ⟨b, block⟩ := Option.isSome_iff_exists.mp (fills.present ready found)
    obtain ⟨running, filled⟩ := before b block
    obtain ⟨c, engine⟩ := Option.isSome_iff_exists.mp running
    rcases fills target with op | ⟨tx, rfl⟩
    · obtain ⟨op, eq⟩ := Option.isSome_iff_exists.mp op
      have call := next_op engine block (ready.blocks i b block) op
      rw [← Action.eq_of_op eq] at call
      rw [call] at found ⊢
      simp only [System.setBlock, Function.update_self, Option.some.injEq] at found
      rw [← found, eq]
      exact ⟨running, filled.access working sound op⟩
    · simp only [System.next, System.step, System.onBlock, engine, block] at found ⊢
      have after := filled.addTransaction (s := s) tx
      generalize b.addTransaction s.db tx = result at found after ⊢
      obtain ⟨b₁, outcome⟩ := result
      cases outcome with
      | panic => cases found
      | ok =>
        simp only [System.finish, System.setBlock, Function.update_self, Option.some.injEq] at found
        rw [← found]
        exact ⟨running, after⟩
      | error e =>
        simp only [System.finish, System.setBlock, Function.update_self, Option.some.injEq] at found
        rw [← found]
        exact ⟨running, after⟩
  · have none' : a.op i = none := by
      by_contra some'
      obtain ⟨op, eq⟩ := Option.ne_none_iff_exists'.mp some'
      rw [Action.eq_of_op eq] at target
      cases op <;> exact target rfl
    obtain ⟨old, running⟩ := (step_result ready a).other target found
    obtain ⟨engine, filled⟩ := before b' old
    rw [none']
    exact ⟨running engine, filled⟩

/-- **All calls.** -/
theorem filled_run {P : System → Action → Prop} {g : Byte64} {calls : List Action} (reached : Reached P g s)
    (along : System.Along P s calls) (fills : ∀ a ∈ calls, a.Fills i) (sound : HashSound (Known (s.run calls).db))
    (ready : t.Ready) (holds : Holds s.db t T)
    (before : ∀ b, s.blocks i = some b → s.engine.isSome ∧ Filled p t vars b)
    (found : (s.run calls).blocks i = some b') :
    Filled p t ((calls.filterMap (Action.op i)).foldl (BlockOp.record (versionOf T)) vars) b' := by
  induction calls generalizing s vars with
  | nil => exact (before b' found).2
  | cons a calls ih =>
    have ready' := systemReady_next reached.ready a
    have grows := (step_result reached.ready a).grows
    have one : System.Along P s [a] := ⟨along.1, trivial⟩
    have soundNext : HashSound (Known (s.next a).db) := sound.of_suffix (run_grows ready' calls)
    have soundHere := soundNext.of_suffix grows
    have working : Working s.db t T := ⟨reached.ready.log, (reached.contents soundHere).whole, ready, holds⟩
    have filled := ih (reached.run one) along.2 (fun a member => fills a (List.mem_cons_of_mem _ member)) sound
      (holds.of_suffix grows)
      (fun b block => Filled.next reached.ready working soundHere (fills a List.mem_cons_self) before block) found
    rw [List.filterMap_cons]
    cases op : a.op i with
    | none =>
      rw [op] at filled
      exact filled
    | some op' =>
      rw [op] at filled
      exact filled

end Fill

end TrustNet
