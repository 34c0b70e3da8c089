import Mathlib.Data.List.Basic

/-!
# Runs of a transition system

A deterministic system is a function `step`; a run is the fold of `step` over
a list of actions. `Along P` says that every step of a run was taken in a state
in which it satisfies `P`, so an invariant that only steps with `P` keep holds
at the end of every such run.
-/

namespace Transition
set_option autoImplicit false

variable {S A : Type} (step : S → A → S)

/-- The state after `actions`. -/
def run (s : S) (actions : List A) : S := actions.foldl step s

@[simp] theorem run_nil (s : S) : run step s [] = s := rfl

@[simp] theorem run_cons (s : S) (a : A) (actions : List A) :
    run step s (a :: actions) = run step (step s a) actions := rfl

theorem run_append (s : S) (first second : List A) :
    run step s (first ++ second) = run step (run step s first) second :=
  List.foldl_append

/-- Every step of the run satisfies `P` in the state it is taken from. -/
def Along (P : S → A → Prop) : S → List A → Prop
  | _, [] => True
  | s, a :: actions => P s a ∧ Along P (step s a) actions

instance decidableAlong (P : S → A → Prop) [∀ s a, Decidable (P s a)] :
    ∀ (s : S) (actions : List A), Decidable (Along step P s actions)
  | _, [] => instDecidableTrue
  | s, a :: actions => @instDecidableAnd _ _ _ (decidableAlong P (step s a) actions)

variable {step} {P Q : S → A → Prop}

theorem along_append {s : S} {first second : List A} :
    Along step P s (first ++ second) ↔ Along step P s first ∧ Along step P (run step s first) second := by
  induction first generalizing s with
  | nil => simp [Along]
  | cons a first ih => simp only [List.cons_append, Along, ih, run_cons, and_assoc]

theorem Along.mono (imp : ∀ s a, P s a → Q s a) {s : S} {actions : List A} (along : Along step P s actions) :
    Along step Q s actions := by
  induction actions generalizing s with
  | nil => trivial
  | cons a actions ih => exact ⟨imp s a along.1, ih along.2⟩

theorem Along.and {s : S} {actions : List A} (first : Along step P s actions) (second : Along step Q s actions) :
    Along step (fun s a => P s a ∧ Q s a) s actions := by
  induction actions generalizing s with
  | nil => trivial
  | cons a actions ih => exact ⟨⟨first.1, second.1⟩, ih first.2 second.2⟩

theorem along_of_forall {actions : List A} (each : ∀ s, ∀ a ∈ actions, P s a) (s : S) : Along step P s actions := by
  induction actions generalizing s with
  | nil => trivial
  | cons a actions ih =>
    exact ⟨each s a List.mem_cons_self, ih (fun s a member => each s a (List.mem_cons_of_mem _ member)) (step s a)⟩

theorem along_true (s : S) (actions : List A) : Along step (fun _ _ => True) s actions :=
  along_of_forall (fun _ _ _ => trivial) s

/-- **Invariant rule.** What every step with `P` keeps, every run along `P` keeps. -/
theorem Along.invariant (Inv : S → Prop) (keeps : ∀ s a, Inv s → P s a → Inv (step s a))
    {s : S} {actions : List A} (start : Inv s) (along : Along step P s actions) : Inv (run step s actions) := by
  induction actions generalizing s with
  | nil => exact start
  | cons a actions ih => exact ih (keeps s a start along.1) along.2

/-- The invariant rule for runs without a condition. -/
theorem run_invariant (Inv : S → Prop) (keeps : ∀ s a, Inv s → Inv (step s a)) {s : S} (start : Inv s)
    (actions : List A) : Inv (run step s actions) := by
  induction actions generalizing s with
  | nil => exact start
  | cons a actions ih => exact ih (keeps s a start)

end Transition
