import TrustNet.Lib.Transition

/-!
# A call with a time bound (`common/util.go`)

`RunTimeBound` lets the method run in a goroutine of its own. The goroutine leaves the result
in the variable `err`, which it shares with the caller, and then sends on a channel without a
buffer. The caller waits for that or for the timer. The timer writes its error to the same
variable, and the caller returns what the variable holds when it reads it. Nobody stops the
goroutine, which goes on after a timeout and at its end finds nobody to receive.
-/

namespace TrustNet
set_option autoImplicit false

/-- Where the caller is: in the `select`, behind it, or gone with what it returned. -/
inductive Caller (E : Type) where
  | waiting
  | leaving
  | returned (err : Option E)

/-- The caller has left the `select`. What it returned is in `errs`. -/
inductive Caller.Left {E : Type} (errs : Option E → Prop) : Caller E → Prop where
  | leaving : Left errs .leaving
  | returned (err : Option E) (one : errs err) : Left errs (.returned err)

theorem Caller.Left.mono {E : Type} {errs errs' : Option E → Prop} {caller : Caller E} (left : caller.Left errs)
    (imp : ∀ err, errs err → errs' err) : caller.Left errs' := by
  cases left with
  | leaving => exact .leaving
  | returned err one => exact .returned err (imp err one)

/-- Where the goroutine is: in the method, before the assignment, before the send, or gone. It has the variables of the
method. -/
inductive Worker (W E : Type) where
  | running (w : W)
  | returning (w : W) (result : Option E)
  | sending (w : W) (result : Option E)
  | ended (w : W) (result : Option E)

/-- The variables of the method. -/
def Worker.vars {W E : Type} : Worker W E → W
  | .running w | .returning w _ | .sending w _ | .ended w _ => w

/-- A call of `RunTimeBound`. -/
structure TimeBound (W E : Type) where
  err : Option E
  caller : Caller E
  worker : Worker W E

inductive TimeBoundEvent where
  | work
  | assign
  | done
  | expire
  | leave

namespace TimeBound

variable {W E : Type}

/-- The call begins. -/
def start (w : W) : TimeBound W E := ⟨none, .waiting, .running w⟩

section Model

variable (method : W → W × Option (Option E)) (timeoutError : E)

/-- The next access of one of the two. The method makes a step, and returns with the last one. -/
def next (t : TimeBound W E) : TimeBoundEvent → TimeBound W E
  | .work =>
    match t.worker with
    | .running w =>
      match method w with
      | (w, none) => { t with worker := .running w }
      | (w, some result) => { t with worker := .returning w result }
    | _ => t
  | .assign =>
    match t.worker with
    | .returning w result => { t with err := result, worker := .sending w result }
    | _ => t
  | .done =>
    match t.caller, t.worker with
    | .waiting, .sending w result => { t with caller := .leaving, worker := .ended w result }
    | _, _ => t
  | .expire =>
    match t.caller with
    | .waiting => { t with err := some timeoutError, caller := .leaving }
    | _ => t
  | .leave =>
    match t.caller with
    | .leaving => { t with caller := .returned t.err }
    | _ => t

abbrev run (t : TimeBound W E) (events : List TimeBoundEvent) : TimeBound W E :=
  Transition.run (next method timeoutError) t events

end Model

variable {method : W → W × Option (Option E)} {timeoutError : E} {t : TimeBound W E}

/-- What a call can come to, if `Going` holds of the method while it runs, and `Gone` of its end: the caller waits for the
method and leaves with its result, or the timer comes before it. Then the result may still take the place of the error. -/
inductive Bounded (Going : W → Prop) (Gone : W → Option E → Prop) (timeoutError : E) : TimeBound W E → Prop where
  | running (w : W) (going : Going w) : Bounded Going Gone timeoutError ⟨none, .waiting, .running w⟩
  | returning (w : W) (result : Option E) (gone : Gone w result) :
      Bounded Going Gone timeoutError ⟨none, .waiting, .returning w result⟩
  | sending (w : W) (result : Option E) (gone : Gone w result) :
      Bounded Going Gone timeoutError ⟨result, .waiting, .sending w result⟩
  | received (w : W) (result : Option E) (gone : Gone w result) (caller : Caller E) (left : caller.Left (· = result)) :
      Bounded Going Gone timeoutError ⟨result, caller, .ended w result⟩
  | overtaken (w : W) (going : Going w) (caller : Caller E) (left : caller.Left (· = some timeoutError)) :
      Bounded Going Gone timeoutError ⟨some timeoutError, caller, .running w⟩
  | undecided (w : W) (result : Option E) (gone : Gone w result) (caller : Caller E) (left : caller.Left (· = some timeoutError)) :
      Bounded Going Gone timeoutError ⟨some timeoutError, caller, .returning w result⟩
  | late (err : Option E) (w : W) (result : Option E) (gone : Gone w result) (which : err = some timeoutError ∨ err = result)
      (caller : Caller E) (left : caller.Left fun err => err = some timeoutError ∨ err = result) :
      Bounded Going Gone timeoutError ⟨err, caller, .sending w result⟩

/-- The goroutine is at its end: it has sent, or waits to. -/
def Over (w : W) (t : TimeBound W E) : Prop := ∃ result, t.worker = .sending w result ∨ t.worker = .ended w result

theorem Over.vars {w : W} (ended : t.Over w) : t.worker.vars = w := by
  obtain ⟨result, eq | eq⟩ := ended
  · rw [eq]
    rfl
  · rw [eq]
    rfl

section Invariant

variable {Going : W → Prop} {Gone : W → Option E → Prop}

/-- The caller that has left returns what it reads, and the goroutine does nothing. -/
theorem left_next {P : TimeBound W E → Prop} {errs : Option E → Prop} {err : Option E} {caller : Caller E} {worker : Worker W E}
    (left : caller.Left errs) (one : errs err) (holds : ∀ caller' : Caller E, caller'.Left errs → P ⟨err, caller', worker⟩)
    (e : TimeBoundEvent) (own : e = .done ∨ e = .expire ∨ e = .leave) :
    P (next method timeoutError ⟨err, caller, worker⟩ e) := by
  cases left with
  | leaving =>
    rcases own with rfl | rfl | rfl
    · exact holds _ .leaving
    · exact holds _ .leaving
    · exact holds _ (.returned err one)
  | returned err' one' => rcases own with rfl | rfl | rfl <;> exact holds _ (.returned err' one')

/-- **One event.** -/
theorem Bounded.next (goes : ∀ {w w'}, Going w → method w = (w', none) → Going w')
    (ends : ∀ {w w' result}, Going w → method w = (w', some result) → Gone w' result)
    (bounded : Bounded Going Gone timeoutError t) (e : TimeBoundEvent) :
    Bounded Going Gone timeoutError (t.next method timeoutError e) := by
  cases bounded with
  | running w going =>
    cases e with
    | work =>
      rcases step : method w with ⟨w', _ | result⟩
      · simp only [TimeBound.next, step]
        exact .running w' (goes going step)
      · simp only [TimeBound.next, step]
        exact .returning w' result (ends going step)
    | expire => exact .overtaken w going _ .leaving
    | assign | done | leave => exact .running w going
  | returning w result gone =>
    cases e with
    | assign => exact .sending w result gone
    | expire => exact .undecided w result gone _ .leaving
    | work | done | leave => exact .returning w result gone
  | sending w result gone =>
    cases e with
    | done => exact .received w result gone _ .leaving
    | expire => exact .late _ w result gone (Or.inl rfl) _ .leaving
    | work | assign | leave => exact .sending w result gone
  | received w result gone caller left =>
    cases e with
    | work | assign => exact .received w result gone caller left
    | done | expire | leave => exact left_next left rfl (.received w result gone) _ (by simp)
  | overtaken w going caller left =>
    cases e with
    | work =>
      rcases step : method w with ⟨w', _ | result⟩
      · simp only [TimeBound.next, step]
        exact .overtaken w' (goes going step) caller left
      · simp only [TimeBound.next, step]
        exact .undecided w' result (ends going step) caller left
    | assign => exact .overtaken w going caller left
    | done | expire | leave => exact left_next left rfl (.overtaken w going) _ (by simp)
  | undecided w result gone caller left =>
    cases e with
    | work => exact .undecided w result gone caller left
    | assign => exact .late _ w result gone (Or.inr rfl) caller (left.mono fun _ => Or.inl)
    | done | expire | leave => exact left_next left rfl (.undecided w result gone) _ (by simp)
  | late err w result gone which caller left =>
    cases e with
    | work | assign => exact .late err w result gone which caller left
    | done | expire | leave => exact left_next left which (.late err w result gone which) _ (by simp)

/-- **Every run of the call.** -/
theorem bounded_run (goes : ∀ {w w'}, Going w → method w = (w', none) → Going w')
    (ends : ∀ {w w' result}, Going w → method w = (w', some result) → Gone w' result) {w : W} (going : Going w)
    (events : List TimeBoundEvent) : Bounded Going Gone timeoutError ((start w).run method timeoutError events) :=
  Transition.run_invariant (Bounded Going Gone timeoutError) (fun _ e bounded => bounded.next goes ends e) (.running w going)
    events

/-- What the caller returns is the result of the method, which has ended, or the error of the timer. -/
theorem Bounded.returned {err : Option E} (bounded : Bounded Going Gone timeoutError t) (returned : t.caller = .returned err) :
    err = some timeoutError ∨ Gone t.worker.vars err ∧ t.Over t.worker.vars := by
  cases bounded with
  | running | returning | sending => cases returned
  | received w result gone caller left =>
    cases left with
    | leaving => cases returned
    | returned err' one =>
      cases returned
      subst one
      exact Or.inr ⟨gone, _, Or.inr rfl⟩
  | overtaken w going caller left =>
    cases left with
    | leaving => cases returned
    | returned err' one =>
      cases returned
      exact Or.inl one
  | undecided w result gone caller left =>
    cases left with
    | leaving => cases returned
    | returned err' one =>
      cases returned
      exact Or.inl one
  | late err' w result gone which caller left =>
    cases left with
    | leaving => cases returned
    | returned err'' one =>
      cases returned
      rcases one with timeout | same
      · exact Or.inl timeout
      · subst same
        exact Or.inr ⟨gone, _, Or.inl rfl⟩

end Invariant

/-! ## After the return -/

theorem returned_next {err : Option E} (returned : t.caller = .returned err) (e : TimeBoundEvent) :
    (t.next method timeoutError e).caller = .returned err := by
  obtain ⟨err', caller, worker⟩ := t
  cases returned
  cases e with
  | work =>
    cases worker with
    | running w =>
      rcases step : method w with ⟨w', _ | result⟩
      · simp only [TimeBound.next, step]
      · simp only [TimeBound.next, step]
    | _ => rfl
  | assign => cases worker <;> rfl
  | done | expire | leave => rfl

/-- The caller returns once. -/
theorem returned_run {err : Option E} (returned : t.caller = .returned err) (events : List TimeBoundEvent) :
    (t.run method timeoutError events).caller = .returned err :=
  Transition.run_invariant (fun t : TimeBound W E => t.caller = .returned err) (fun _ e returned => returned_next returned e)
    returned events

/-- Then nothing changes the variables of the method any more. -/
theorem Over.run {w : W} (ended : t.Over w) (events : List TimeBoundEvent) : (t.run method timeoutError events).Over w := by
  refine Transition.run_invariant (Over w) (fun t e ended => ?_) ended events
  obtain ⟨err, caller, worker⟩ := t
  obtain ⟨result, rfl | rfl⟩ := ended
  · cases e with
    | done =>
      cases caller with
      | waiting => exact ⟨result, Or.inr rfl⟩
      | _ => exact ⟨result, Or.inl rfl⟩
    | expire | leave => cases caller <;> exact ⟨result, Or.inl rfl⟩
    | work | assign => exact ⟨result, Or.inl rfl⟩
  · cases e with
    | done | expire | leave => cases caller <;> exact ⟨result, Or.inr rfl⟩
    | work | assign => exact ⟨result, Or.inr rfl⟩

/-- A goroutine that the caller has not received from when it returned never ends. -/
theorem never_ends {err : Option E} (returned : t.caller = .returned err) (alive : ∀ w result, t.worker ≠ .ended w result)
    (events : List TimeBoundEvent) (w : W) (result : Option E) : (t.run method timeoutError events).worker ≠ .ended w result := by
  refine (Transition.run_invariant (fun t : TimeBound W E => t.caller = .returned err ∧ ∀ w result, t.worker ≠ .ended w result)
    (fun t e inv => ⟨returned_next inv.1 e, ?_⟩) ⟨returned, alive⟩ events).2 w result
  obtain ⟨err', caller, worker⟩ := t
  obtain ⟨rfl, alive⟩ := inv
  cases e with
  | work =>
    cases worker with
    | running w =>
      rcases step : method w with ⟨w', _ | result⟩
      · simp only [TimeBound.next, step]
        exact nofun
      · simp only [TimeBound.next, step]
        exact nofun
    | _ => exact alive
  | assign =>
    cases worker with
    | returning w result => exact nofun
    | _ => exact alive
  | done | expire | leave => exact alive

/-- The method without a time bound, for some steps. -/
def alone (method : W → W × Option (Option E)) : Nat → W → W × Option (Option E)
  | 0, w => (w, none)
  | n + 1, w =>
    match method w with
    | (w, none) => alone method n w
    | (w, some result) => (w, some result)

/-- **What comes of a call.** In every interleaving the caller returns the error of the timer, or what the method alone
returns. The goroutine has ended then, or it never ends. -/
theorem timeBound_returns (w : W) (events : List TimeBoundEvent) {err : Option E}
    (returned : ((start w).run method timeoutError events).caller = .returned err) :
    (err = some timeoutError ∨ ∃ n, alone method n w = (((start w).run method timeoutError events).worker.vars, some err)) ∧
      ((∃ w', ((start w).run method timeoutError events).worker = .ended w' err) ∨
        ∀ more w' result, (((start w).run method timeoutError events).run method timeoutError more).worker ≠ .ended w' result) := by
  have bounded : Bounded (fun w' => ∃ n, ∀ m, alone method (n + m) w = alone method m w')
      (fun w' result => ∃ n, alone method n w = (w', some result)) timeoutError ((start w).run method timeoutError events) := by
    refine bounded_run (fun {w₁ w₂} going step => ?_) (fun {w₁ w₂ result} going step => ?_)
      ⟨0, fun m => by rw [Nat.zero_add]⟩ events
    · obtain ⟨n, same⟩ := going
      refine ⟨n + 1, fun m => ?_⟩
      rw [Nat.add_assoc, Nat.add_comm 1 m, same, alone, step]
    · obtain ⟨n, same⟩ := going
      refine ⟨n + 1, ?_⟩
      rw [same, alone, step]
  refine ⟨(bounded.returned returned).imp_right fun ended => ended.1, ?_⟩
  generalize (start w).run method timeoutError events = t at bounded returned ⊢
  cases bounded with
  | running | returning | sending => cases returned
  | received w' result gone caller left =>
    cases left with
    | leaving => cases returned
    | returned err' one =>
      cases returned
      exact Or.inl ⟨w', by rw [one]⟩
  | overtaken | undecided | late => exact Or.inr (never_ends returned nofun)

/-- A method that never returns. -/
def counting (n : Nat) : Nat × Option (Option String) := (n + 1, none)

theorem timeBound_returns_counting :
    let t := (start 0).run counting "timeout" [.work, .expire, .leave]
    t.caller = .returned (some "timeout") ∧ ∀ more w result, (t.run counting "timeout" more).worker ≠ .ended w result := by
  intro t
  have returned : t.caller = .returned (some "timeout") := rfl
  refine ⟨returned, (timeBound_returns 0 [.work, .expire, .leave] returned).2.resolve_left ?_⟩
  rintro ⟨w, eq⟩
  cases eq

end TimeBound

end TrustNet
