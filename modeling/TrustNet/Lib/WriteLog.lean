import Mathlib.Data.List.Infix

/-!
# A key-value store as the log of its writes

The store is the list of its writes, newest first, and a read returns the
newest write to its key. A run that stops half-way through its writes leaves a
suffix of the log it was heading for, so `WritesOnly` (every new write
satisfies `P`) speaks about every crash point of a run at once.
-/

/-- Writes newest first; `none` deletes the key. -/
structure WriteLog (K V : Type) where
  log : List (K × Option V)

namespace WriteLog
set_option autoImplicit false

variable {K V : Type}

/-- The store nothing was written to. -/
def empty : WriteLog K V := ⟨[]⟩

/-- The store after one more write. -/
def write (s : WriteLog K V) (k : K) (v : Option V) : WriteLog K V := ⟨(k, v) :: s.log⟩

section Read

variable [DecidableEq K]

/-- The newest write to `k`. -/
def get (s : WriteLog K V) (k : K) : Option V :=
  match s.log.find? (fun w => decide (w.1 = k)) with
  | some w => w.2
  | none => none

@[simp] theorem get_empty (k : K) : (empty : WriteLog K V).get k = none := rfl

theorem get_write (s : WriteLog K V) (k k' : K) (v : Option V) :
    (s.write k v).get k' = if k = k' then v else s.get k' := by
  by_cases same : k = k'
  · simp [get, write, same]
  · simp [get, write, same]

@[simp] theorem get_write_self (s : WriteLog K V) (k : K) (v : Option V) : (s.write k v).get k = v := by
  simp [get_write]

theorem get_write_of_ne (s : WriteLog K V) {k k' : K} (v : Option V) (ne : k ≠ k') :
    (s.write k v).get k' = s.get k' := by
  simp [get_write, ne]

/-- A value that is read was written. -/
theorem mem_of_get {s : WriteLog K V} {k : K} {v : V} (read : s.get k = some v) : (k, some v) ∈ s.log := by
  unfold get at read
  split at read
  · rename_i w found
    have key := List.find?_some found
    have member := List.mem_of_find?_eq_some found
    simp only [decide_eq_true_eq] at key
    rw [← key, ← read]
    exact member
  · cases read

/-- A key that was written reads as one of its writes. -/
theorem get_of_mem {s : WriteLog K V} {k : K} {v : Option V} (member : (k, v) ∈ s.log) :
    (k, s.get k) ∈ s.log := by
  unfold get
  cases found : s.log.find? (fun w => decide (w.1 = k)) with
  | none => exact absurd (decide_eq_true rfl) (List.find?_eq_none.mp found _ member)
  | some w =>
    have key : w.1 = k := by simpa using List.find?_some found
    have written := List.mem_of_find?_eq_some found
    obtain ⟨k', v'⟩ := w
    simp only at key
    subst key
    exact written

end Read

/-- `s'` comes from `s` by further writes, each of which satisfies `P`. -/
def WritesOnly (P : K × Option V → Prop) (s s' : WriteLog K V) : Prop :=
  ∃ ws, s'.log = ws ++ s.log ∧ ∀ w ∈ ws, P w

variable {P Q : K × Option V → Prop} {s s' s'' : WriteLog K V} {w : K × Option V}

theorem WritesOnly.refl (s : WriteLog K V) : WritesOnly P s s := ⟨[], rfl, by simp⟩

theorem WritesOnly.trans (first : WritesOnly P s s') (second : WritesOnly P s' s'') : WritesOnly P s s'' := by
  obtain ⟨ws, eq, all⟩ := first
  obtain ⟨ws', eq', all'⟩ := second
  refine ⟨ws' ++ ws, by rw [eq', eq, List.append_assoc], fun w member => ?_⟩
  rcases List.mem_append.mp member with new | old
  · exact all' w new
  · exact all w old

theorem WritesOnly.mono (imp : ∀ w, P w → Q w) (h : WritesOnly P s s') : WritesOnly Q s s' := by
  obtain ⟨ws, eq, all⟩ := h
  exact ⟨ws, eq, fun w member => imp w (all w member)⟩

theorem WritesOnly.write {k : K} {v : Option V} (h : P (k, v)) (s : WriteLog K V) :
    WritesOnly P s (s.write k v) :=
  ⟨[(k, v)], rfl, by simpa using h⟩

/-- A loop whose rounds write only what satisfies `P`. -/
theorem WritesOnly.foldl {ι : Type} {f : WriteLog K V → ι → WriteLog K V} (round : ∀ s i, WritesOnly P s (f s i))
    (l : List ι) (s : WriteLog K V) : WritesOnly P s (l.foldl f s) := by
  induction l generalizing s with
  | nil => exact WritesOnly.refl s
  | cons i l ih => exact (round s i).trans (ih (f s i))

/-- Writes only add to the log. -/
theorem WritesOnly.suffix (h : WritesOnly P s s') : s.log <:+ s'.log := by
  obtain ⟨ws, eq, -⟩ := h
  exact ⟨ws, eq.symm⟩

theorem WritesOnly.length_le (h : WritesOnly P s s') : s.log.length ≤ s'.log.length :=
  h.suffix.length_le

/-- What is read from `s'` was read from `s` or was written since. -/
theorem WritesOnly.mem_cases (h : WritesOnly P s s') (member : w ∈ s'.log) :
    w ∈ s.log ∨ P w := by
  obtain ⟨ws, eq, all⟩ := h
  rw [eq] at member
  rcases List.mem_append.mp member with new | old
  · exact Or.inr (all w new)
  · exact Or.inl old

/-- `w` is one of the writes that lead from `s` to `s'`. -/
def Wrote (s s' : WriteLog K V) (w : K × Option V) : Prop := ∃ ws, s'.log = ws ++ s.log ∧ w ∈ ws

theorem Wrote.before (wrote : Wrote s' s'' w) (first : WritesOnly P s s') : Wrote s s'' w := by
  obtain ⟨ws', eq', member⟩ := wrote
  obtain ⟨ws, eq, -⟩ := first
  exact ⟨ws' ++ ws, by rw [eq', eq, List.append_assoc], List.mem_append_left _ member⟩

theorem Wrote.after (wrote : Wrote s s' w) (second : WritesOnly P s' s'') : Wrote s s'' w := by
  obtain ⟨ws, eq, member⟩ := wrote
  obtain ⟨ws', eq', -⟩ := second
  exact ⟨ws' ++ ws, by rw [eq', eq, List.append_assoc], List.mem_append_right _ member⟩

theorem Wrote.write (s : WriteLog K V) (k : K) (v : Option V) : Wrote s (s.write k v) (k, v) :=
  ⟨[(k, v)], rfl, List.mem_singleton_self _⟩

theorem WritesOnly.of_wrote (h : WritesOnly P s s') (wrote : Wrote s s' w) : P w := by
  obtain ⟨ws, eq, all⟩ := h
  obtain ⟨ws', eq', member⟩ := wrote
  rw [eq'] at eq
  rw [← List.append_cancel_right eq] at all
  exact all w member

section Frame

variable [DecidableEq K]

theorem get_append (ws : List (K × Option V)) (s : WriteLog K V) (k : K) :
    (⟨ws ++ s.log⟩ : WriteLog K V).get k =
      if ws.any (fun w => decide (w.1 = k)) then (⟨ws⟩ : WriteLog K V).get k else s.get k := by
  unfold get
  simp only [List.find?_append]
  cases found : ws.find? (fun w => decide (w.1 = k)) with
  | none =>
    have absent : ws.any (fun w => decide (w.1 = k)) = false := by
      rw [List.any_eq_false]
      exact List.find?_eq_none.mp found
    simp [absent]
  | some w =>
    have key := List.find?_some found
    have present : ws.any (fun w => decide (w.1 = k)) = true :=
      List.any_eq_true.mpr ⟨w, List.mem_of_find?_eq_some found, key⟩
    simp [present]

/-- Frame rule: a key that no write can touch keeps its value. -/
theorem WritesOnly.get_eq (h : WritesOnly P s s') {k : K} (untouched : ∀ v, ¬ P (k, v)) :
    s'.get k = s.get k := by
  obtain ⟨ws, eq, all⟩ := h
  obtain ⟨log'⟩ := s'
  simp only at eq
  subst eq
  rw [get_append, if_neg]
  intro hit
  obtain ⟨w, member, key⟩ := List.any_eq_true.mp hit
  simp only [decide_eq_true_eq] at key
  apply untouched w.2
  rw [← key]
  exact all w member

/-- A key reads as before, or as one of the writes left it. -/
theorem WritesOnly.get_cases (h : WritesOnly P s s') (k : K) : s'.get k = s.get k ∨ P (k, s'.get k) := by
  obtain ⟨ws, eq, all⟩ := h
  obtain ⟨log'⟩ := s'
  simp only at eq
  subst eq
  rw [get_append]
  split
  · rename_i hit
    right
    unfold get
    cases found : ws.find? (fun w => decide (w.1 = k)) with
    | none =>
      rw [List.find?_eq_none] at found
      obtain ⟨w, member, key⟩ := List.any_eq_true.mp hit
      exact absurd key (found w member)
    | some w =>
      have key : w.1 = k := by simpa using List.find?_some found
      have written := all w (List.mem_of_find?_eq_some found)
      obtain ⟨k', v⟩ := w
      simp only at key
      subst key
      exact written
  · exact Or.inl rfl

/-- A key that no write deletes stays present. -/
theorem WritesOnly.isSome (h : WritesOnly P s s') {k : K} (kept : ¬ P (k, none))
    (present : (s.get k).isSome) : (s'.get k).isSome := by
  rcases h.get_cases k with same | written
  · rw [same]
    exact present
  · cases read : s'.get k with
    | none =>
      rw [read] at written
      exact absurd written kept
    | some v => rfl

/-- A key that was written reads as one of the new writes left it. -/
theorem WritesOnly.get_written (h : WritesOnly P s s') {k : K} {v : Option V} (wrote : Wrote s s' (k, v)) :
    P (k, s'.get k) := by
  obtain ⟨ws, eq, all⟩ := h
  obtain ⟨ws', eq', member⟩ := wrote
  rw [eq'] at eq
  rw [← List.append_cancel_right eq] at all
  obtain ⟨log'⟩ := s'
  simp only at eq'
  subst eq'
  rw [get_append, if_pos (List.any_eq_true.mpr ⟨(k, v), member, by simp⟩)]
  exact all _ (get_of_mem (s := ⟨ws'⟩) member)

/-- A key whose new writes all carry one value reads as that value. -/
theorem WritesOnly.get_of_wrote (h : WritesOnly P s s') {k : K} {v : Option V} (wrote : Wrote s s' (k, v))
    (agree : ∀ v', P (k, v') → v' = v) : s'.get k = v :=
  agree _ (h.get_written wrote)

end Frame

/-- The writes of a run are those of its first part and those of its second. -/
theorem Wrote.cases (first : WritesOnly P s s') (second : s'.log <:+ s''.log) (wrote : Wrote s s'' w) :
    P w ∨ Wrote s' s'' w := by
  obtain ⟨ws, eq, all⟩ := first
  obtain ⟨ws', eq'⟩ := second
  obtain ⟨vs, eqAll, member⟩ := wrote
  rw [← eq', eq, ← List.append_assoc] at eqAll
  rw [← List.append_cancel_right eqAll] at member
  rcases List.mem_append.mp member with new | old
  · exact Or.inr ⟨ws', eq'.symm, new⟩
  · exact Or.inl (all w old)

/-- A crash point: some of the writes from `s` to `s'` have been made. -/
def Between (s s' e : WriteLog K V) : Prop := s.log <:+ e.log ∧ e.log <:+ s'.log

theorem Between.eq_self {e : WriteLog K V} (cut : Between s s e) : e = s := by
  obtain ⟨log⟩ := e
  exact congrArg WriteLog.mk (cut.2.eq_of_length_le cut.1.length_le)

/-- A crash point comes before or after a given one. -/
theorem Between.split {m e : WriteLog K V} (cut : Between s s' e) (second : m.log <:+ s'.log) :
    Between s m e ∨ Between m s' e := by
  rcases List.suffix_or_suffix_of_suffix cut.2 second with before | after
  · exact Or.inl ⟨cut.1, before⟩
  · exact Or.inr ⟨after, cut.2⟩

/-- A crash point comes before a last write or after it. -/
theorem Between.write {e : WriteLog K V} {k : K} {v : Option V} (cut : Between s (s'.write k v) e) :
    Between s s' e ∨ e = s'.write k v := by
  rcases List.suffix_cons_iff.mp cut.2 with all | before
  · right
    obtain ⟨log⟩ := e
    exact congrArg WriteLog.mk all
  · exact Or.inl ⟨cut.1, before⟩

/-- The writes that a crash leaves out. -/
theorem Between.rest {e : WriteLog K V} (h : WritesOnly P s s') (cut : Between s s' e) : WritesOnly P e s' := by
  obtain ⟨ws, eq, all⟩ := h
  obtain ⟨⟨done, eqDone⟩, ⟨rest, eqRest⟩⟩ := cut
  refine ⟨rest, eqRest.symm, fun w member => all w ?_⟩
  have split : rest ++ done ++ s.log = ws ++ s.log := by
    rw [List.append_assoc, eqDone, eqRest, eq]
  rw [← List.append_cancel_right split]
  exact List.mem_append_left _ member

theorem Between.writesOnly {e : WriteLog K V} (h : WritesOnly P s s') (cut : Between s s' e) :
    WritesOnly P s e := by
  obtain ⟨ws, eq, all⟩ := h
  obtain ⟨⟨done, eqDone⟩, ⟨rest, eqRest⟩⟩ := cut
  refine ⟨done, eqDone.symm, fun w member => all w ?_⟩
  have split : rest ++ done ++ s.log = ws ++ s.log := by
    rw [List.append_assoc, eqDone, eqRest, eq]
  rw [← List.append_cancel_right split]
  exact List.mem_append_right _ member

end WriteLog
