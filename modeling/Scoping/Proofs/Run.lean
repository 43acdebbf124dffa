import Scoping.Proofs.Consistency

/-!
# Runs

A run starts with a new table and carries out one operation after the other, all of
which keep the terms. Its states are numbered from 0, and operation `i` leads from
state `i` to state `i + 1`. Behind the last operation the state stays the same.
-/

namespace Scoping

namespace Table

variable {t u : Table} {ops : List Operation} {op : Operation} {i : Nat}

/-- Each operation keeps the terms when its turn comes, and is carried out. -/
def Accepts (t : Table) : List Operation → Prop
  | [] => True
  | op :: ops => op.Proper t ∧
    match t.apply op with
    | .ok (_, u) => u.Accepts ops
    | .error _ => False

instance decidableAccepts (t : Table) : (ops : List Operation) → Decidable (t.Accepts ops)
  | [] => .isTrue trivial
  | op :: ops => @instDecidableAnd _ _ _ <|
    match t.apply op with
    | .ok (_, u) => decidableAccepts u ops
    | .error _ => .isFalse id

/-- The table after so many of the operations. -/
def stateAt (t : Table) : List Operation → Nat → Table
  | op :: ops, i + 1 =>
    match t.apply op with
    | .ok (_, u) => u.stateAt ops i
    | .error _ => t
  | _, _ => t

@[simp]
theorem stateAt_zero : t.stateAt ops 0 = t := by cases ops <;> rfl

theorem Accepts.step (accepts : t.Accepts (op :: ops)) :
    op.Proper t ∧ ∃ outcome u, t.apply op = .ok (outcome, u) ∧ u.Accepts ops ∧
      ∀ i, t.stateAt (op :: ops) (i + 1) = u.stateAt ops i := by
  obtain ⟨proper, rest⟩ := accepts
  refine ⟨proper, ?_⟩
  cases applied : t.apply op with
  | error e => rw [applied] at rest; cases rest
  | ok result =>
    rw [applied] at rest
    refine ⟨result.1, result.2, rfl, rest, fun i => ?_⟩
    rw [stateAt, applied]

theorem Accepts.applied (accepts : t.Accepts ops) (nth : ops[i]? = some op) :
    op.Proper (t.stateAt ops i) ∧
      ∃ outcome, (t.stateAt ops i).apply op = .ok (outcome, t.stateAt ops (i + 1)) := by
  induction ops generalizing t i with
  | nil => simp at nth
  | cons first ops ih =>
    obtain ⟨proper, outcome, u, applied, rest, later⟩ := accepts.step
    cases i with
    | zero =>
      cases nth
      refine ⟨proper, outcome, ?_⟩
      rw [later, stateAt_zero, stateAt_zero]
      exact applied
    | succ i =>
      rw [later, later]
      exact ih rest nth

theorem Accepts.stateAt_of_le (accepts : t.Accepts ops) (behind : ops.length ≤ i) :
    t.stateAt ops i = t.stateAt ops ops.length := by
  induction ops generalizing t i with
  | nil => cases i <;> rfl
  | cons first ops ih =>
    obtain ⟨_, _, u, _, rest, later⟩ := accepts.step
    obtain ⟨i, rfl⟩ : ∃ k, i = k + 1 := ⟨i - 1, by simp at behind; omega⟩
    rw [List.length_cons] at behind ⊢
    rw [later, later]
    exact ih rest (Nat.le_of_succ_le_succ behind)

/-- Operations that follow change nothing about the states before. -/
theorem Accepts.stateAt_append (accepts : t.Accepts ops) (within : i ≤ ops.length)
    (more : List Operation) : t.stateAt (ops ++ more) i = t.stateAt ops i := by
  induction ops generalizing t i with
  | nil =>
    obtain rfl : i = 0 := Nat.le_zero.mp within
    rw [stateAt_zero, stateAt_zero]
  | cons first ops ih =>
    obtain ⟨_, outcome, u, applied, rest, later⟩ := accepts.step
    cases i with
    | zero => rw [stateAt_zero, stateAt_zero]
    | succ i =>
      rw [later, List.cons_append, stateAt, applied]
      exact ih rest (Nat.le_of_succ_le_succ within)

/-- Operations that are all accepted may be followed by one more. -/
theorem Accepts.concat {outcome : Outcome} (accepts : t.Accepts ops)
    (proper : op.Proper (t.stateAt ops ops.length))
    (applied : (t.stateAt ops ops.length).apply op = .ok (outcome, u)) :
    t.Accepts (ops ++ [op]) ∧ t.stateAt (ops ++ [op]) (ops.length + 1) = u := by
  induction ops generalizing t with
  | nil =>
    rw [List.length_nil, stateAt_zero] at proper applied
    rw [List.nil_append, List.length_nil, Accepts, stateAt, applied]
    exact ⟨⟨proper, trivial⟩, stateAt_zero⟩
  | cons first ops ih =>
    obtain ⟨proper', _, v, applied', rest, later⟩ := accepts.step
    rw [List.length_cons, later] at proper applied
    obtain ⟨longer, last⟩ := ih rest proper applied
    rw [List.cons_append, List.length_cons, Accepts, stateAt, applied']
    exact ⟨⟨proper', longer⟩, last⟩

end Table

open Table

/-- A run of operations that keep the terms, from a new table on. -/
structure Run where
  config : Config
  operations : List Operation
  accepted : (Table.new config).Accepts operations

namespace Run

variable {r : Run} {op : Operation} {i : Nat}

/-- The table before operation `i`. -/
def state (r : Run) (i : Nat) : Table := (Table.new r.config).stateAt r.operations i

/-- The table after all operations. -/
def final (r : Run) : Table := r.state r.operations.length

theorem state_zero : r.state 0 = .new r.config := stateAt_zero

theorem applied (nth : r.operations[i]? = some op) :
    op.Proper (r.state i) ∧ ∃ outcome, (r.state i).apply op = .ok (outcome, r.state (i + 1)) :=
  r.accepted.applied nth

theorem state_of_le (behind : r.operations.length ≤ i) : r.state i = r.final :=
  r.accepted.stateAt_of_le behind

theorem idle (behind : r.operations[i]? = none) : r.state (i + 1) = r.state i := by
  have short := List.getElem?_eq_none_iff.mp behind
  rw [state_of_le short, state_of_le (Nat.le_succ_of_le short)]

theorem steps_of_le (r : Run) {j : Nat} (later : i ≤ j) : Steps (r.state i) (r.state j) := by
  induction later with
  | refl => exact .refl _
  | @step j _ ih =>
    cases nth : r.operations[j]? with
    | none => rwa [idle nth]
    | some op =>
      obtain ⟨proper, outcome, applied⟩ := applied nth
      exact .step ih proper applied

theorem steps (r : Run) (i : Nat) : Steps (.new r.config) (r.state i) := by
  rw [← state_zero]
  exact r.steps_of_le (Nat.zero_le i)

theorem reachable (r : Run) (i : Nat) : (r.state i).Reachable := ⟨r.config, r.steps i⟩

theorem consistent (r : Run) (i : Nat) : (r.state i).Consistent := (r.reachable i).consistent

/-- Operation `i` is carried out and answers so. -/
def Replies (r : Run) (i : Nat) (op : Operation) (reply : Reply) : Prop :=
  r.operations[i]? = some op ∧ ((r.state i).apply op).map Prod.fst = .ok (.ok reply)

end Run

/-- Every reachable table is the last of a run. -/
theorem Table.Reachable.exists_run {t : Table} (reachable : t.Reachable) :
    ∃ r : Run, r.final = t := by
  obtain ⟨config, steps⟩ := reachable
  induction steps with
  | refl => exact ⟨⟨config, [], trivial⟩, rfl⟩
  | @step u v op outcome _ proper applied ih =>
    obtain ⟨r, rfl⟩ := ih
    obtain ⟨longer, last⟩ := r.accepted.concat proper applied
    refine ⟨⟨r.config, r.operations ++ [op], longer⟩, ?_⟩
    rw [Run.final, Run.state, List.length_append, List.length_singleton]
    exact last

/-- An operation on a reachable table is a step of a run. -/
theorem Table.Reachable.exists_step {t u : Table} {op : Operation} {outcome : Outcome}
    (reachable : t.Reachable) (proper : op.Proper t) (applied : t.apply op = .ok (outcome, u)) :
    ∃ (r : Run) (i : Nat), r.state i = t ∧ r.state (i + 1) = u := by
  obtain ⟨r, rfl⟩ := reachable.exists_run
  obtain ⟨longer, last⟩ := r.accepted.concat proper applied
  refine ⟨⟨r.config, r.operations ++ [op], longer⟩, r.operations.length, ?_, last⟩
  exact r.accepted.stateAt_append (Nat.le_refl _) [op]

end Scoping
