import Scoping.Proofs.FlagTraversal
import Scoping.Proofs.TypeText
import Scoping.Proofs.Walk

/-!
# Chains of aliases

An alias stands for its target, which may be an alias again. Where types are made of older
types only, every step from an alias to its target makes the handle smaller, so the steps
come to an end, at a type that is no alias. A type in which no alias occurs is where its own
steps end.
-/

namespace Scoping

namespace Pool

variable {pool : Pool} {t u target : TypeId} {path : List TypeId}

/-- From an alias one goes on to its target. -/
def aliasStep (pool : Pool) (t : TypeId) : Answer (Option TypeId) := do
  match ← pool.read t with
  | .typeAlias _ _ target => return some target
  | _ => return none

theorem Laid.aliasStep_eq_ok_iff (laid : pool.Laid) {step : Option TypeId} :
    pool.aliasStep t = .ok step ↔ pool.aliasTarget? t = step := by
  rw [aliasStep, laid.read_eq, aliasTarget?, Answer.ok_bind]
  cases pool.expr t <;> simp

theorem Laid.aliasTarget?_eq_none_iff (laid : pool.Laid) :
    pool.aliasTarget? t = none ↔ pool.tag t ≠ .typeAlias := by
  rw [← laid.tag_expr, aliasTarget?]
  cases pool.expr t <;> simp [TypeExpr.tag]

/-- What can be said of the type behind all aliases: the steps from the type end there, it is no
alias, and it is the type itself unless this is an alias. -/
structure Resolved (pool : Pool) (t : TypeId) : Prop where
  ends : ∃ path, Walk pool.aliasStep t path ∧ path.getLast? = some (pool.resolveAlias t)
  real : pool.tag (pool.resolveAlias t) ≠ .typeAlias
  atMost : (pool.resolveAlias t).index ≤ t.index
  idempotent : pool.resolveAlias (pool.resolveAlias t) = pool.resolveAlias t
  self : pool.resolveAlias t = t ↔ pool.tag t ≠ .typeAlias
  target : pool.tag t = .typeAlias → ∃ target, pool.aliasTarget? t = some target ∧
    pool.resolveAlias t = pool.resolveAlias target
  unflagged : (pool.flags t).hasAlias = false → pool.resolveAlias t = t

theorem part_of_aliasTarget? (goes : pool.aliasTarget? t = some target) : pool.Part t target :=
  .inr (.inr (.inr (.inr goes)))

theorem resolveAlias_of_not_alias (ends : pool.aliasTarget? t = none) :
    pool.resolveAlias t = t := by
  simp only [resolveAlias, resolveAliasWithin, ends]

/-- However many steps may be taken beyond those of a walk, they lead to its last type. -/
theorem Laid.resolveAliasWithin_of_walk (laid : pool.Laid) (walk : Walk pool.aliasStep t path)
    {steps : Nat} (enough : path.length ≤ steps + 1) :
    path.getLast? = some (pool.resolveAliasWithin steps t) := by
  induction walk generalizing steps with
  | @stop t ends =>
    have none := laid.aliasStep_eq_ok_iff.mp ends
    cases steps with
    | zero => rfl
    | succ steps => simp only [resolveAliasWithin, none, List.getLast?_singleton]
  | @step t target path goes further ih =>
    have goes := laid.aliasStep_eq_ok_iff.mp goes
    obtain ⟨rest, rfl⟩ := further.eq_cons
    rw [List.length_cons, List.length_cons] at enough
    obtain ⟨steps, rfl⟩ : ∃ k, steps = k + 1 := ⟨steps - 1, by omega⟩
    rw [resolveAliasWithin, goes, List.getLast?_cons_cons]
    exact ih (by rw [List.length_cons]; omega)

namespace Older

variable (older : pool.Older) (laid : pool.Laid)
include older laid

/-- The steps from an alias to its target come to an end. -/
theorem exists_walk (t : TypeId) : ∃ path, Walk pool.aliasStep t path := by
  induction age : t.index using Nat.strongRecOn generalizing t with
  | _ n ih =>
    cases goes : pool.aliasTarget? t with
    | none => exact ⟨[t], .stop (laid.aliasStep_eq_ok_iff.mpr goes)⟩
    | some target =>
      have falls := older t target (part_of_aliasTarget? goes)
      obtain ⟨path, walk⟩ := ih target.index (age ▸ falls) target rfl
      exact ⟨t :: path, .step (laid.aliasStep_eq_ok_iff.mpr goes) walk⟩

theorem length_le_index (walk : Walk pool.aliasStep t path) : path.length ≤ t.index + 1 := by
  induction walk with
  | stop _ => simp
  | @step t target path goes _ ih =>
    have falls := older t target (part_of_aliasTarget? (laid.aliasStep_eq_ok_iff.mp goes))
    rw [List.length_cons]
    omega

/-- As only types of the pool have targets, the steps end before the pool runs out of types. -/
theorem getLast?_of_walk (walk : Walk pool.aliasStep t path) :
    path.getLast? = some (pool.resolveAlias t) := by
  refine laid.resolveAliasWithin_of_walk walk ?_
  cases id walk with
  | stop _ => simp
  | @step _ target path goes _ =>
    have there := contains_of_part (part_of_aliasTarget? (laid.aliasStep_eq_ok_iff.mp goes))
    have within : t.index < pool.size := contains_iff_lt.mp there
    have short := older.length_le_index laid walk
    omega

theorem tag_resolveAlias (t : TypeId) : pool.tag (pool.resolveAlias t) ≠ .typeAlias := by
  obtain ⟨path, walk⟩ := older.exists_walk laid t
  obtain ⟨last, ends, stops⟩ := walk.next_getLast
  cases ends.symm.trans (older.getLast?_of_walk laid walk)
  exact laid.aliasTarget?_eq_none_iff.mp (laid.aliasStep_eq_ok_iff.mp stops)

theorem resolveAlias_of_target (goes : pool.aliasTarget? t = some target) :
    pool.resolveAlias t = pool.resolveAlias target := by
  obtain ⟨path, walk⟩ := older.exists_walk laid target
  have longer : Walk pool.aliasStep t (t :: path) :=
    .step (laid.aliasStep_eq_ok_iff.mpr goes) walk
  have last := older.getLast?_of_walk laid longer
  obtain ⟨rest, rfl⟩ := walk.eq_cons
  rw [List.getLast?_cons_cons, older.getLast?_of_walk laid walk] at last
  exact (Option.some.inj last).symm

theorem index_resolveAlias_le (t : TypeId) : (pool.resolveAlias t).index ≤ t.index := by
  obtain ⟨path, walk⟩ := older.exists_walk laid t
  induction walk with
  | @stop t ends =>
    have same := resolveAlias_of_not_alias (laid.aliasStep_eq_ok_iff.mp ends)
    exact Nat.le_of_eq (congrArg TypeId.index same)
  | @step t target path goes _ ih =>
    have goes := laid.aliasStep_eq_ok_iff.mp goes
    have falls := older t target (part_of_aliasTarget? goes)
    rw [older.resolveAlias_of_target laid goes]
    omega

theorem resolveAlias_eq_self_iff : pool.resolveAlias t = t ↔ pool.tag t ≠ .typeAlias := by
  constructor
  · intro same
    exact same ▸ older.tag_resolveAlias laid t
  · exact fun other => resolveAlias_of_not_alias (laid.aliasTarget?_eq_none_iff.mpr other)

end Older

end Pool

namespace TypeStore

variable {l : List TypeCall} {t : TypeId}

theorem older_of_grounded (grounded : ∀ u, Grounded l u) : (start.calls l).pool.Older :=
  fun t _ part => ((grounded t).part_before (Pool.contains_of_part part) part).2

/-- Every alias has a target. -/
theorem exists_target (tag : (start.calls l).pool.tag t = .typeAlias) :
    ∃ target, (start.calls l).pool.aliasTarget? t = some target := by
  have laid := (sound_start.calls l).canonical.indexed.laid
  cases goes : (start.calls l).pool.aliasTarget? t with
  | none => exact absurd tag (laid.aliasTarget?_eq_none_iff.mp goes)
  | some target => exact ⟨target, rfl⟩

/-- In a pool whose constructor calls all used types of the pool, every type is made of types
with smaller handles. From every handle the steps from alias to target end, at the type behind
all aliases, and every handle has a text. -/
theorem alias_resolution (l : List TypeCall) (grounded : ∀ u, Grounded l u) :
    (∀ t u, (start.calls l).pool.Part t u → u.index < t.index) ∧
    (∀ t, (start.calls l).pool.Resolved t) ∧
    ∀ names t, ∃ text, (start.calls l).pool.write names t = .ok text := by
  have laid := (sound_start.calls l).canonical.indexed.laid
  have older := older_of_grounded grounded
  refine ⟨older, fun t => ?_, fun names t => laid.exists_write names (older.acyclic.not_endless t)⟩
  constructor
  case ends =>
    obtain ⟨path, walk⟩ := older.exists_walk laid t
    exact ⟨path, walk, older.getLast?_of_walk laid walk⟩
  case real => exact older.tag_resolveAlias laid t
  case atMost => exact older.index_resolveAlias_le laid t
  case idempotent =>
    exact (older.resolveAlias_eq_self_iff laid).mpr (older.tag_resolveAlias laid t)
  case self => exact older.resolveAlias_eq_self_iff laid
  case target =>
    intro tag
    obtain ⟨target, goes⟩ := exists_target tag
    exact ⟨target, goes, older.resolveAlias_of_target laid goes⟩
  case unflagged =>
    intro without
    refine (older.resolveAlias_eq_self_iff laid).mpr fun tag => ?_
    -- an alias occurs in itself, and its flags tell
    obtain ⟨target, goes⟩ := exists_target tag
    have contained := Pool.contains_of_part (Pool.part_of_aliasTarget? goes)
    have told := (passed_iff grounded Flags.passed_hasAlias contained).mpr ⟨t, .refl, tag⟩
    rw [without] at told
    cases told

/-- An alias of an alias that is asked for twice, and a pointer to it. -/
theorem alias_resolution_twice :
    let l : List TypeCall := [.request (.primitive ⟨0⟩), .request (.typeAlias ⟨0⟩ ⟨0⟩ ⟨1⟩),
      .request (.typeAlias ⟨1⟩ ⟨0⟩ ⟨2⟩), .request (.typeAlias ⟨0⟩ ⟨0⟩ ⟨1⟩),
      .request (.pointer ⟨3⟩)]
    (∀ u, Grounded l u) ∧ (start.calls l).pool.resolveAlias ⟨3⟩ = ⟨1⟩ ∧
    (start.calls l).pool.resolveAlias ⟨4⟩ = ⟨4⟩ ∧
    (start.calls l).pool.resolveAlias ⟨9⟩ = ⟨9⟩ ∧
    (∃ target, (start.calls l).pool.aliasTarget? ⟨3⟩ = some target ∧
      (start.calls l).pool.resolveAlias ⟨3⟩ = (start.calls l).pool.resolveAlias target) ∧
    ∀ names, ∃ text, (start.calls l).pool.write names ⟨4⟩ = .ok text := by
  intro l
  have grounded : ∀ u, Grounded l u := by
    intro u i r asked _
    match i, asked with
    | 0, asked | 1, asked | 2, asked | 3, asked | 4, asked =>
      cases asked
      decide +kernel
  obtain ⟨_, resolved, written⟩ := alias_resolution l grounded
  exact ⟨grounded, by decide +kernel, (resolved ⟨4⟩).self.mpr (by decide +kernel),
    (resolved ⟨9⟩).unflagged (by decide +kernel), (resolved ⟨3⟩).target (by decide +kernel),
    fun names => written names ⟨4⟩⟩

end TypeStore

end Scoping
