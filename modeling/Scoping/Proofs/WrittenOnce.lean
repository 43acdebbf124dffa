import Scoping.Proofs.Carried
import Scoping.Proofs.Dispatch
import Scoping.Proofs.SlotOrigins

/-!
# Written once

The place and the slot of a symbol are set when it is defined, and a scope is put inside
another once. After that no operation, refused or not, changes them. The fields and methods
that are defined in structs and classes have slots, and no other symbols do.
-/

namespace Scoping

namespace Table

variable {t u : Table} {s : ScopeId} {x m D : SymbolId} {k : Kind} {v : Nat}

theorem slot?_eq_ok_iff : t.slot? x = .ok (some v) ↔ t.slotAt x = some v := by
  rw [slot?, Answer.bind_eq_ok_iff, slotAt, Option.bind_eq_some_iff]
  simp only [Answer.pure_eq_ok, Except.ok.injEq, symbol_eq_ok_iff]

theorem slotted_of_slot? {form : Form} (taken : form.slot? = some v) : form.kind.Slotted := by
  cases form with
  | field => exact .inl rfl
  | method => exact .inr rfl
  | _ => cases taken

/-- The fields and methods in structs and classes have slots, and nothing else does. -/
theorem Reachable.slotAt_isSome_iff (reachable : t.Reachable) :
    (∃ v, t.slotAt x = some v) ↔ ∃ D k, k.Slotted ∧ x ∈ t.own k D := by
  obtain ⟨r, rfl⟩ := reachable.exists_run
  constructor
  · rintro ⟨v, taken⟩
    obtain ⟨D, member⟩ := Run.mem_contents_of_slotAt taken
    obtain ⟨a, entry, slot⟩ := Option.bind_eq_some_iff.mp taken
    have kind : r.final.kindAt x = some a.kind := kindAt_of_symbol (symbol_eq_ok_iff.mpr entry)
    exact ⟨D, a.kind, slotted_of_slot? slot, mem_own.mpr ⟨member, kind⟩⟩
  · rintro ⟨D, k, slotted, member⟩
    exact Run.exists_slotAt slotted member

/-- No operation changes a slot that was given. -/
theorem Reachable.slotAt_apply {op : Operation} {outcome : Outcome} (reachable : t.Reachable)
    (proper : op.Proper t) (applied : t.apply op = .ok (outcome, u))
    (taken : t.slotAt x = some v) : u.slotAt x = some v := by
  obtain ⟨r, i, rfl, rfl⟩ := reachable.exists_step proper applied
  obtain ⟨D, member⟩ := Run.mem_contents_of_slotAt taken
  rw [Run.slotAt_stays member (Nat.le_succ i), taken]

/-- In every reachable table the fields and methods that are defined in structs and classes
have slots, and no other symbols do. Every operation is carried out or refused, and in both
cases it leaves alone the places, positions and slots that were set before, the names,
kinds, bodies and own types of all symbols, and the scope around each enclosed scope. -/
theorem Reachable.written_once (reachable : t.Reachable) :
    (∀ x, (∃ v, t.slot? x = .ok (some v)) ↔
      ∃ D k, t.IsAggregate D ∧ t.Member D x k ∧ (k = .field ∨ k = .method)) ∧
    ∀ op, op.Proper t → ∃ outcome u, t.apply op = .ok (outcome, u) ∧
      (∀ x, t.HasSymbol x →
        (∀ s, t.owningScope? x = .ok (some s) → u.owningScope? x = .ok (some s)) ∧
        (∀ i, t.insertionOrder? x = .ok (some i) → u.insertionOrder? x = .ok (some i)) ∧
        (∀ v, t.slot? x = .ok (some v) → u.slot? x = .ok (some v)) ∧
        u.symbolName x = t.symbolName x ∧ u.name x = t.name x ∧ u.kind x = t.kind x ∧
        u.body? x = t.body? x ∧ u.asType? x = t.asType? x) ∧
      ∀ s o, t.enclosing? s = .ok (some o) → u.enclosing? s = .ok (some o) := by
  have consistent := reachable.consistent
  refine ⟨fun x => ?_, fun op proper => ?_⟩
  · simp only [slot?_eq_ok_iff, reachable.slotAt_isSome_iff, consistent.mem_own_iff]
    constructor
    · rintro ⟨D, k, slotted, aggregate, member⟩
      exact ⟨D, k, aggregate, member, slotted⟩
    · rintro ⟨D, k, aggregate, member, slotted⟩
      exact ⟨D, k, slotted, aggregate, member⟩
  · obtain ⟨outcome, u, applied⟩ := reachable.exists_apply proper
    have keeps := Keeps.steps consistent (.step (.refl t) proper applied)
    refine ⟨outcome, u, applied, fun x given => ?_, fun s o => keeps.enclosing?_eq⟩
    refine ⟨fun s => keeps.owningScope?_eq, fun i => keeps.insertionOrder?_eq, fun v taken => ?_,
      keeps.symbolName_eq reachable.named given, keeps.fixed_eq given⟩
    rw [slot?_eq_ok_iff] at taken ⊢
    exact reachable.slotAt_apply proper applied taken

/-- Two classes that extend each other. The method that is defined in the first one is what
is found above it by that name, and it gets a slot all the same. -/
def circular : Run where
  config := {}
  operations := [
    .declare "A" (.classType (some "B")), .define .global ⟨0⟩,
    .declare "B" (.classType (some "A")), .define .global ⟨1⟩,
    .declare "m" (.method none), .define ⟨2⟩ ⟨2⟩,
    .declare "m" (.method none)]
  accepted := by decide +kernel

/-- A second method of that name, in the other class, overrides the first and changes
nothing about it. -/
theorem circular_written_once : circular.final.Reachable ∧
    (Operation.define ⟨3⟩ ⟨3⟩).Proper circular.final ∧
    circular.final.slot? ⟨2⟩ = .ok (some 0) ∧
    (∃ D k, circular.final.IsAggregate D ∧ circular.final.Member D ⟨2⟩ k ∧
      (k = .field ∨ k = .method)) ∧
    ∃ outcome u, circular.final.apply (.define ⟨3⟩ ⟨3⟩) = .ok (outcome, u) ∧
      u.slot? ⟨2⟩ = .ok (some 0) := by
  have reachable := circular.reachable circular.operations.length
  obtain ⟨slotted, operations⟩ := Reachable.written_once reachable
  have proper : (Operation.define ⟨3⟩ ⟨3⟩).Proper circular.final := by decide +kernel
  have taken : circular.final.slot? ⟨2⟩ = .ok (some 0) := by decide +kernel
  obtain ⟨outcome, u, applied, symbols, _⟩ := operations _ proper
  obtain ⟨_, _, slot, _⟩ := symbols ⟨2⟩ (by decide +kernel)
  exact ⟨reachable, proper, taken, (slotted ⟨2⟩).mp ⟨0, taken⟩, outcome, u, applied, slot 0 taken⟩

end Table

end Scoping
