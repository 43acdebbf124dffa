import Scoping.Table.Operation

/-!
# Histories

A caller keeps the terms of the library when every scope and symbol it names was
given out before, and every symbol it declares has a name. The tables that arise
in this way are the reachable ones. Types, sites and numbers may be anything.
-/

namespace Scoping

namespace Table

/-- The scope was given out. -/
def HasScope (t : Table) (s : ScopeId) : Prop := s.index < t.scopes.size

/-- The symbol was given out. -/
def HasSymbol (t : Table) (x : SymbolId) : Prop := x.index < t.symbols.size

instance (t : Table) (s : ScopeId) : Decidable (t.HasScope s) := Nat.decLt ..

instance (t : Table) (x : SymbolId) : Decidable (t.HasSymbol x) := Nat.decLt ..

/-- The scopes given out are those whose entry can be read. -/
theorem hasScope_iff {t : Table} {s : ScopeId} :
    t.HasScope s ↔ ∃ scope, t.scope s = .ok scope := by
  simp only [scope_eq_ok_iff, Array.getElem?_eq_some_iff]
  exact ⟨fun h => ⟨_, h, rfl⟩, fun ⟨_, h, _⟩ => h⟩

/-- The symbols given out are those whose entry can be read. -/
theorem hasSymbol_iff {t : Table} {x : SymbolId} :
    t.HasSymbol x ↔ ∃ symbol, t.symbol x = .ok symbol := by
  simp only [symbol_eq_ok_iff, Array.getElem?_eq_some_iff]
  exact ⟨fun h => ⟨_, h, rfl⟩, fun ⟨_, h, _⟩ => h⟩

end Table

namespace Operation

/-- The operation keeps the terms of the library. -/
def Proper (t : Table) : Operation → Prop
  | declare name _ => name ≠ ""
  | openScope enclosing | openBlock enclosing => t.HasScope enclosing
  | define scope symbol => t.HasScope scope ∧ t.HasSymbol symbol
  | defineBuiltins names => "" ∉ names
  | nest parent child => t.HasScope parent ∧ t.HasScope child
  | setType symbol _ | setDefSite symbol _ | setTypeIndex symbol _ => t.HasSymbol symbol
  | numberType _ _ | intern _ | requestType _ => True

instance (t : Table) (op : Operation) : Decidable (op.Proper t) := by
  cases op <;> unfold Proper <;> infer_instance

end Operation

namespace Table

/-- A run of operations from one table to another, each of which keeps the terms. -/
inductive Steps : Table → Table → Prop
  | refl (t : Table) : Steps t t
  | step {t u v : Table} {op : Operation} {outcome : Outcome} :
      Steps t u → op.Proper u → u.apply op = .ok (outcome, v) → Steps t v

/-- A table that a caller who keeps the terms can arrive at. -/
def Reachable (t : Table) : Prop := ∃ config, Steps (.new config) t

theorem Steps.trans {t u v : Table} (first : Steps t u) (second : Steps u v) : Steps t v := by
  induction second with
  | refl => exact first
  | step _ proper applied ih => exact .step ih proper applied

/-- A new table is reachable. -/
theorem reachable_new (config : Config) : Reachable (.new config) := ⟨config, .refl _⟩

/-- What is reached from a reachable table is reachable. -/
theorem Reachable.steps {t u : Table} (start : Reachable t) (run : Steps t u) : Reachable u := by
  obtain ⟨config, first⟩ := start
  exact ⟨config, first.trans run⟩

end Table

end Scoping
