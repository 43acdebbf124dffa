import Scoping.Table.Definition

/-!
# Operations

Everything that changes a table is one of the operations below, so that a history
of a table is a list of operations.
-/

namespace Scoping

/-- A change to a table. -/
inductive Operation
  | declare (name : String) (spec : Spec)
  | openScope (enclosing : ScopeId)
  | openBlock (enclosing : ScopeId)
  | define (scope : ScopeId) (symbol : SymbolId)
  | defineBuiltins (names : List String)
  | nest (parent child : ScopeId)
  | setType (symbol : SymbolId) (type : TypeId)
  | setDefSite (symbol : SymbolId) (site : DefSite)
  | setTypeIndex (symbol : SymbolId) (index : Nat)
  | numberType (type : TypeId) (index : Nat)
  | intern (text : String)
  | requestType (request : TypeRequest)
deriving DecidableEq

/-- What an operation that was carried out answers. -/
inductive Reply
  | done
  | symbol (id : SymbolId)
  | scope (id : ScopeId)
  | name (id : Name)
  | type (id : TypeId)
  | symbols (ids : List SymbolId)
deriving DecidableEq

/-- The reply to an operation, or why it was refused. -/
abbrev Outcome := Except Refusal Reply

namespace Table

/-- The outcome of a change that is refused or leads to a new table. -/
def outcomeOf (t : Table) : Except Refusal Table → Outcome × Table
  | .error refusal => (.error refusal, t)
  | .ok t => (.ok .done, t)

/-- Carry out an operation. -/
def apply (t : Table) : Operation → Answer (Outcome × Table)
  | .declare text spec => do
    let (x, t) ← t.declare text spec
    return (.ok (.symbol x), t)
  | .openScope enclosing =>
    let (s, t) := t.openScope enclosing
    return (.ok (.scope s), t)
  | .openBlock enclosing => do
    let (s, t) ← t.openBlock enclosing
    return (.ok (.scope s), t)
  | .define s x => return t.outcomeOf (← t.define s x)
  | .defineBuiltins names => do
    let (defined, t) ← t.defineBuiltins names
    return (defined.map .symbols, t)
  | .nest parent child => return t.outcomeOf (← t.nest parent child)
  | .setType x type => return t.outcomeOf (← t.setType x type)
  | .setDefSite x site => return (.ok .done, ← t.setDefSite x site)
  | .setTypeIndex x index => return (.ok .done, ← t.setTypeIndex x index)
  | .numberType type index => return (.ok .done, t.numberType type index)
  | .intern text =>
    let (name, t) := t.intern text
    return (.ok (.name name), t)
  | .requestType request =>
    let (id, t) := t.requestType request
    return (.ok (.type id), t)

/-- Carry out operations one after the other. A refused one does not stop the rest. -/
def run (t : Table) : List Operation → Answer (List Outcome × Table)
  | [] => return ([], t)
  | op :: ops => do
    let (outcome, t) ← t.apply op
    let (outcomes, t) ← t.run ops
    return (outcome :: outcomes, t)

end Table

end Scoping
