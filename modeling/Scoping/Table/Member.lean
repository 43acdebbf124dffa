import Scoping.Table.Resolution

/-!
# Members of structs and classes

The members defined in a struct or class are listed in the order of definition.
The members visible in it come from its superclasses first, the furthest one
before the others, and a member of a name that is already listed takes the place
of the one listed.
-/

namespace Scoping

namespace Table

/-- The members of a symbol's body that are of the given kind. -/
def definedMembers (t : Table) (kind : Kind) (x : SymbolId) : Answer (List SymbolId) := do
  match ← t.body? x with
  | none => return []
  | some body => (← t.symbolsOf body).filterM fun member => return (← t.kind member) = kind

/-- The fields defined in a struct or class. -/
def definedFields (t : Table) (x : SymbolId) : Answer (List SymbolId) := t.definedMembers .field x

/-- The methods defined in a struct or class. -/
def definedMethods (t : Table) (x : SymbolId) : Answer (List SymbolId) := t.definedMembers .method x

/-- List a member: in the place of the first one of its name, or else at the end. -/
def override (t : Table) (listed : List SymbolId) (member : SymbolId) :
    Answer (List SymbolId) :=
  match listed with
  | [] => return [member]
  | first :: rest => do
    if ← t.symbolsEqual first member then return member :: rest
    else return first :: (← t.override rest member)

/-- The members visible in a struct or class that are of the given kind. -/
def visibleMembers (t : Table) (kind : Kind) (x : SymbolId) : Answer (List SymbolId) := do
  if (← t.kind x).isAggregate then
    let chain ← t.chain x
    chain.reverse.foldlM (fun listed owner => do
      (← t.definedMembers kind owner).foldlM t.override listed) []
  else return []

/-- The fields visible in a struct or class. -/
def fields (t : Table) (x : SymbolId) : Answer (List SymbolId) := t.visibleMembers .field x

/-- The methods visible in a struct or class. -/
def methods (t : Table) (x : SymbolId) : Answer (List SymbolId) := t.visibleMembers .method x

/-- How many fields are visible in a struct or class. -/
def fieldCount (t : Table) (x : SymbolId) : Answer Nat := return (← t.fields x).length

/-- How many methods are visible in a struct or class. An override counts once. -/
def methodCount (t : Table) (x : SymbolId) : Answer Nat := return (← t.methods x).length

/-- A struct or class as a type. -/
def aggregateType? (t : Table) (x : SymbolId) : Answer (Option TypeId) :=
  return (← t.symbol x).form.layout?.map Layout.type

/-- How many symbols in a symbol's body are of such a kind. -/
def countInBody (t : Table) (p : Kind → Bool) (x : SymbolId) : Answer Nat := do
  match ← t.body? x with
  | none => return 0
  | some body => return ((← (← t.symbolsOf body).mapM t.kind).filter p).length

/-- How many fields are defined in a struct or class. -/
def definedFieldCount (t : Table) (x : SymbolId) : Answer Nat :=
  t.countInBody (fun kind => kind = .field) x

/-- How many methods are defined in a struct or class. -/
def definedMethodCount (t : Table) (x : SymbolId) : Answer Nat :=
  t.countInBody (fun kind => kind = .method) x

/-- How many variables and parameters are declared in a function's body. -/
def variableCount (t : Table) (x : SymbolId) : Answer Nat :=
  t.countInBody (fun kind => kind = .var ∨ kind = .param) x

/-- How many parameters are declared in a function's body. -/
def parameterCount (t : Table) (x : SymbolId) : Answer Nat :=
  t.countInBody (fun kind => kind = .param) x

end Table

end Scoping
