import Scoping.Table.Enclosure

/-!
# Resolution of names

A name is looked up along two axes. Outwards: in a scope, then in the scope
around it, up to the outermost one. Through superclasses: the body of a class
answers with the members of the class and then of its superclasses, before any
scope around it is asked.

A superclass is itself found by name, outwards from the scope where the class is
defined, so that the two axes need each other. The look-ups below take the
superclass of a class as a parameter. A class found this way never lies deeper
than the class that names it, and the classes asked on the way lie less deep;
therefore `superclass`, which closes the circle, comes to an end within as many
rounds as there are scopes.
-/

namespace Scoping

namespace Table

/-- A way to tell the superclass of a class. -/
abbrev Ancestry := SymbolId → Answer (Option SymbolId)

/-- The superclasses of `x`, nearest first, up to the first one seen before. -/
def ancestorsWithin (up : Ancestry) : Nat → List SymbolId → SymbolId → Answer (List SymbolId)
  | 0, _, _ => .error .endless
  | steps + 1, seen, x => do
    match ← up x with
    | none => return []
    | some above =>
      if above ∈ seen then return []
      else return above :: (← ancestorsWithin up steps (above :: seen) above)

/-- A symbol followed by its superclasses, nearest first. -/
def chainVia (t : Table) (up : Ancestry) (x : SymbolId) : Answer (List SymbolId) :=
  return x :: (← ancestorsWithin up (t.symbols.size + 1) [x] x)

/-- The member of a struct or class by that name, its own before inherited ones. -/
def memberVia (t : Table) (up : Ancestry) (x : SymbolId) (name : Name) :
    Answer (Option SymbolId) := do
  (← t.chainVia up x).findSomeM? fun owner => do
    match ← t.body? owner with
    | none => return none
    | some body => return (← t.scope body).find? name

/-- What a single scope answers: for the body of a struct or class, a member of it. -/
def answerVia (t : Table) (up : Ancestry) (s : Scope) (name : Name) :
    Answer (Option SymbolId) := do
  match s.owner? with
  | none => return s.find? name
  | some owner =>
    if (← t.kind owner).isAggregate then t.memberVia up owner name else return s.find? name

/-- Look a name up in a scope and the scopes around it, up to the given number. -/
def lookupWithin (t : Table) (up : Ancestry) (name : Name) :
    Nat → ScopeId → Answer (Option SymbolId)
  | 0, _ => .error .endless
  | steps + 1, s => do
    let scope ← t.scope s
    match ← t.answerVia up scope name with
    | some x => return some x
    | none =>
      match scope.enclosing with
      | none => return none
      | some outer => t.lookupWithin up name steps outer

/-- Look a name up in a scope and all scopes around it. -/
def lookupVia (t : Table) (up : Ancestry) (s : ScopeId) (name : Name) :
    Answer (Option SymbolId) :=
  t.lookupWithin up name t.outwardSteps s

/-- The symbol, if it is a class. -/
def classOnly (t : Table) (x : SymbolId) : Answer (Option SymbolId) :=
  return if (← t.kind x) = .classType then some x else none

/-- The class that a class names as its superclass, found from the scope where the
class is defined. There is none before the class is defined. -/
def superclassVia (t : Table) (up : Ancestry) (x : SymbolId) : Answer (Option SymbolId) := do
  let symbol ← t.symbol x
  match symbol.form.superclassName?, symbol.owningScope? with
  | some name, some scope =>
    match ← t.lookupVia up scope name with
    | none => return none
    | some found => t.classOnly found
  | _, _ => return none

/-- The superclass of a class, found within the given number of rounds. -/
def superclassWithin (t : Table) : Nat → Ancestry
  | 0, _ => .error .endless
  | rounds + 1, x => t.superclassVia (t.superclassWithin rounds) x

/-- The superclass of a class. -/
def superclass (t : Table) : Ancestry := t.superclassWithin t.outwardSteps

/-- A symbol followed by its superclasses, nearest first. -/
def chain (t : Table) (x : SymbolId) : Answer (List SymbolId) := t.chainVia t.superclass x

/-- The superclasses of a class, nearest first. -/
def superclassChain (t : Table) (x : SymbolId) : Answer (List SymbolId) :=
  return (← t.chain x).tail

/-- Look an interned name up from a scope. -/
def resolveName (t : Table) (s : ScopeId) (name : Name) : Answer (Option SymbolId) :=
  t.lookupVia t.superclass s name

/-- Look a string up from a scope. A string that was never interned names nothing. -/
def resolve (t : Table) (s : ScopeId) (text : String) : Answer (Option SymbolId) :=
  match t.names.find? text with
  | none => return none
  | some name => t.resolveName s name

/-- Look a string up in one scope only. -/
def find? (t : Table) (s : ScopeId) (text : String) : Answer (Option SymbolId) :=
  match t.names.find? text with
  | none => return none
  | some name => return (← t.scope s).find? name

/-- Look an interned name up among the members of a struct or class. -/
def memberNamed (t : Table) (x : SymbolId) (name : Name) : Answer (Option SymbolId) :=
  t.memberVia t.superclass x name

/-- The symbol, if it is of the given kind. -/
def kindOnly (t : Table) (kind : Kind) (found : Option SymbolId) : Answer (Option SymbolId) := do
  match found with
  | none => return none
  | some x => return if (← t.kind x) = kind then some x else none

/-- Look a string up among the members of a struct or class. -/
def resolveMember (t : Table) (x : SymbolId) (text : String) : Answer (Option SymbolId) :=
  match t.names.find? text with
  | none => return none
  | some name => t.memberNamed x name

/-- Look up a field: the nearest member of that name, if it is a field. -/
def resolveField (t : Table) (x : SymbolId) (text : String) : Answer (Option SymbolId) := do
  t.kindOnly .field (← t.resolveMember x text)

/-- Look up a method: the nearest member of that name, if it is a method. -/
def resolveMethod (t : Table) (x : SymbolId) (text : String) : Answer (Option SymbolId) := do
  t.kindOnly .method (← t.resolveMember x text)

/-- Look up a method by its interned name. -/
def methodNamed (t : Table) (x : SymbolId) (name : Name) : Answer (Option SymbolId) := do
  t.kindOnly .method (← t.memberNamed x name)

/-- The scope that is asked after a scope: the body of the superclass if there is
one, or else the scope around it. -/
def parentScope? (t : Table) (s : ScopeId) : Answer (Option ScopeId) := do
  let scope ← t.scope s
  match scope.owner? with
  | none => return scope.enclosing
  | some owner =>
    match ← t.superclass owner with
    | none => return scope.enclosing
    | some above => return (← t.body? above).or scope.enclosing

end Table

end Scoping
