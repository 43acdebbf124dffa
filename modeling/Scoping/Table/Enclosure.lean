import Scoping.Table.Basic

/-!
# Enclosing scopes

From every scope a path leads outwards, to the predefined scope or to the body
of a symbol that is not yet defined. The path visits no scope twice, so it is no
longer than there are scopes, and a walk along it needs no more steps.
-/

namespace Scoping

namespace Table

/-- A scope and the scopes around it, up to the given number. -/
def pathWithin (t : Table) : Nat → ScopeId → Answer (List ScopeId)
  | 0, _ => .error .endless
  | steps + 1, s => do
    match ← t.enclosing? s with
    | none => return [s]
    | some outer => return s :: (← t.pathWithin steps outer)

/-- How many steps suffice for a walk outwards: one for each scope and one to stop. -/
def outwardSteps (t : Table) : Nat := t.scopes.size + 1

/-- A scope and the scopes around it, innermost first. -/
def enclosingPath (t : Table) (s : ScopeId) : Answer (List ScopeId) :=
  t.pathWithin t.outwardSteps s

/-- The outermost of a scope and the scopes around it, up to the given number. -/
def outermostWithin (t : Table) : Nat → ScopeId → Answer ScopeId
  | 0, _ => .error .endless
  | steps + 1, s => do
    match ← t.enclosing? s with
    | none => return s
    | some outer => t.outermostWithin steps outer

/-- The outermost scope around a scope. -/
def outermost (t : Table) (s : ScopeId) : Answer ScopeId :=
  t.outermostWithin t.outwardSteps s

/-- The innermost body around a scope, itself included, whose owner is of such a kind. -/
def enclosingWhere (t : Table) (s : ScopeId) (p : Kind → Bool) : Answer (Option ScopeId) := do
  (← t.enclosingPath s).findM? fun outer => do
    match ← t.scopeOwner? outer with
    | none => return false
    | some owner => return p (← t.kind owner)

/-- The innermost function or method around a scope. -/
def enclosingFunction (t : Table) (s : ScopeId) : Answer (Option SymbolId) := do
  match ← t.enclosingWhere s Kind.isFunctionLike with
  | none => return none
  | some body => t.scopeOwner? body

end Table

end Scoping
