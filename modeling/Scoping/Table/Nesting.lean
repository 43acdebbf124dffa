import Scoping.Table.Enclosure

/-!
# Nested scopes

Seen from outside, a scope contains the bodies of its members and its blocks, and
what these contain. Lists of what lies below a scope give each level in full
before they go deeper, scope by scope. Nothing lies deeper than there are scopes.
-/

namespace Scoping

namespace Table

/-- The bodies of the members of a scope. -/
def bodiesOf (t : Table) (s : ScopeId) : Answer (List ScopeId) :=
  return (← (← t.symbolsOf s).mapM t.body?).filterMap id

/-- The scopes directly inside a scope: the bodies of its members, then its blocks. -/
def nestedScopes (t : Table) (s : ScopeId) : Answer (List ScopeId) :=
  return (← t.bodiesOf s) ++ (← t.scope s).blocks.toList

/-- The scopes inside a scope, down to the given depth, when `direct` lists those
directly inside. -/
def belowWithin (direct : ScopeId → Answer (List ScopeId)) :
    Nat → ScopeId → Answer (List ScopeId)
  | 0, _ => .error .endless
  | depth + 1, s => do
    let inside ← direct s
    return inside ++ (← inside.mapM (belowWithin direct depth)).flatten

/-- How deep scopes can be nested, and one more to stop. -/
def inwardSteps (t : Table) : Nat := t.scopes.size + 1

/-- The bodies inside a scope at any depth, reached through bodies only. -/
def allBodies (t : Table) (s : ScopeId) : Answer (List ScopeId) :=
  belowWithin t.bodiesOf t.inwardSteps s

/-- The scopes inside a scope at any depth. -/
def allNestedScopes (t : Table) (s : ScopeId) : Answer (List ScopeId) :=
  belowWithin t.nestedScopes t.inwardSteps s

/-- The symbols of a scope and of the bodies inside it, down to the given depth. -/
def allSymbolsWithin (t : Table) : Nat → ScopeId → Answer (List SymbolId)
  | 0, _ => .error .endless
  | depth + 1, s => do
    let members ← t.symbolsOf s
    return members ++ (← (← t.bodiesOf s).mapM (t.allSymbolsWithin depth)).flatten

/-- The symbols of a scope and of the bodies inside it at any depth. -/
def allSymbols (t : Table) (s : ScopeId) : Answer (List SymbolId) :=
  t.allSymbolsWithin t.inwardSteps s

end Table

end Scoping
