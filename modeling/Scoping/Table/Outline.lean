import Scoping.Table.Description

/-!
# Outlines

The outline of a scope is a list of lines. A line with the name of the scope comes
first, then a line for each symbol without a body, one level deeper, and then the
outlines of the scopes inside, also one level deeper. The lines are written one behind
the other into one text, which can become too long.
-/

namespace Scoping

/-- What a line of an outline stands for. -/
inductive OutlineItem
  | header (scope : ScopeId)
  | entry (symbol : SymbolId)
deriving DecidableEq

/-- A line of an outline and how deep it is indented. -/
structure OutlineLine where
  level : Nat
  item : OutlineItem
deriving DecidableEq

namespace Table

/-- The members of a scope that have no body. -/
def plainMembers (t : Table) (s : ScopeId) : Answer (List SymbolId) := do
  (← t.symbolsOf s).filterM fun x => return (← t.body? x).isNone

/-- The outline of a scope, down to the given depth. -/
def outlineWithin (t : Table) : Nat → Nat → ScopeId → Answer (List OutlineLine)
  | 0, _, _ => .error .endless
  | depth + 1, level, s => do
    let entries := (← t.plainMembers s).map fun x => ⟨level + 1, .entry x⟩
    let inside ← (← t.nestedScopes s).mapM (t.outlineWithin depth (level + 1))
    return ⟨level, .header s⟩ :: entries ++ inside.flatten

/-- The outline of a scope. -/
def outline (t : Table) (s : ScopeId) : Answer (List OutlineLine) :=
  t.outlineWithin t.inwardSteps 0 s

/-- The text of a line's item. -/
def itemText (t : Table) : OutlineItem → Answer String
  | .header s => t.scopeName s
  | .entry x => t.displaySymbol x

/-- The room that a line needs below it: a header needs the indent of the next
level, whether or not anything follows. -/
def roomBelow (t : Table) (line : OutlineLine) : Answer Unit :=
  match line.item with
  | .header _ => discard (t.config.columns (line.level + 1))
  | .entry _ => return

/-- The text of a line. -/
def lineText (t : Table) (line : OutlineLine) : Answer String := do
  let indent ← t.config.indent line.level
  let text ← t.itemText line.item
  return indent ++ text ++ "\n"

/-- Write a line behind those that are written. The indent and the item are parts of what is
written, so that neither is too long where the whole is not. -/
def writeLine (t : Table) (written : String) (line : OutlineLine) : Answer String := do
  let written ← Config.joined written (← t.lineText line)
  t.roomBelow line
  return written

/-- The outline of a scope as text. -/
def renderScope (t : Table) (s : ScopeId) : Answer String := do
  (← t.outline s).foldlM t.writeLine ""

/-- The outline of the whole table as text. -/
def render (t : Table) : Answer String := t.renderScope .predefined

end Table

end Scoping
