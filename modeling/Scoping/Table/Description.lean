import Scoping.Table.Nesting

/-!
# Symbols and scopes as text

A scope is written by the names on its path, outermost first for a qualified
name. A symbol is written by its scope and name, with its declared type if it has
one.
-/

namespace Scoping

namespace Table

/-- The names of a scope and those around it, innermost first. -/
def scopeStackText (t : Table) (s : ScopeId) (separator : String) : Answer String :=
  return separator.intercalate (← (← t.enclosingPath s).mapM t.scopeName)

/-- The names of a scope and those around it, outermost first. -/
def qualifier (t : Table) (s : ScopeId) (separator : String) : Answer String :=
  return separator.intercalate (← (← t.enclosingPath s).reverse.mapM t.scopeName)

/-- The name of a symbol behind the qualifier of its scope. A symbol that is not
defined has none. -/
def fullyQualifiedName (t : Table) (x : SymbolId) (separator : String) : Answer String := do
  match ← t.owningScope? x with
  | none => t.symbolName x
  | some s => return (← t.qualifier s separator) ++ separator ++ (← t.symbolName x)

/-- The fully qualified name with the configured separator. -/
def qualifiedName (t : Table) (x : SymbolId) : Answer String :=
  t.fullyQualifiedName x t.config.pathSeparator

/-- The name of a symbol behind the name of its scope alone. -/
def scopedName (t : Table) (x : SymbolId) (separator : String) : Answer String := do
  match ← t.owningScope? x with
  | none => t.symbolName x
  | some s => return (← t.scopeName s) ++ separator ++ (← t.symbolName x)

/-- The scoped names of all symbols of a scope and of the bodies inside it. -/
def contentsText (t : Table) (s : ScopeId) : Answer String :=
  return ", ".intercalate
    (← (← t.allSymbols s).mapM (t.scopedName · t.config.pathSeparator))

/-- The text of a declared type. A struct or class of the table is written by its
qualified name. -/
def displayType (t : Table) (type : TypeId) : Answer String := do
  match ← t.types.read type with
  | .aggregate declared _ =>
    if declared.index < t.symbolCount then t.fullyQualifiedName declared "."
    else t.types.write t.names type
  | _ => t.types.write t.names type

/-- The scoped name of a symbol, and its declared type if it has one. -/
def displaySymbol (t : Table) (x : SymbolId) : Answer String := do
  let text ← t.scopedName x "."
  match ← t.declaredType? x with
  | none => return text
  | some type => return s!"<{text}:{← t.displayType type}>"

end Table

end Scoping
