import Scoping.Config
import Scoping.Fault
import Scoping.Scope.Basic
import Scoping.Symbol.Basic
import Scoping.Types.Format

/-!
# Symbol tables

A table owns the names, types, scopes and symbols of one program. Scopes and
symbols refer to each other by handles only. To read the entry of a handle that
was never given out is a fault.
-/

namespace Scoping

/-- The names, types, scopes and symbols of one program. -/
structure Table where
  config : Config
  names : Names
  types : Pool
  scopes : Array Scope
  symbols : Array Symbol

namespace Table

/-- The table of no symbols: the global scope inside the predefined one. -/
def new (config : Config) : Table where
  config := config
  names := .start
  types := .start
  scopes := #[{ kind := .predefined, enclosing := none, blocks := #[.global] },
    { kind := .global, enclosing := some .predefined }]
  symbols := #[]

/-- The entry of a scope. -/
def scope (t : Table) (s : ScopeId) : Answer Scope :=
  match t.scopes[s.index]? with
  | some scope => .ok scope
  | none => .error (.unknownScope s)

/-- The entry of a symbol. -/
def symbol (t : Table) (x : SymbolId) : Answer Symbol :=
  match t.symbols[x.index]? with
  | some symbol => .ok symbol
  | none => .error (.unknownSymbol x)

theorem scope_eq_ok_iff {t : Table} {s : ScopeId} {scope : Scope} :
    t.scope s = .ok scope ↔ t.scopes[s.index]? = some scope := by
  unfold Table.scope
  split <;> simp_all

theorem symbol_eq_ok_iff {t : Table} {x : SymbolId} {symbol : Symbol} :
    t.symbol x = .ok symbol ↔ t.symbols[x.index]? = some symbol := by
  unfold Table.symbol
  split <;> simp_all

/-- The table with one scope changed. -/
def modifyScope (t : Table) (s : ScopeId) (f : Scope → Scope) : Table :=
  { t with scopes := t.scopes.modify s.index f }

/-- The table with one symbol changed. -/
def modifySymbol (t : Table) (x : SymbolId) (f : Symbol → Symbol) : Table :=
  { t with symbols := t.symbols.modify x.index f }

theorem scope_modifyScope (t : Table) (s r : ScopeId) (f : Scope → Scope) :
    (t.modifyScope s f).scope r = if s = r then (t.scope r).map f else t.scope r := by
  by_cases same : s = r
  · subst same
    cases read : t.scopes[s.index]? <;>
      simp [scope, modifyScope, Array.getElem?_modify, read, Except.map]
  · have apart : s.index ≠ r.index := fun h => same (ScopeId.ext h)
    simp [scope, modifyScope, Array.getElem?_modify, same, apart]

theorem symbol_modifySymbol (t : Table) (x y : SymbolId) (f : Symbol → Symbol) :
    (t.modifySymbol x f).symbol y = if x = y then (t.symbol y).map f else t.symbol y := by
  by_cases same : x = y
  · subst same
    cases read : t.symbols[x.index]? <;>
      simp [symbol, modifySymbol, Array.getElem?_modify, read, Except.map]
  · have apart : x.index ≠ y.index := fun h => same (SymbolId.ext h)
    simp [symbol, modifySymbol, Array.getElem?_modify, same, apart]

@[simp]
theorem symbol_modifyScope (t : Table) (s : ScopeId) (x : SymbolId) (f : Scope → Scope) :
    (t.modifyScope s f).symbol x = t.symbol x := rfl

@[simp]
theorem scope_modifySymbol (t : Table) (x : SymbolId) (s : ScopeId) (f : Symbol → Symbol) :
    (t.modifySymbol x f).scope s = t.scope s := rfl

/-- How many scopes were made. -/
def scopeCount (t : Table) : Nat := t.scopes.size

/-- How many symbols were made. -/
def symbolCount (t : Table) : Nat := t.symbols.size

/-- Every scope, by number. -/
def allScopes (t : Table) : List ScopeId := (List.range t.scopeCount).map ScopeId.mk

/-- Every symbol, by number. -/
def everySymbol (t : Table) : List SymbolId := (List.range t.symbolCount).map SymbolId.mk

/-- The text of a name. -/
def nameText (t : Table) (n : Name) : String := t.names.text n

/-- Intern a string. -/
def intern (t : Table) (s : String) : Name × Table :=
  let (name, names) := t.names.intern s
  (name, { t with names })

/-- Make a type. -/
def requestType (t : Table) (r : TypeRequest) : TypeId × Table :=
  let (id, types) := t.types.request r
  (id, { t with types })

/-- The text of a type. -/
def formatType (t : Table) (id : TypeId) : String := t.types.format t.names id

/-- The name of a symbol. -/
def name (t : Table) (x : SymbolId) : Answer Name := return (← t.symbol x).name

/-- The name of a symbol as text. -/
def symbolName (t : Table) (x : SymbolId) : Answer String := return t.nameText (← t.name x)

/-- The kind of a symbol. -/
def kind (t : Table) (x : SymbolId) : Answer Kind := return (← t.symbol x).kind

/-- What a symbol can do. -/
def capabilities (t : Table) (x : SymbolId) : Answer Capabilities :=
  return (← t.kind x).capabilities

/-- Whether two symbols have the same name. -/
def symbolsEqual (t : Table) (a b : SymbolId) : Answer Bool :=
  return (← t.name a) == (← t.name b)

/-- The scope where a symbol is defined. -/
def owningScope? (t : Table) (x : SymbolId) : Answer (Option ScopeId) :=
  return (← t.symbol x).owningScope?

/-- The position of a symbol among the members of its scope. -/
def insertionOrder? (t : Table) (x : SymbolId) : Answer (Option Nat) :=
  return (← t.symbol x).insertionOrder?

/-- The definition site of a symbol. -/
def defSite? (t : Table) (x : SymbolId) : Answer (Option DefSite) :=
  return (← t.symbol x).defSite

/-- The declared type of a symbol, or its result type. -/
def declaredType? (t : Table) (x : SymbolId) : Answer (Option TypeId) :=
  return (← t.symbol x).form.declaredType?

/-- The symbol used as a type. -/
def asType? (t : Table) (x : SymbolId) : Answer (Option TypeId) :=
  return (← t.symbol x).form.asType?

/-- The target of a type alias. -/
def aliasTarget? (t : Table) (x : SymbolId) : Answer (Option TypeId) :=
  return (← t.symbol x).form.aliasTarget?

/-- The slot of a field or method that is defined in a struct or class. -/
def slot? (t : Table) (x : SymbolId) : Answer (Option Nat) :=
  return (← t.symbol x).form.slot?

/-- The scope that a symbol owns. -/
def body? (t : Table) (x : SymbolId) : Answer (Option ScopeId) :=
  return (← t.symbol x).form.body?

/-- The name of a class's superclass. -/
def superclassName? (t : Table) (x : SymbolId) : Answer (Option String) :=
  return (← t.symbol x).form.superclassName?.map t.nameText

/-- The number that a code generator gave to a symbol used as a type. -/
def typeIndex? (t : Table) (x : SymbolId) : Answer (Option Nat) :=
  return (← t.asType? x).bind t.types.typeIndex?

/-- The kind of a scope. -/
def scopeKind (t : Table) (s : ScopeId) : Answer ScopeKind := return (← t.scope s).kind

/-- The symbol whose body a scope is. -/
def scopeOwner? (t : Table) (s : ScopeId) : Answer (Option SymbolId) :=
  return (← t.scope s).owner?

/-- The name of a scope: that of its owner, or the word for its kind. -/
def scopeName (t : Table) (s : ScopeId) : Answer String := do
  match ← t.scopeKind s with
  | .body owner => t.symbolName owner
  | kind => return kind.name

/-- The symbols defined in a scope, first definition first. -/
def symbolsOf (t : Table) (s : ScopeId) : Answer (List SymbolId) :=
  return (← t.scope s).members.toList

/-- How many symbols are defined in a scope. -/
def memberCount (t : Table) (s : ScopeId) : Answer Nat := return (← t.scope s).members.size

/-- The names of the symbols defined in a scope. -/
def symbolNames (t : Table) (s : ScopeId) : Answer (List String) := do
  (← t.symbolsOf s).mapM t.symbolName

/-- The scope around a scope. -/
def enclosing? (t : Table) (s : ScopeId) : Answer (Option ScopeId) :=
  return (← t.scope s).enclosing

end Table

end Scoping
