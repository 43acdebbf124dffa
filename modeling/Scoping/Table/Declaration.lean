import Scoping.Table.Basic

/-!
# Declarations

A declaration makes a symbol that is not yet defined anywhere. A function,
method, struct or class gets a body at once, enclosed by nothing until the symbol
is defined. A struct, class, alias or primitive type gets a type of its own.
-/

namespace Scoping

/-- What a symbol is declared with, beside its name. -/
inductive Spec
  | var (type : Option TypeId)
  | param (type : Option TypeId)
  | field (type : Option TypeId)
  | function (result : Option TypeId)
  | method (result : Option TypeId)
  | structType
  | classType (superclass : Option String)
  | primitiveType
  | typeAlias (target : TypeId)
deriving DecidableEq

namespace Table

/-- The handle that the next symbol will get. -/
def nextSymbol (t : Table) : SymbolId := ⟨t.symbols.size⟩

/-- Add a scope. -/
def addScope (t : Table) (s : Scope) : ScopeId × Table :=
  (⟨t.scopes.size⟩, { t with scopes := t.scopes.push s })

/-- Add a symbol. -/
def addSymbol (t : Table) (x : Symbol) : SymbolId × Table :=
  (t.nextSymbol, { t with symbols := t.symbols.push x })

/-- Add the body of the next symbol. -/
def addBody (t : Table) : ScopeId × Table :=
  t.addScope { kind := .body t.nextSymbol, enclosing := none }

/-- Add the body and the type of the next symbol, a struct or class. -/
def addLayout (t : Table) (text : String) : Layout × Table :=
  let symbol := t.nextSymbol
  let (body, t) := t.addBody
  let (name, t) := t.intern text
  let (type, t) := t.requestType (.aggregate symbol name)
  ({ body, type }, t)

/-- Intern the name of a superclass, if there is one. -/
def internSuperclass (t : Table) : Option String → Option Name × Table
  | none => (none, t)
  | some text => let (name, t) := t.intern text; (some name, t)

/-- Add what the next symbol needs by its kind. -/
def addForm (t : Table) (text : String) : Spec → Form × Table
  | .var type => (.var type, t)
  | .param type => (.param type, t)
  | .field type => (.field type none, t)
  | .function result => let (body, t) := t.addBody; (.function result body, t)
  | .method result => let (body, t) := t.addBody; (.method result body none, t)
  | .structType => let (layout, t) := t.addLayout text; (.structType layout, t)
  | .classType superclass =>
    let (superclass, t) := t.internSuperclass superclass
    let (layout, t) := t.addLayout text
    (.classType layout superclass, t)
  | .primitiveType =>
    let (name, t) := t.intern text
    let (type, t) := t.requestType (.primitive name)
    (.primitiveType type, t)
  | .typeAlias target =>
    let symbol := t.nextSymbol
    let (name, t) := t.intern text
    let (type, t) := t.requestType (.typeAlias symbol name target)
    (.typeAlias type target, t)

/-- Make a symbol. A symbol has a name of at least one character. -/
def declare (t : Table) (text : String) (spec : Spec) : Answer (SymbolId × Table) :=
  if text = "" then .error .emptyName
  else
    let (form, t) := t.addForm text spec
    let (name, t) := t.intern text
    .ok (t.addSymbol { name, form })

/-- Make an anonymous block. It is enclosed by `enclosing`, but not listed there. -/
def openScope (t : Table) (enclosing : ScopeId) : ScopeId × Table :=
  t.addScope { kind := .block, enclosing := some enclosing }

/-- Make an anonymous block and list it in the scope that encloses it. -/
def openBlock (t : Table) (enclosing : ScopeId) : Answer (ScopeId × Table) := do
  let (block, t) := t.openScope enclosing
  discard (t.scope enclosing)
  return (block, t.modifyScope enclosing (·.nest block))

end Table

end Scoping
