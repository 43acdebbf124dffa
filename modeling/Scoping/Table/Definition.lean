import Scoping.Refusal
import Scoping.Table.Declaration
import Scoping.Table.Slot

/-!
# Definitions

To define a symbol is to give it a place in a scope. This happens once. All
conditions are checked before anything changes, so that a refused definition
leaves the table as it was.
-/

namespace Scoping

namespace Table

/-- Whether the slot of a member of this kind hangs on the superclass. -/
def slotNeedsSuperclass (t : Table) (kind : Kind) : Bool :=
  kind = .method ∨ kind = .field ∧ t.config.fieldLayout = .inherited

/-- The last class above `x` and the superclass that it names but that is not there. -/
def missingSuperclass? (t : Table) (x : SymbolId) : Answer (Option (String × String)) := do
  let last := (← t.chain x).getLastD x
  match ← t.superclassName? last, ← t.superclass last with
  | some text, none => return some (← t.symbolName last, text)
  | _, _ => return none

/-- Why the owner of a scope does not take a symbol as a member, if it does not. -/
def ownerRefusal? (t : Table) (owner : SymbolId) (x : Symbol) : Answer (Option Refusal) := do
  if (← t.kind owner).isAggregate ∧ ¬ x.kind.capabilities.member then
    return some (.invalidMember (t.nameText x.name) x.kind.name (← t.symbolName owner))
  else if t.slotNeedsSuperclass x.kind then
    match ← t.missingSuperclass? owner with
    | none => return none
    | some (last, text) => return some (.unresolvedSuperclass (t.nameText x.name) last text)
  else return none

/-- Why a body cannot be placed in a scope: the scope lies inside the body. -/
def cycleRefusal? (t : Table) (s : ScopeId) (x : Symbol) : Answer (Option Refusal) := do
  match x.form.body? with
  | none => return none
  | some body =>
    if body ∈ (← t.enclosingPath s) then return some (.cyclicScope (t.nameText x.name))
    else return none

/-- Why a symbol cannot be defined in a scope: the first condition that fails. -/
def refusal? (t : Table) (s : ScopeId) (x : SymbolId) : Answer (Option Refusal) := do
  let symbol ← t.symbol x
  let text := t.nameText symbol.name
  match symbol.owningScope? with
  | some home => return some (.alreadyDefined text (← t.scopeName home))
  | none =>
    let scope ← t.scope s
    if (scope.find? symbol.name).isSome then
      return some (.duplicateSymbol text (← t.scopeName s))
    else
      match scope.owner? with
      | none => t.cycleRefusal? s symbol
      | some owner =>
        match ← t.ownerRefusal? owner symbol with
        | some refusal => return some refusal
        | none => t.cycleRefusal? s symbol

/-- Give a symbol its place in a scope, and its body the scope around it. -/
def place (t : Table) (s : ScopeId) (x : SymbolId) : Answer Table := do
  let symbol ← t.symbol x
  let position := (← t.scope s).members.size
  let t := t.modifyScope s (·.add symbol.name x)
  let t := t.modifySymbol x ({ · with placement := some ⟨s, position⟩ })
  match symbol.form.body? with
  | none => return t
  | some body => return t.modifyScope body ({ · with enclosing := some s })

/-- Give a symbol that was placed in a scope the slot due to it. -/
def assignSlotIn (t : Table) (s : ScopeId) (x : SymbolId) : Answer Table := do
  match ← t.scopeOwner? s with
  | none => return t
  | some owner => if (← t.kind owner).isAggregate then t.assignSlot owner x else return t

/-- Define a symbol in a scope. -/
def define (t : Table) (s : ScopeId) (x : SymbolId) : Answer (Except Refusal Table) := do
  match ← t.refusal? s x with
  | some refusal => return .error refusal
  | none => return .ok (← (← t.place s x).assignSlotIn s x)

/-- Why a scope cannot be nested in another as a block. -/
def nestRefusal? (t : Table) (parent child : ScopeId) : Answer (Option Refusal) := do
  let scope ← t.scope child
  match scope.owner? with
  | some owner => return some (.nestedSymbolScope (← t.symbolName owner))
  | none =>
    if scope.enclosing = some parent then return none
    else return some (.enclosingMismatch (← t.scopeName child) (← t.scopeName parent))

/-- List a block in the scope that encloses it. A block is listed once. -/
def nest (t : Table) (parent child : ScopeId) : Answer (Except Refusal Table) := do
  match ← t.nestRefusal? parent child with
  | some refusal => return .error refusal
  | none =>
    discard (t.scope parent)
    return .ok (t.modifyScope parent (·.nest child))

/-- Set the declared type of a symbol. -/
def setType (t : Table) (x : SymbolId) (type : TypeId) : Answer (Except Refusal Table) := do
  let symbol ← t.symbol x
  if symbol.kind.capabilities.typed then
    return .ok (t.modifySymbol x fun x => { x with form := x.form.withDeclaredType type })
  else return .error (.notTyped (t.nameText symbol.name) symbol.kind.name)

/-- Set the definition site of a symbol. -/
def setDefSite (t : Table) (x : SymbolId) (site : DefSite) : Answer Table := do
  discard (t.symbol x)
  return t.modifySymbol x ({ · with defSite := some site })

/-- Give a type a number. -/
def numberType (t : Table) (type : TypeId) (index : Nat) : Table :=
  { t with types := t.types.setTypeIndex type index }

/-- Give the type of a symbol used as a type a number. Other symbols have none. -/
def setTypeIndex (t : Table) (x : SymbolId) (index : Nat) : Answer Table := do
  match ← t.asType? x with
  | none => return t
  | some type => return t.numberType type index

/-- Define primitive types in the predefined scope, numbered from `index` on. It
stops at the first refusal and keeps what was done until then. -/
def defineBuiltinsFrom (t : Table) (index : Nat) :
    List String → Answer (Except Refusal (List SymbolId) × Table)
  | [] => return (.ok [], t)
  | text :: rest => do
    let (x, t) ← t.declare text .primitiveType
    match ← t.define .predefined x with
    | .error refusal => return (.error refusal, t)
    | .ok t =>
      let t ← t.setTypeIndex x index
      let (defined, t) ← t.defineBuiltinsFrom (index + 1) rest
      return (defined.map (x :: ·), t)

/-- Define primitive types in the predefined scope, numbered from 1. -/
def defineBuiltins (t : Table) (names : List String) :
    Answer (Except Refusal (List SymbolId) × Table) :=
  t.defineBuiltinsFrom 1 names

/-- Look a string up from a scope; a name that is not found is a refusal. -/
def tryResolve (t : Table) (s : ScopeId) (text : String) : Answer (Except Refusal SymbolId) := do
  match ← t.resolve s text with
  | some x => return .ok x
  | none => return .error (.unresolved text (← t.scopeName s))

end Table

end Scoping
