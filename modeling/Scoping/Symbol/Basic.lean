import Scoping.Handle
import Scoping.Symbol.Kind

/-!
# Symbols

A symbol is a name together with what its kind asks for. It is made first and
defined later: until then it has no place in a scope. Its kind, name, body and
own type are fixed when it is made.
-/

namespace Scoping

/-- The body of a struct or class and the state of its slot numbering. -/
structure Layout where
  /-- The scope of the members. -/
  body : ScopeId
  /-- The struct or class as a type. -/
  type : TypeId
  /-- The next field slot, once a field is defined. -/
  nextField : Option Nat := none
  /-- The next slot of a new method, once one is defined. -/
  nextMethod : Option Nat := none
deriving DecidableEq

/-- What a symbol holds beside its name, by kind. -/
inductive Form
  | var (type : Option TypeId)
  | param (type : Option TypeId)
  | field (type : Option TypeId) (slot : Option Nat)
  | function (result : Option TypeId) (body : ScopeId)
  | method (result : Option TypeId) (body : ScopeId) (slot : Option Nat)
  | structType (layout : Layout)
  /-- The name of the superclass is looked up anew whenever it is asked for. -/
  | classType (layout : Layout) (superclass : Option Name)
  | primitiveType (type : TypeId)
  | typeAlias (type target : TypeId)
deriving DecidableEq

namespace Form

/-- The kind of a symbol of this form. -/
def kind : Form → Kind
  | var _ => .var
  | param _ => .param
  | field _ _ => .field
  | function _ _ => .function
  | method _ _ _ => .method
  | structType _ => .structType
  | classType _ _ => .classType
  | primitiveType _ => .primitiveType
  | typeAlias _ _ => .typeAlias

/-- The scope that the symbol owns. -/
def body? : Form → Option ScopeId
  | function _ body | method _ body _ => some body
  | structType layout | classType layout _ => some layout.body
  | _ => none

/-- The layout of a struct or class. -/
def layout? : Form → Option Layout
  | structType layout | classType layout _ => some layout
  | _ => none

/-- The declared type, or the result type of a function or method. -/
def declaredType? : Form → Option TypeId
  | var type | param type | field type _ => type
  | function result _ | method result _ _ => result
  | _ => none

/-- The form with another declared type. -/
def withDeclaredType : Form → TypeId → Form
  | var _, type => var (some type)
  | param _, type => param (some type)
  | field _ slot, type => field (some type) slot
  | function _ body, type => function (some type) body
  | method _ body slot, type => method (some type) body slot
  | form, _ => form

/-- The symbol used as a type. -/
def asType? : Form → Option TypeId
  | structType layout | classType layout _ => some layout.type
  | primitiveType type | typeAlias type _ => some type
  | _ => none

/-- The target of a type alias. -/
def aliasTarget? : Form → Option TypeId
  | typeAlias _ target => some target
  | _ => none

/-- The name of the superclass. -/
def superclassName? : Form → Option Name
  | classType _ superclass => superclass
  | _ => none

/-- The slot of a field or method. -/
def slot? : Form → Option Nat
  | field _ slot | method _ _ slot => slot
  | _ => none

/-- The form with the given slot. -/
def withSlot : Form → Nat → Form
  | field type _, slot => field type (some slot)
  | method result body _, slot => method result body (some slot)
  | form, _ => form

/-- The form with its layout changed. -/
def mapLayout (f : Layout → Layout) : Form → Form
  | structType layout => structType (f layout)
  | classType layout superclass => classType (f layout) superclass
  | form => form

end Form

/-- Where a symbol is defined: the scope, and its position among the members. -/
structure Placement where
  scope : ScopeId
  position : Nat
deriving DecidableEq

/-- A symbol. -/
structure Symbol where
  name : Name
  form : Form
  /-- Set once, when the symbol is defined. -/
  placement : Option Placement := none
  defSite : Option DefSite := none
deriving DecidableEq

namespace Symbol

/-- The kind of the symbol. -/
def kind (x : Symbol) : Kind := x.form.kind

/-- The scope where the symbol is defined. -/
def owningScope? (x : Symbol) : Option ScopeId := x.placement.map Placement.scope

/-- The position among the members of its scope. -/
def insertionOrder? (x : Symbol) : Option Nat := x.placement.map Placement.position

end Symbol

end Scoping
