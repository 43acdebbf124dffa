/-!
# Kinds of symbols

The kind of a symbol fixes what it can do: own a scope, be a member of a struct
or class, serve as a type, and have a declared type.
-/

namespace Scoping

/-- What a kind of symbol can do. -/
structure Capabilities where
  /-- It owns a scope of its own. -/
  scope : Bool := false
  /-- It may be defined in a struct or class. -/
  member : Bool := false
  /-- It can be used as a type. -/
  type : Bool := false
  /-- It has a declared type, or a result type. -/
  typed : Bool := false
deriving DecidableEq

namespace Capabilities

/-- Each capability with its name and its bit, from the lowest bit up. -/
def legend : List (String × Nat × (Capabilities → Bool)) :=
  [("SCOPE", 0, scope), ("MEMBER", 1, member), ("TYPE", 2, type), ("TYPED", 3, typed)]

/-- The capabilities as one number. -/
def bits (c : Capabilities) : Nat :=
  (legend.map fun (_, bit, has) => if has c then 1 <<< bit else 0).foldr (· + ·) 0

/-- The names of the capabilities, from the lowest bit up. -/
def names (c : Capabilities) : List String :=
  legend.filterMap fun (name, _, has) => if has c then some name else none

end Capabilities

/-- The kinds of symbols. -/
inductive Kind
  | var
  | param
  | field
  | function
  | method
  | structType
  | classType
  | primitiveType
  | typeAlias
deriving DecidableEq

namespace Kind

/-- The kind's words in messages. -/
def name : Kind → String
  | var => "variable"
  | param => "parameter"
  | field => "field"
  | function => "function"
  | method => "method"
  | structType => "struct"
  | classType => "class"
  | primitiveType => "primitive type"
  | typeAlias => "type alias"

/-- What symbols of this kind can do. -/
def capabilities : Kind → Capabilities
  | var | param => { typed := true }
  | field => { member := true, typed := true }
  | function => { scope := true, typed := true }
  | method => { scope := true, member := true, typed := true }
  | structType | classType => { scope := true, member := true, type := true }
  | primitiveType | typeAlias => { type := true }

/-- Whether this is a struct or class. -/
def isAggregate : Kind → Bool
  | structType | classType => true
  | _ => false

/-- Whether this is a function or method. -/
def isFunctionLike : Kind → Bool
  | function | method => true
  | _ => false

end Kind

end Scoping
