import Scoping.Handle
import Scoping.Types.Tag

/-!
# Type expressions

A type is one constructor over names, symbols and other types of the same pool.
Aliases and aggregates belong to the symbol that declares them; all other types
are what their parts make them.
-/

namespace Scoping

/-- What a type is made of. -/
inductive TypeExpr
  | invalid
  | primitive (name : Name)
  | pointer (target : TypeId)
  /-- An array of a fixed length, or of none. -/
  | array (elem : TypeId) (length : Option Nat)
  | function (result : TypeId) (params : List TypeId)
  | typeAlias (symbol : SymbolId) (name : Name) (target : TypeId)
  | aggregate (symbol : SymbolId) (name : Name)
deriving DecidableEq

namespace TypeExpr

/-- The constructor of a type. -/
def tag : TypeExpr → Tag
  | invalid => .invalid
  | primitive _ => .primitive
  | pointer _ => .pointer
  | array _ _ => .array
  | function _ _ => .function
  | typeAlias _ _ _ => .typeAlias
  | aggregate _ _ => .aggregate

/-- The types a type is directly made of. -/
def children : TypeExpr → List TypeId
  | pointer target => [target]
  | array elem _ => [elem]
  | function result params => params ++ [result]
  | typeAlias _ _ target => [target]
  | invalid | primitive _ | aggregate _ _ => []

end TypeExpr

end Scoping
