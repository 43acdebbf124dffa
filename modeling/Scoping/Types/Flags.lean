import Scoping.Types.Tag

/-!
# Type flags

The flags of a type answer common questions without a walk over the type. Three
of them tell what occurs anywhere inside it and pass from a part to the whole;
the others describe the outermost constructor only.
-/

namespace Scoping

/-- What is known of a type at a glance. -/
structure Flags where
  /-- The invalid type occurs in it. -/
  hasInvalid : Bool := false
  /-- An alias occurs in it. -/
  hasAlias : Bool := false
  /-- A struct or class occurs in it. -/
  hasAggregate : Bool := false
  isPrimitive : Bool := false
  isPointer : Bool := false
  isArray : Bool := false
  isFunction : Bool := false
  /-- A symbol declares it. -/
  isNominal : Bool := false
  /-- It is an array of a fixed length. -/
  isSized : Bool := false
deriving DecidableEq

namespace Flags

/-- No flag. -/
def none : Flags := {}

/-- Each flag with its name and its bit, from the lowest bit up. -/
def legend : List (String × Nat × (Flags → Bool)) :=
  [("HAS_INVALID", 0, hasInvalid), ("HAS_ALIAS", 1, hasAlias),
    ("HAS_AGGREGATE", 2, hasAggregate), ("IS_PRIMITIVE", 8, isPrimitive),
    ("IS_POINTER", 9, isPointer), ("IS_ARRAY", 10, isArray), ("IS_FUNCTION", 11, isFunction),
    ("IS_NOMINAL", 12, isNominal), ("IS_SIZED", 16, isSized)]

/-- The flags as one number. -/
def bits (f : Flags) : Nat :=
  (legend.map fun (_, bit, has) => if has f then 1 <<< bit else 0).foldr (· + ·) 0

/-- The flags that a number stands for; bits of no meaning are left out. -/
def ofBits (n : Nat) : Flags where
  hasInvalid := n.testBit 0
  hasAlias := n.testBit 1
  hasAggregate := n.testBit 2
  isPrimitive := n.testBit 8
  isPointer := n.testBit 9
  isArray := n.testBit 10
  isFunction := n.testBit 11
  isNominal := n.testBit 12
  isSized := n.testBit 16

/-- The names of the flags that are set, from the lowest bit up. -/
def names (f : Flags) : List String :=
  legend.filterMap fun (name, _, has) => if has f then some name else Option.none

/-- The flags set in either. -/
def union (f g : Flags) : Flags where
  hasInvalid := f.hasInvalid || g.hasInvalid
  hasAlias := f.hasAlias || g.hasAlias
  hasAggregate := f.hasAggregate || g.hasAggregate
  isPrimitive := f.isPrimitive || g.isPrimitive
  isPointer := f.isPointer || g.isPointer
  isArray := f.isArray || g.isArray
  isFunction := f.isFunction || g.isFunction
  isNominal := f.isNominal || g.isNominal
  isSized := f.isSized || g.isSized

/-- The flags that a part passes on to the whole. -/
def inherited (f : Flags) : Flags where
  hasInvalid := f.hasInvalid
  hasAlias := f.hasAlias
  hasAggregate := f.hasAggregate

/-- The flags of a whole after one more part is taken into account. -/
def withChild (f child : Flags) : Flags := f.union child.inherited

/-- The flags of a type of this tag before its parts are taken into account. -/
def ofTag : Tag → Flags
  | .invalid => { hasInvalid := true }
  | .primitive => { isPrimitive := true }
  | .pointer => { isPointer := true }
  | .array => { isArray := true }
  | .function => { isFunction := true }
  | .typeAlias => { isNominal := true, hasAlias := true }
  | .aggregate => { isNominal := true, hasAggregate := true }

end Flags

end Scoping
