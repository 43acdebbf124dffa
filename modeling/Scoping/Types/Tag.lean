/-!
# Type tags

The tag of a type says which constructor made it.
-/

namespace Scoping

/-- The constructors of types. -/
inductive Tag
  | invalid
  | primitive
  | pointer
  | array
  | function
  | typeAlias
  | aggregate
deriving DecidableEq

namespace Tag

/-- The number of a tag. Leaves come before wrappers, wrappers before compound
types, and the types that a symbol declares come last. -/
def number : Tag → Nat
  | invalid => 0
  | primitive => 1
  | pointer => 16
  | array => 32
  | function => 48
  | typeAlias => 80
  | aggregate => 81

/-- The number tells the tag. -/
theorem eq_of_number_eq {a b : Tag} (same : a.number = b.number) : a = b := by
  cases a <;> cases b <;> simp_all [number]

/-- Whether a type of this tag has a row, as one number does not tell all of it. -/
def hasRow : Tag → Bool
  | invalid | primitive | pointer => false
  | array | function | typeAlias | aggregate => true

/-- The tag's word in messages. -/
def name : Tag → String
  | invalid => "invalid"
  | primitive => "primitive"
  | pointer => "pointer"
  | array => "array"
  | function => "function"
  | typeAlias => "alias"
  | aggregate => "aggregate"

/-- The tag as a diagnostic shows it. -/
def describe (t : Tag) : String := "Tag::" ++ t.name

/-- Whether a type of this tag is declared by a symbol. -/
def isNominal : Tag → Bool
  | typeAlias | aggregate => true
  | _ => false

end Tag

end Scoping
