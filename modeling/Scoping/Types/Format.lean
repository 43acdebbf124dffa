import Scoping.Names
import Scoping.Types.Pool

/-!
# Types as text

A type with a name is written by its name, a pointer as `*T`, an array as `T[]`
or `T[4]`, and a function type as `R(*)(A, B)`. A type that is made of itself has
no text; every other type is written down within as many levels as its pool has
types, and one more.
-/

namespace Scoping

namespace Pool

/-- The text of a type, down to the given depth. -/
def formatWithin (pool : Pool) (names : Names) : Nat → TypeId → Answer String
  | 0, _ => .error .endless
  | depth + 1, id => do
    match ← pool.read id with
    | .invalid => return "INVALID"
    | .primitive name | .typeAlias _ name _ | .aggregate _ name => return names.text name
    | .pointer target => return "*" ++ (← pool.formatWithin names depth target)
    | .array elem length =>
      return (← pool.formatWithin names depth elem) ++ "[" ++ (length.map toString).getD "" ++ "]"
    | .function result params =>
      let head ← pool.formatWithin names depth result
      let inside ← params.mapM (pool.formatWithin names depth)
      return head ++ "(*)(" ++ ", ".intercalate inside ++ ")"

/-- How many levels suffice for the text of a type: one for each type and one for a
handle that the pool did not give out. -/
def levels (pool : Pool) : Nat := pool.size + 1

/-- The text of a type, if it comes to an end. -/
def write (pool : Pool) (names : Names) (id : TypeId) : Answer String :=
  pool.formatWithin names pool.levels id

/-- The text of a type. -/
def format (pool : Pool) (names : Names) (id : TypeId) : String :=
  match pool.write names id with
  | .ok text => text
  | .error _ => ""

/-- A text followed by the texts of types, with nothing in between. -/
def formatOnto (pool : Pool) (names : Names) (start : String) (ids : List TypeId) : String :=
  ids.foldl (fun text id => text ++ pool.format names id) start

end Pool

end Scoping
