import Std.Data.TreeMap
import Scoping.Fault
import Scoping.Types.Expr
import Scoping.Types.Flags

/-!
# Type pools

A pool holds every type once, so that two types are equal exactly when their
handles are. A type is looked up by what is stored for it before it is added, its
flags are worked out when it is added, and neither ever changes. A handle that the
pool did not give out reads as an invalid type.

A type lies in its pool as a tag and a number. For a leaf or a pointer the number
is all there is to know. The other types have rows of numbers, of different
lengths; all rows stand one behind the other in one array, and the number tells
where the row of the type begins.
-/

namespace Scoping

/-- A type as it lies in its pool. -/
structure PoolItem where
  tag : Tag
  /-- All there is to know of the type, or where its row begins. -/
  data : Nat
deriving DecidableEq

/-- What a type is looked up by: its tag, and the number or the row that is stored. -/
@[ext]
structure PoolKey where
  tag : Tag
  payload : List Nat

namespace PoolKey

/-- The number of the tag in front of the payload. -/
def numbers (k : PoolKey) : List Nat := k.tag.number :: k.payload

theorem eq_of_numbers_eq {a b : PoolKey} (same : a.numbers = b.numbers) : a = b := by
  obtain ⟨tags, payloads⟩ := List.cons.inj same
  exact PoolKey.ext (Tag.eq_of_number_eq tags) payloads

instance : Ord PoolKey := ⟨fun a b => compare a.numbers b.numbers⟩

instance : Std.TransOrd PoolKey where
  eq_swap {a b} := @Std.OrientedCmp.eq_swap (List Nat) compare _ a.numbers b.numbers
  isLE_trans {a b c} :=
    @Std.TransCmp.isLE_trans (List Nat) compare _ a.numbers b.numbers c.numbers

instance : Std.LawfulEqOrd PoolKey where
  compare_self {a} := @Std.ReflCmp.compare_self (List Nat) compare _ a.numbers
  eq_of_compare {a b} same :=
    eq_of_numbers_eq
      (@Std.LawfulEqCmp.eq_of_compare (List Nat) compare _ a.numbers b.numbers same)

end PoolKey

/-- Types by their handles. -/
structure Pool where
  items : Array PoolItem
  /-- The flags of each type. -/
  marks : Array Flags
  /-- The rows of all types that have one. -/
  extra : Array Nat
  /-- The handle of each type, by what the type is looked up by. -/
  index : Std.TreeMap PoolKey TypeId
  /-- The numbers that a code generator gave to types. -/
  numbering : Std.TreeMap TypeId Nat

/-- A call of one of the constructors of types. -/
inductive TypeRequest
  | primitive (name : Name)
  | pointer (target : TypeId)
  /-- An array of no fixed length. -/
  | array (elem : TypeId)
  /-- An array of a fixed length, unless the length is the reserved one. -/
  | sizedArray (elem : TypeId) (length : Nat)
  | function (result : TypeId) (params : List TypeId)
  | typeAlias (symbol : SymbolId) (name : Name) (target : TypeId)
  | aggregate (symbol : SymbolId) (name : Name)
deriving DecidableEq

namespace TypeRequest

/-- The largest length is reserved: it asks for an array of no fixed length. -/
def unbounded : Nat := 1 <<< 32 - 1

/-- The type that is asked for. -/
def expr : TypeRequest → TypeExpr
  | primitive name => .primitive name
  | pointer target => .pointer target
  | array elem => .array elem none
  | sizedArray elem length => .array elem (if length = unbounded then none else some length)
  | function result params => .function result params
  | typeAlias symbol name target => .typeAlias symbol name target
  | aggregate symbol name => .aggregate symbol name

end TypeRequest

namespace TypeExpr

/-- The number that is all there is to know of a type, or else its row. The row of a function
type begins with the number of parameters. -/
def payload : TypeExpr → List Nat
  | invalid => [0]
  | primitive name => [name.index]
  | pointer target => [target.index]
  | array elem length => [elem.index, length.getD TypeRequest.unbounded]
  | function result params => params.length :: params.map TypeId.index ++ [result.index]
  | typeAlias symbol name target => [symbol.index, name.index, target.index]
  | aggregate symbol name => [symbol.index, name.index]

/-- What the type is looked up by. -/
def key (e : TypeExpr) : PoolKey := ⟨e.tag, e.payload⟩

end TypeExpr

namespace Pool

/-- The pool of no types. -/
def empty : Pool := ⟨#[], #[], #[], ∅, ∅⟩

/-- How many types there are, the invalid one included. -/
def size (pool : Pool) : Nat := pool.items.size

/-- Whether there are no types. The invalid type is always there. -/
def isEmpty (pool : Pool) : Bool := pool.items.isEmpty

/-- Whether the pool gave out this handle. -/
def contains (pool : Pool) (id : TypeId) : Bool := id.index < pool.size

/-- The constructor of a type. -/
def tag (pool : Pool) (id : TypeId) : Tag :=
  (pool.items[id.index]?.map PoolItem.tag).getD .invalid

/-- The number of a type. -/
def data (pool : Pool) (id : TypeId) : Nat :=
  (pool.items[id.index]?.map PoolItem.data).getD 0

/-- The number at the given distance from where the row of a type begins. -/
def extraAt (pool : Pool) (id : TypeId) (offset : Nat) : Answer Nat :=
  match pool.extra[pool.data id + offset]? with
  | some n => .ok n
  | none => .error (.unwritten (pool.data id + offset))

/-- What a type is made of, read from its number or its row. -/
def read (pool : Pool) (id : TypeId) : Answer TypeExpr := do
  match pool.tag id with
  | .invalid => return .invalid
  | .primitive => return .primitive ⟨pool.data id⟩
  | .pointer => return .pointer ⟨pool.data id⟩
  | .array =>
    let elem ← pool.extraAt id 0
    let length ← pool.extraAt id 1
    return .array ⟨elem⟩ (if length = TypeRequest.unbounded then none else some length)
  | .function =>
    let count ← pool.extraAt id 0
    let params ← (List.range count).mapM fun i => pool.extraAt id (i + 1)
    let result ← pool.extraAt id (count + 1)
    return .function ⟨result⟩ (params.map TypeId.mk)
  | .typeAlias =>
    let symbol ← pool.extraAt id 0
    let name ← pool.extraAt id 1
    let target ← pool.extraAt id 2
    return .typeAlias ⟨symbol⟩ ⟨name⟩ ⟨target⟩
  | .aggregate =>
    let symbol ← pool.extraAt id 0
    let name ← pool.extraAt id 1
    return .aggregate ⟨symbol⟩ ⟨name⟩

/-- What a type is made of. What cannot be read is invalid. -/
def expr (pool : Pool) (id : TypeId) : TypeExpr :=
  match pool.read id with
  | .ok e => e
  | .error _ => .invalid

/-- The flags of a type. -/
def flags (pool : Pool) (id : TypeId) : Flags :=
  pool.marks[id.index]?.getD { hasInvalid := true }

/-- The flags of a type that is about to be added. -/
def flagsOf (pool : Pool) (e : TypeExpr) : Flags :=
  let merged := e.children.foldl (fun f child => f.withChild (pool.flags child)) (.ofTag e.tag)
  match e with
  | .array _ (some _) => { merged with isSized := true }
  | _ => merged

/-- The handle of a type, if the pool holds it. -/
def find? (pool : Pool) (e : TypeExpr) : Option TypeId := pool.index[e.key]?

/-- The pool with a type added behind the others. -/
def add (pool : Pool) (e : TypeExpr) : Pool :=
  { pool with
    items := pool.items.push
      ⟨e.tag, if e.tag.hasRow then pool.extra.size else e.payload.headD 0⟩
    marks := pool.marks.push (pool.flagsOf e)
    extra := if e.tag.hasRow then pool.extra ++ e.payload.toArray else pool.extra
    index := pool.index.insert e.key ⟨pool.size⟩ }

/-- The handle of a type: the one it has, or else the next free one. -/
def intern (pool : Pool) (e : TypeExpr) : TypeId × Pool :=
  match pool.find? e with
  | some id => (id, pool)
  | none => (⟨pool.size⟩, pool.add e)

/-- The pool that holds the invalid type alone. -/
def start : Pool := (empty.intern .invalid).2

/-- Answer a constructor call. -/
def request (pool : Pool) (r : TypeRequest) : TypeId × Pool := pool.intern r.expr

/-- The name of a primitive type. -/
def primitiveName? (pool : Pool) (id : TypeId) : Option Name :=
  match pool.expr id with
  | .primitive name => some name
  | _ => none

/-- The name of a primitive type, an alias or an aggregate. -/
def typeName? (pool : Pool) (id : TypeId) : Option Name :=
  match pool.expr id with
  | .primitive name | .typeAlias _ name _ | .aggregate _ name => some name
  | _ => none

/-- The target of a pointer type. -/
def pointerTarget? (pool : Pool) (id : TypeId) : Option TypeId :=
  match pool.expr id with
  | .pointer target => some target
  | _ => none

/-- The element type of an array type. -/
def arrayElem? (pool : Pool) (id : TypeId) : Option TypeId :=
  match pool.expr id with
  | .array elem _ => some elem
  | _ => none

/-- The length of an array type of a fixed length. -/
def arrayLength? (pool : Pool) (id : TypeId) : Option Nat :=
  match pool.expr id with
  | .array _ length => length
  | _ => none

/-- The result type of a function type. -/
def functionResult? (pool : Pool) (id : TypeId) : Option TypeId :=
  match pool.expr id with
  | .function result _ => some result
  | _ => none

/-- The parameter types of a function type in their order. -/
def functionParams (pool : Pool) (id : TypeId) : List TypeId :=
  match pool.expr id with
  | .function _ params => params
  | _ => []

/-- The symbol that declares an alias or an aggregate. -/
def nominalSymbol? (pool : Pool) (id : TypeId) : Option SymbolId :=
  match pool.expr id with
  | .typeAlias symbol _ _ | .aggregate symbol _ => some symbol
  | _ => none

/-- The target of an alias. -/
def aliasTarget? (pool : Pool) (id : TypeId) : Option TypeId :=
  match pool.expr id with
  | .typeAlias _ _ target => some target
  | _ => none

/-- Follow aliases for at most the given number of steps. -/
def resolveAliasWithin (pool : Pool) : Nat → TypeId → TypeId
  | 0, id => id
  | steps + 1, id =>
    match pool.aliasTarget? id with
    | some target => pool.resolveAliasWithin steps target
    | none => id

/-- The type behind all aliases. No chain of aliases is longer than the pool is large. -/
def resolveAlias (pool : Pool) (id : TypeId) : TypeId :=
  pool.resolveAliasWithin (pool.size + 1) id

/-- The number that a code generator gave to a type. -/
def typeIndex? (pool : Pool) (id : TypeId) : Option Nat := pool.numbering[id]?

/-- Give a type a number. -/
def setTypeIndex (pool : Pool) (id : TypeId) (index : Nat) : Pool :=
  { pool with numbering := pool.numbering.insert id index }

end Pool

end Scoping
