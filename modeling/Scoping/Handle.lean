/-!
# Handles

Names, scopes, symbols, types and definition sites are handed out as small
numbers. A handle means something only beside the table that issued it, and a
table numbers its entries from 0 in the order in which they were made. Nothing
is ever removed, so a handle stays good for the life of its table.
-/

namespace Scoping

/-- An interned string. -/
@[ext]
structure Name where
  index : Nat
deriving DecidableEq

/-- A scope of a table. -/
@[ext]
structure ScopeId where
  index : Nat
deriving DecidableEq

/-- A symbol of a table. It says which symbol is meant, not what it is called. -/
@[ext]
structure SymbolId where
  index : Nat
deriving DecidableEq

/-- A type of a pool. -/
@[ext]
structure TypeId where
  index : Nat
deriving DecidableEq

/-- The place in the caller's text where a symbol comes from, kept and handed
back without being read. -/
structure DefSite where
  index : Nat
deriving DecidableEq

namespace Name

/-- The empty string, which every interner holds from the start. -/
def empty : Name := ⟨0⟩

instance : Ord Name := ⟨fun a b => compare a.index b.index⟩

instance : Std.TransOrd Name where
  eq_swap {a b} := @Std.OrientedCmp.eq_swap Nat compare _ a.index b.index
  isLE_trans {a b c} := @Std.TransCmp.isLE_trans Nat compare _ a.index b.index c.index

instance : Std.LawfulEqOrd Name where
  compare_self {a} := @Std.ReflCmp.compare_self Nat compare _ a.index
  eq_of_compare {a b} h :=
    Name.ext (@Std.LawfulEqCmp.eq_of_compare Nat compare _ a.index b.index h)

/-- The name as a diagnostic shows it. -/
def describe (n : Name) : String := s!"Name({n.index})"

end Name

namespace ScopeId

/-- The scope of the built-in names, which encloses every attached scope. -/
def predefined : ScopeId := ⟨0⟩

/-- The scope of the top-level declarations. -/
def global : ScopeId := ⟨1⟩

/-- The scope as a diagnostic shows it. -/
def describe (s : ScopeId) : String := s!"ScopeId({s.index})"

end ScopeId

namespace SymbolId

/-- The symbol as a diagnostic shows it. -/
def describe (x : SymbolId) : String := s!"SymbolId({x.index})"

end SymbolId

namespace TypeId

/-- The invalid type, which stands for every reference that went wrong. -/
def invalid : TypeId := ⟨0⟩

/-- Whether this is the invalid type. -/
def isInvalid (t : TypeId) : Bool := t == invalid

instance : Ord TypeId := ⟨fun a b => compare a.index b.index⟩

instance : Std.TransOrd TypeId where
  eq_swap {a b} := @Std.OrientedCmp.eq_swap Nat compare _ a.index b.index
  isLE_trans {a b c} := @Std.TransCmp.isLE_trans Nat compare _ a.index b.index c.index

instance : Std.LawfulEqOrd TypeId where
  compare_self {a} := @Std.ReflCmp.compare_self Nat compare _ a.index
  eq_of_compare {a b} h :=
    TypeId.ext (@Std.LawfulEqCmp.eq_of_compare Nat compare _ a.index b.index h)

/-- The type as a message shows it. -/
def display (t : TypeId) : String :=
  if t.isInvalid then "INVALID" else s!"type#{t.index}"

/-- The type as a diagnostic shows it. -/
def describe (t : TypeId) : String :=
  if t.isInvalid then "Idx::INVALID" else s!"Idx({t.index})"

end TypeId

namespace DefSite

/-- The definition site as a diagnostic shows it. -/
def describe (d : DefSite) : String := s!"DefSite({d.index})"

end DefSite

end Scoping
