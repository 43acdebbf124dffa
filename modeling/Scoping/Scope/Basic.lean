import Std.Data.TreeMap
import Scoping.Handle

/-!
# Scopes

A scope holds symbols in the order of their definition, and finds them by name.
It knows the scope around it, unless it is the outermost one or the body of a
symbol that is not yet defined. Anonymous blocks are listed apart from members.
-/

namespace Scoping

/-- What a scope belongs to. -/
inductive ScopeKind
  /-- The built-in names. -/
  | predefined
  /-- The top-level declarations. -/
  | global
  /-- An anonymous block. -/
  | block
  /-- The body of a function, method, struct or class. -/
  | body (owner : SymbolId)
deriving DecidableEq

namespace ScopeKind

/-- The kind's word. -/
def name : ScopeKind → String
  | predefined => "predefined"
  | global => "global"
  | block => "local"
  | body _ => "symbol"

/-- The symbol whose body the scope is. -/
def owner? : ScopeKind → Option SymbolId
  | body owner => some owner
  | _ => none

end ScopeKind

/-- A scope. -/
structure Scope where
  kind : ScopeKind
  enclosing : Option ScopeId
  /-- The symbols defined here, first definition first. -/
  members : Array SymbolId := #[]
  /-- The members by name. -/
  index : Std.TreeMap Name SymbolId := ∅
  /-- The anonymous blocks nested here. -/
  blocks : Array ScopeId := #[]

namespace Scope

/-- The symbol whose body this is. -/
def owner? (s : Scope) : Option SymbolId := s.kind.owner?

/-- The member of the given name. -/
def find? (s : Scope) (name : Name) : Option SymbolId := s.index[name]?

/-- The scope with one more member. -/
def add (s : Scope) (name : Name) (x : SymbolId) : Scope :=
  { s with members := s.members.push x, index := s.index.insert name x }

/-- A scope with one more member finds it by its name, and the others by theirs. -/
theorem find?_add (s : Scope) (name other : Name) (x : SymbolId) :
    (s.add name x).find? other = if name = other then some x else s.find? other := by
  simp only [find?, add, Std.TreeMap.getElem?_insert, Std.compare_eq_iff_eq]

/-- The scope with one more block, unless it lists the block already. -/
def nest (s : Scope) (block : ScopeId) : Scope :=
  if block ∈ s.blocks then s else { s with blocks := s.blocks.push block }

end Scope

end Scoping
