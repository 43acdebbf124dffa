import Scoping.Handle

/-!
# Faults

A fault is a use of the library against its terms: a handle that was never given
out, a symbol without a name, or an outline too large to be written. No answer
can be given then, unlike for a refusal, which is an answer. Walks along enclosing
scopes are bounded by the number of scopes, and a walk that does not come to an
end within the bound is a fault as well.
-/

namespace Scoping

/-- Why no answer could be given. -/
inductive Fault
  | unknownScope (scope : ScopeId)
  | unknownSymbol (symbol : SymbolId)
  /-- A place behind the last of the numbers that a pool wrote down. -/
  | unwritten (place : Nat)
  | emptyName
  /-- A count does not fit into 64 bits. -/
  | countOverflow
  /-- A text would be longer than a text can be. -/
  | textOverflow
  /-- A walk over scopes, symbols or types ran beyond its bound. -/
  | endless
deriving DecidableEq

/-- What a question is answered with. -/
abbrev Answer := Except Fault

/-- The text of a fault. -/
def Fault.message : Fault → String
  | unknownScope scope => s!"no scope has the number {scope.index}"
  | unknownSymbol symbol => s!"no symbol has the number {symbol.index}"
  | unwritten place => s!"nothing is written at {place}"
  | emptyName => "symbol names must be non-empty"
  | countOverflow => "attempt to multiply with overflow"
  | textOverflow => "capacity overflow"
  | endless => "the walk does not end"

end Scoping
