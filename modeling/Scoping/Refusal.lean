/-!
# Refusals

An operation that would break a rule of the table is refused, and the refusal
says which rule and names the symbols and scopes involved. Only a name that is
not found is an expected outcome; every other refusal is the caller's mistake.
-/

namespace Scoping

/-- Why an operation was refused. -/
inductive Refusal
  /-- The scope holds a symbol of that name already. -/
  | duplicateSymbol (name scope : String)
  /-- A struct or class takes fields, methods, structs and classes only. -/
  | invalidMember (name kind aggregate : String)
  /-- The name is not found from the scope. -/
  | unresolved (name scope : String)
  /-- A symbol is defined once. -/
  | alreadyDefined (name scope : String)
  /-- The scope belongs to a symbol and cannot be nested as a block. -/
  | nestedSymbolScope (name : String)
  /-- A block is nested in the scope that encloses it. -/
  | enclosingMismatch (child parent : String)
  /-- A scope would enclose itself. -/
  | cyclicScope (name : String)
  /-- Symbols of this kind have no declared type. -/
  | notTyped (name kind : String)
  /-- The slot of the member hangs on a superclass that is not there yet. -/
  | unresolvedSuperclass (member owner superclass : String)
deriving DecidableEq

namespace Refusal

/-- The code under which the cause is listed. -/
def code : Refusal → String
  | unresolved _ _ => "E2003"
  | duplicateSymbol _ _ => "E2006"
  | invalidMember _ _ _ => "E2040"
  | alreadyDefined _ _ => "E2041"
  | nestedSymbolScope _ => "E2042"
  | enclosingMismatch _ _ => "E2043"
  | cyclicScope _ => "E2044"
  | notTyped _ _ => "E2045"
  | unresolvedSuperclass _ _ _ => "E2046"

/-- Whether a name was merely not found. -/
def isLookupMiss : Refusal → Bool
  | unresolved _ _ => true
  | _ => false

/-- The text of the refusal. -/
def message : Refusal → String
  | duplicateSymbol name scope => s!"duplicate symbol `{name}` in scope `{scope}`"
  | invalidMember name kind aggregate =>
    s!"`{name}` is a {kind}, not a member; it cannot be defined in `{aggregate}`"
  | unresolved name scope => s!"unresolved reference `{name}` from scope `{scope}`"
  | alreadyDefined name scope => s!"symbol `{name}` is already defined in scope `{scope}`"
  | nestedSymbolScope name =>
    s!"`{name}` is a symbol with a scope; add it with define, not nest"
  | enclosingMismatch child parent =>
    s!"cannot nest `{child}` in `{parent}`: its enclosing scope is elsewhere"
  | cyclicScope name => s!"defining `{name}` here would make its scope enclose itself"
  | notTyped name kind => s!"`{name}` is a {kind} and has no declared type"
  | unresolvedSuperclass member owner superclass =>
    s!"cannot define `{member}` in `{owner}`: superclass `{superclass}` does not resolve "
      ++ "to a class yet"

end Refusal

end Scoping
