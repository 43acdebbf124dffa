import Scoping.Proofs.Ascent
import Scoping.Table.Outline

/-!
# Questions about the shape

Tables of the same shape are not told apart by any question about places, members and what
lies inside what. Only types, definition sites, slots and blocks play no part in the shape,
and texts depend on the names too.
-/

namespace Scoping

namespace Table

namespace SameShape

variable {t u : Table}

/-! ### Places -/

theorem owningScope?_eq (same : SameShape t u) : t.owningScope? = u.owningScope? := by
  funext x
  exact same.alike.read_symbol
    (fun a b shape => Symbol.owningScope?_eq (Symbol.shape_eq_iff.mp shape).2.2.2.2) x

theorem insertionOrder?_eq (same : SameShape t u) : t.insertionOrder? = u.insertionOrder? := by
  funext x
  exact same.alike.read_symbol (fun a b shape => congrArg (Option.map Placement.position)
    (Symbol.shape_eq_iff.mp shape).2.2.2.2) x

theorem scopeKind_eq (same : SameShape t u) : t.scopeKind = u.scopeKind := by
  funext s
  exact same.alike.read_scope (fun a b shape => (Scope.shape_eq_iff.mp shape).1) s

theorem scopeOwner?_eq (same : SameShape t u) : t.scopeOwner? = u.scopeOwner? := by
  funext s
  exact same.alike.read_scope
    (fun a b shape => Scope.owner?_eq (Scope.shape_eq_iff.mp shape).1) s

theorem symbolsOf_eq (same : SameShape t u) : t.symbolsOf = u.symbolsOf := by
  funext s
  exact same.alike.read_scope
    (fun a b shape => congrArg Array.toList (Scope.shape_eq_iff.mp shape).2.2.1) s

theorem memberCount_eq (same : SameShape t u) : t.memberCount = u.memberCount := by
  funext s
  exact same.alike.read_scope
    (fun a b shape => congrArg Array.size (Scope.shape_eq_iff.mp shape).2.2.1) s

theorem capabilities_eq (same : SameShape t u) : t.capabilities = u.capabilities := by
  funext x
  rw [capabilities, capabilities, same.aspect.kind_eq]

theorem symbolsEqual_eq (same : SameShape t u) : t.symbolsEqual = u.symbolsEqual := by
  funext x y
  rw [symbolsEqual, symbolsEqual, same.aspect.name_eq]

/-! ### Members -/

theorem definedMembers_eq (same : SameShape t u) : t.definedMembers = u.definedMembers := by
  funext kind x
  rw [definedMembers, definedMembers, same.aspect.body?_eq, same.symbolsOf_eq,
    same.aspect.kind_eq]

theorem override_eq (same : SameShape t u) : t.override = u.override := by
  funext listed
  induction listed with
  | nil => rfl
  | cons first rest ih =>
    funext member
    rw [override, override, same.symbolsEqual_eq, ih]

theorem visibleMembers_eq (same : SameShape t u) : t.visibleMembers = u.visibleMembers := by
  funext kind x
  rw [visibleMembers, visibleMembers, same.aspect.kind_eq, same.aspect.chain_eq,
    same.definedMembers_eq, same.override_eq]

theorem fieldCount_eq (same : SameShape t u) : t.fieldCount = u.fieldCount := by
  funext x
  rw [fieldCount, fieldCount, fields, fields, same.visibleMembers_eq]

theorem methodCount_eq (same : SameShape t u) : t.methodCount = u.methodCount := by
  funext x
  rw [methodCount, methodCount, methods, methods, same.visibleMembers_eq]

theorem countInBody_eq (same : SameShape t u) : t.countInBody = u.countInBody := by
  funext p x
  rw [countInBody, countInBody, same.aspect.body?_eq, same.symbolsOf_eq, same.aspect.kind_eq]

/-! ### Scopes around and inside -/

theorem outermost_eq (same : SameShape t u) : t.outermost = u.outermost := by
  have within : ∀ steps, t.outermostWithin steps = u.outermostWithin steps := by
    intro steps
    induction steps with
    | zero => rfl
    | succ steps ih =>
      funext s
      rw [outermostWithin, outermostWithin, same.aspect.enclosing?_eq, ih]
  funext s
  rw [outermost, outermost, outwardSteps, outwardSteps, same.alike.size_scopes, within]

theorem enclosingWhere_eq (same : SameShape t u) : t.enclosingWhere = u.enclosingWhere := by
  funext s p
  rw [enclosingWhere, enclosingWhere, same.aspect.enclosingPath_eq, same.scopeOwner?_eq,
    same.aspect.kind_eq]

theorem enclosingFunction_eq (same : SameShape t u) :
    t.enclosingFunction = u.enclosingFunction := by
  funext s
  rw [enclosingFunction, enclosingFunction, same.enclosingWhere_eq, same.scopeOwner?_eq]

theorem bodiesOf_eq (same : SameShape t u) : t.bodiesOf = u.bodiesOf := by
  funext s
  rw [bodiesOf, bodiesOf, same.symbolsOf_eq, same.aspect.body?_eq]

theorem allBodies_eq (same : SameShape t u) : t.allBodies = u.allBodies := by
  funext s
  rw [allBodies, allBodies, inwardSteps, inwardSteps, same.alike.size_scopes, same.bodiesOf_eq]

theorem allSymbols_eq (same : SameShape t u) : t.allSymbols = u.allSymbols := by
  have within : ∀ depth, t.allSymbolsWithin depth = u.allSymbolsWithin depth := by
    intro depth
    induction depth with
    | zero => rfl
    | succ depth ih =>
      funext s
      rw [allSymbolsWithin, allSymbolsWithin, same.symbolsOf_eq, same.bodiesOf_eq, ih]
  funext s
  rw [allSymbols, allSymbols, inwardSteps, inwardSteps, same.alike.size_scopes, within]

theorem plainMembers_eq (same : SameShape t u) : t.plainMembers = u.plainMembers := by
  funext s
  rw [plainMembers, plainMembers, same.symbolsOf_eq, same.aspect.body?_eq]

end SameShape

end Table

end Scoping
