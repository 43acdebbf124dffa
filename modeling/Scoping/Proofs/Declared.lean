import Scoping.Proofs.Shape

/-!
# What a declaration adds

A declaration adds one symbol, not yet defined and without a slot, and for a
symbol with a body also the empty scope of that body, enclosed by nothing.
-/

namespace Scoping

/-- The kind of the symbols that are declared so. -/
def Spec.kind : Spec → Kind
  | var _ => .var
  | param _ => .param
  | field _ => .field
  | function _ => .function
  | method _ => .method
  | structType => .structType
  | classType _ => .classType
  | primitiveType => .primitiveType
  | typeAlias _ => .typeAlias

/-- The counter of the slots that members of this kind take. -/
def Layout.next? (layout : Layout) : Kind → Option Nat
  | .field => layout.nextField
  | .method => layout.nextMethod
  | _ => none

namespace Table

/-- After a scope was added, the scopes are the old ones and the new one. -/
theorem scope_push_iff {t u : Table} {d c : Scope} {s : ScopeId}
    (pushed : u.scopes = t.scopes.push d) :
    u.scope s = .ok c ↔ t.scope s = .ok c ∨ s = ⟨t.scopes.size⟩ ∧ c = d := by
  simp only [scope_eq_ok_iff, pushed, Array.getElem?_push]
  by_cases last : s.index = t.scopes.size
  · have same : s = ⟨t.scopes.size⟩ := ScopeId.ext last
    simp [same, eq_comm]
  · have apart : s ≠ ⟨t.scopes.size⟩ := fun h => last (congrArg ScopeId.index h)
    simp [last, apart]

/-- After a symbol was added, the symbols are the old ones and the new one. -/
theorem symbol_push_iff {t u : Table} {b a : Symbol} {x : SymbolId}
    (pushed : u.symbols = t.symbols.push b) :
    u.symbol x = .ok a ↔ t.symbol x = .ok a ∨ x = t.nextSymbol ∧ a = b := by
  simp only [symbol_eq_ok_iff, pushed, Array.getElem?_push]
  by_cases last : x.index = t.symbols.size
  · have same : x = t.nextSymbol := SymbolId.ext last
    simp [same, nextSymbol, eq_comm]
  · have apart : x ≠ t.nextSymbol := fun h => last (congrArg SymbolId.index h)
    simp [last, apart]

/-- The scope of the body of the next symbol. -/
def nextBody (t : Table) : Scope := { kind := .body t.nextSymbol, enclosing := none }

/-- What a new symbol is made of, and the scope made for it. -/
structure Fresh (t : Table) (spec : Spec) (form : Form) (scopes : Array Scope) : Prop where
  kind : form.kind = spec.kind
  unslotted : form.slot? = none
  uncounted : ∀ layout, form.layout? = some layout → ∀ kind, layout.next? kind = none
  body : form.body? = none ∧ scopes = t.scopes ∨
    form.body? = some ⟨t.scopes.size⟩ ∧ scopes = t.scopes.push t.nextBody

/-- After a declaration, the scopes are the old ones and the body of the new symbol. -/
theorem Fresh.scope_iff {t u : Table} {spec : Spec} {form : Form} {s : ScopeId} {c : Scope}
    (fresh : Fresh t spec form u.scopes) :
    u.scope s = .ok c ↔ t.scope s = .ok c ∨ form.body? = some s ∧ c = t.nextBody := by
  rcases fresh.body with ⟨none, same⟩ | ⟨some, pushed⟩
  · simp [scope_eq_ok_iff, same, none]
  · rw [scope_push_iff pushed, some, Option.some.injEq, eq_comm (a := s)]

theorem not_symbol_nextSymbol {t : Table} {a : Symbol} : t.symbol t.nextSymbol ≠ .ok a := by
  rw [Ne, symbol_eq_ok_iff]
  simp [nextSymbol]

theorem fresh_addForm (t : Table) (text : String) (spec : Spec) :
    Fresh t spec (t.addForm text spec).1 (t.addForm text spec).2.scopes := by
  cases spec with
  | var _ => exact ⟨rfl, rfl, (by simp [addForm, Form.layout?]), .inl ⟨rfl, rfl⟩⟩
  | param _ => exact ⟨rfl, rfl, (by simp [addForm, Form.layout?]), .inl ⟨rfl, rfl⟩⟩
  | field _ => exact ⟨rfl, rfl, (by simp [addForm, Form.layout?]), .inl ⟨rfl, rfl⟩⟩
  | function _ => exact ⟨rfl, rfl, (by simp [addForm, Form.layout?]), .inr ⟨rfl, rfl⟩⟩
  | method _ => exact ⟨rfl, rfl, (by simp [addForm, Form.layout?]), .inr ⟨rfl, rfl⟩⟩
  | structType =>
    refine ⟨rfl, rfl, ?_, .inr ⟨rfl, rfl⟩⟩
    rintro layout ⟨⟩ kind
    cases kind <;> rfl
  | classType superclass =>
    cases superclass with
    | none =>
      refine ⟨rfl, rfl, ?_, .inr ⟨rfl, rfl⟩⟩
      rintro layout ⟨⟩ kind
      cases kind <;> rfl
    | some name =>
      refine ⟨rfl, rfl, ?_, .inr ⟨rfl, rfl⟩⟩
      rintro layout ⟨⟩ kind
      cases kind <;> rfl
  | primitiveType => exact ⟨rfl, rfl, (by simp [addForm, Form.layout?]), .inl ⟨rfl, rfl⟩⟩
  | typeAlias _ => exact ⟨rfl, rfl, (by simp [addForm, Form.layout?]), .inl ⟨rfl, rfl⟩⟩

theorem symbols_addForm (t : Table) (text : String) (spec : Spec) :
    (t.addForm text spec).2.symbols = t.symbols := by
  cases spec with
  | classType superclass => cases superclass <;> rfl
  | _ => rfl

theorem config_addForm (t : Table) (text : String) (spec : Spec) :
    (t.addForm text spec).2.config = t.config := by
  cases spec with
  | classType superclass => cases superclass <;> rfl
  | _ => rfl

/-- A declaration adds the symbol at the end, and its body if it has one. -/
theorem declare_eq_ok {t u : Table} {text : String} {spec : Spec} {x : SymbolId}
    (declared : t.declare text spec = .ok (x, u)) :
    x = t.nextSymbol ∧ u.config = t.config ∧ ∃ name form,
      u.symbols = t.symbols.push { name, form } ∧ Fresh t spec form u.scopes := by
  rw [declare] at declared
  split at declared
  · cases declared
  · have config := config_addForm t text spec
    have symbols := symbols_addForm t text spec
    have fresh := fresh_addForm t text spec
    generalize t.addForm text spec = made at config symbols fresh declared
    obtain ⟨form, v⟩ := made
    have result : (v.intern text).2.addSymbol { name := (v.intern text).1, form } = (x, u) :=
      Except.ok.inj declared
    rw [addSymbol, Prod.mk.injEq] at result
    obtain ⟨id, rfl⟩ := result
    refine ⟨?_, config, (v.intern text).1, form, ?_, fresh⟩
    · rw [← id]
      exact congrArg (fun symbols => SymbolId.mk symbols.size) symbols
    · exact congrArg (fun symbols : Array Symbol => symbols.push _) symbols

end Table

end Scoping
