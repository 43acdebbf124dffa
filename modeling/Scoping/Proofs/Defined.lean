import Scoping.Proofs.Declared

/-!
# What a definition changes

A definition is admitted under five conditions. It then lists the symbol in the
scope, tells the symbol where it is, puts its body inside the scope, and at last
gives a member of a struct or class its slot. The table between the last two
steps is the one from which the slot is worked out.
-/

namespace Scoping

namespace Table

variable {t u : Table} {s r : ScopeId} {x y : SymbolId} {a e : Symbol} {c d : Scope}

/-- The conditions under which a symbol may be defined in a scope. -/
structure Admits (t : Table) (s : ScopeId) (x : SymbolId) (a : Symbol) (c : Scope) : Prop where
  symbol : t.symbol x = .ok a
  scope : t.scope s = .ok c
  undefined : a.placement = none
  unnamed : c.find? a.name = none
  owned : ∀ owner, c.owner? = some owner → ∃ kind, t.kind owner = .ok kind ∧
    (kind.isAggregate = true → a.kind.capabilities.member = true) ∧
    (t.slotNeedsSuperclass a.kind = true → t.missingSuperclass? owner = .ok none)
  outside : ∀ body, a.form.body? = some body → ∃ path, t.enclosingPath s = .ok path ∧ body ∉ path

/-- The table with a symbol placed in a scope, before the symbol has its slot. -/
def placed (t : Table) (s : ScopeId) (x : SymbolId) (a : Symbol) (c : Scope) : Table :=
  let t := t.modifyScope s (·.add a.name x)
  let t := t.modifySymbol x ({ · with placement := some ⟨s, c.members.size⟩ })
  match a.form.body? with
  | none => t
  | some body => t.modifyScope body ({ · with enclosing := some s })

theorem place_eq_ok (symbol : t.symbol x = .ok a) (scope : t.scope s = .ok c) :
    t.place s x = .ok (t.placed s x a c) := by
  unfold place placed
  simp only [symbol, scope, Answer.ok_bind]
  cases a.form.body? with
  | none => rfl
  | some body => rfl

theorem ownerRefusal?_eq_none {owner : SymbolId}
    (accepted : t.ownerRefusal? owner a = .ok none) : ∃ kind, t.kind owner = .ok kind ∧
      (kind.isAggregate = true → a.kind.capabilities.member = true) ∧
      (t.slotNeedsSuperclass a.kind = true → t.missingSuperclass? owner = .ok none) := by
  rw [ownerRefusal?] at accepted
  obtain ⟨kind, read, accepted⟩ := Answer.bind_eq_ok_iff.mp accepted
  refine ⟨kind, read, ?_⟩
  split at accepted
  · obtain ⟨name, _, accepted⟩ := Answer.bind_eq_ok_iff.mp accepted
    cases accepted
  · rename_i member
    refine ⟨fun aggregate => ?_, fun needs => ?_⟩
    · exact Decidable.of_not_not fun lacks => member ⟨aggregate, lacks⟩
    · rw [if_pos needs] at accepted
      obtain ⟨missing, found, accepted⟩ := Answer.bind_eq_ok_iff.mp accepted
      cases missing with
      | none => exact found
      | some pair => cases accepted

theorem cycleRefusal?_eq_none (accepted : t.cycleRefusal? s a = .ok none) (body : ScopeId)
    (has : a.form.body? = some body) : ∃ path, t.enclosingPath s = .ok path ∧ body ∉ path := by
  rw [cycleRefusal?] at accepted
  rw [has] at accepted
  obtain ⟨path, walked, accepted⟩ := Answer.bind_eq_ok_iff.mp accepted
  refine ⟨path, walked, fun inside => ?_⟩
  rw [if_pos inside] at accepted
  cases accepted

theorem refusal?_eq_none (accepted : t.refusal? s x = .ok none) : ∃ a c, Admits t s x a c := by
  rw [refusal?] at accepted
  obtain ⟨a, symbol, accepted⟩ := Answer.bind_eq_ok_iff.mp accepted
  cases home : a.owningScope? with
  | some scope =>
    simp only [home] at accepted
    obtain ⟨name, _, accepted⟩ := Answer.bind_eq_ok_iff.mp accepted
    cases accepted
  | none =>
    simp only [home] at accepted
    obtain ⟨c, scope, accepted⟩ := Answer.bind_eq_ok_iff.mp accepted
    have undefined : a.placement = none := Option.map_eq_none_iff.mp home
    split at accepted
    · obtain ⟨name, _, accepted⟩ := Answer.bind_eq_ok_iff.mp accepted
      cases accepted
    · rename_i free
      have unnamed : c.find? a.name = none := by simpa using free
      cases owner : c.owner? with
      | none =>
        simp only [owner] at accepted
        refine ⟨a, c, symbol, scope, undefined, unnamed, ?_, cycleRefusal?_eq_none accepted⟩
        intro o has
        cases owner.symm.trans has
      | some o =>
        simp only [owner] at accepted
        obtain ⟨refusal, checked, accepted⟩ := Answer.bind_eq_ok_iff.mp accepted
        cases refusal with
        | some refusal => cases accepted
        | none =>
          refine ⟨a, c, symbol, scope, undefined, unnamed, ?_, cycleRefusal?_eq_none accepted⟩
          intro o' has
          cases owner.symm.trans has
          exact ownerRefusal?_eq_none checked

/-- A definition that succeeds was admitted; it places the symbol and gives it its slot. -/
theorem define_eq_ok (defined : t.define s x = .ok (.ok u)) :
    ∃ a c, Admits t s x a c ∧ (t.placed s x a c).assignSlotIn s x = .ok u := by
  rw [define] at defined
  obtain ⟨refusal, checked, defined⟩ := Answer.bind_eq_ok_iff.mp defined
  cases refusal with
  | some refusal => cases defined
  | none =>
    obtain ⟨a, c, admits⟩ := refusal?_eq_none checked
    simp only [place_eq_ok admits.symbol admits.scope, Answer.ok_bind] at defined
    obtain ⟨v, assigned, defined⟩ := Answer.bind_eq_ok_iff.mp defined
    cases defined
    exact ⟨a, c, admits, assigned⟩

/-! ### The entries of the table in between -/

/-- A scope after a symbol was placed: listed in `s`, and enclosed by it if it is the body. -/
def placedScope (s : ScopeId) (x : SymbolId) (a : Symbol) (r : ScopeId) (d : Scope) : Scope :=
  let d := if s = r then d.add a.name x else d
  if a.form.body? = some r then { d with enclosing := some s } else d

/-- A symbol after `x` was placed. -/
def placedSymbol (s : ScopeId) (x : SymbolId) (c : Scope) (y : SymbolId) (e : Symbol) : Symbol :=
  if x = y then { e with placement := some ⟨s, c.members.size⟩ } else e

theorem scope_placed (read : t.scope r = .ok d) :
    (t.placed s x a c).scope r = .ok (placedScope s x a r d) := by
  unfold placed placedScope
  cases body : a.form.body? with
  | none =>
    simp only [scope_modifySymbol, scope_modifyScope, read]
    by_cases here : s = r
    · simp [here, Except.map]
    · simp [here]
  | some b =>
    simp only [scope_modifySymbol, scope_modifyScope, read, Option.some.injEq]
    by_cases here : s = r <;> by_cases inner : b = r <;> simp [here, inner, Except.map]

theorem symbol_placed (read : t.symbol y = .ok e) :
    (t.placed s x a c).symbol y = .ok (placedSymbol s x c y e) := by
  unfold placed placedSymbol
  cases body : a.form.body? with
  | none =>
    simp only [symbol_modifySymbol, symbol_modifyScope, read]
    by_cases here : x = y <;> simp [here, Except.map]
  | some b =>
    simp only [symbol_modifySymbol, symbol_modifyScope, read]
    by_cases here : x = y <;> simp [here, Except.map]

@[simp]
theorem size_scopes_placed : (t.placed s x a c).scopes.size = t.scopes.size := by
  unfold placed
  cases a.form.body? <;> simp [modifyScope, modifySymbol]

@[simp]
theorem size_symbols_placed : (t.placed s x a c).symbols.size = t.symbols.size := by
  unfold placed
  cases a.form.body? <;> simp [modifyScope, modifySymbol]

/-- The scopes of a table with a symbol placed are the old ones, changed. -/
theorem of_scope_placed (read : (t.placed s x a c).scope r = .ok d) :
    ∃ d₀, t.scope r = .ok d₀ ∧ d = placedScope s x a r d₀ := by
  have given : t.HasScope r := by
    have := hasScope_iff.mpr ⟨d, read⟩
    rwa [HasScope, size_scopes_placed] at this
  obtain ⟨d₀, read₀⟩ := hasScope_iff.mp given
  exact ⟨d₀, read₀, Except.ok.inj (read.symm.trans (scope_placed read₀))⟩

theorem of_symbol_placed (read : (t.placed s x a c).symbol y = .ok e) :
    ∃ e₀, t.symbol y = .ok e₀ ∧ e = placedSymbol s x c y e₀ := by
  have given : t.HasSymbol y := by
    have := hasSymbol_iff.mpr ⟨e, read⟩
    rwa [HasSymbol, size_symbols_placed] at this
  obtain ⟨e₀, read₀⟩ := hasSymbol_iff.mp given
  exact ⟨e₀, read₀, Except.ok.inj (read.symm.trans (symbol_placed read₀))⟩

@[simp]
theorem kind_placedScope : (placedScope s x a r d).kind = d.kind := by
  unfold placedScope
  split <;> split <;> rfl

@[simp]
theorem owner?_placedScope : (placedScope s x a r d).owner? = d.owner? :=
  congrArg ScopeKind.owner? kind_placedScope

theorem enclosing_placedScope : (placedScope s x a r d).enclosing =
    if a.form.body? = some r then some s else d.enclosing := by
  unfold placedScope
  split <;> split <;> rfl

theorem members_placedScope : (placedScope s x a r d).members =
    if s = r then d.members.push x else d.members := by
  unfold placedScope
  split <;> split <;> rfl

@[simp]
theorem blocks_placedScope : (placedScope s x a r d).blocks = d.blocks := by
  unfold placedScope
  split <;> split <;> rfl

theorem find?_placedScope {n : Name} : (placedScope s x a r d).find? n =
    if s = r ∧ a.name = n then some x else d.find? n := by
  have inner : (placedScope s x a r d).find? n =
      (if s = r then d.add a.name x else d).find? n := by
    unfold placedScope
    split <;> split <;> rfl
  rw [inner]
  by_cases here : s = r
  · simp [here, Scope.find?_add]
  · simp [here]

@[simp]
theorem form_placedSymbol : (placedSymbol s x c y e).form = e.form := by
  unfold placedSymbol
  split <;> rfl

@[simp]
theorem name_placedSymbol : (placedSymbol s x c y e).name = e.name := by
  unfold placedSymbol
  split <;> rfl

theorem owningScope?_placedSymbol : (placedSymbol s x c y e).owningScope? =
    if x = y then some s else e.owningScope? := by
  unfold placedSymbol
  split <;> rfl

/-! ### What a definition leaves alone -/

theorem config_placed : (t.placed s x a c).config = t.config := by
  rw [placed]
  cases a.form.body? <;> rfl

theorem names_placed : (t.placed s x a c).names = t.names := by
  unfold placed
  cases a.form.body? <;> rfl

theorem types_placed : (t.placed s x a c).types = t.types := by
  unfold placed
  cases a.form.body? <;> rfl

end Table

end Scoping
