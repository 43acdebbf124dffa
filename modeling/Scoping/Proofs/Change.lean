import Mathlib.Logic.Relation
import Scoping.Proofs.Defined

/-!
# Elementary changes

An operation is carried out by elementary changes. What each of these keeps, every
operation keeps, and with it every run and every table that is ever reached. The
kinds of the symbols that are defined on the way are kept apart, because members of
structs and classes get their slots then.
-/

namespace Scoping

namespace Table

/-- An elementary change of a table; only symbols of the given kinds are defined by it. -/
inductive Change (kinds : Kind → Prop) (t : Table) : Table → Prop
  | intern (text : String) : Change kinds t (t.intern text).2
  | requestType (r : TypeRequest) : Change kinds t (t.requestType r).2
  | numberType (type : TypeId) (index : Nat) : Change kinds t (t.numberType type index)
  | declare {text : String} {spec : Spec} {x : SymbolId} {u : Table} :
      t.declare text spec = .ok (x, u) → Change kinds t u
  | openScope {s : ScopeId} : t.HasScope s → Change kinds t (t.openScope s).2
  | nest {parent block : ScopeId} {b : Scope} : t.scope block = .ok b → b.owner? = none →
      b.enclosing = some parent → Change kinds t (t.modifyScope parent (·.nest block))
  | setType {x : SymbolId} {a : Symbol} (type : TypeId) : t.symbol x = .ok a →
      Change kinds t (t.modifySymbol x fun x => { x with form := x.form.withDeclaredType type })
  | setDefSite (x : SymbolId) (site : DefSite) :
      Change kinds t (t.modifySymbol x ({ · with defSite := some site }))
  | define {s : ScopeId} {x : SymbolId} {u : Table} : t.define s x = .ok (.ok u) →
      (∀ a, t.symbol x = .ok a → kinds a.kind) → Change kinds t u

/-- Any number of elementary changes. -/
def Changes (kinds : Kind → Prop) : Table → Table → Prop := Relation.ReflTransGen (Change kinds)

variable {t u v : Table} {kinds : Kind → Prop}

theorem Changes.refl (t : Table) : Changes kinds t t := Relation.ReflTransGen.refl

theorem Changes.trans (first : Changes kinds t u) (second : Changes kinds u v) :
    Changes kinds t v := Relation.ReflTransGen.trans first second

theorem Change.changes (change : Change kinds t u) : Changes kinds t u :=
  Relation.ReflTransGen.single change

/-- What every elementary change keeps, any number of them keep. -/
theorem Changes.keeps {P : Table → Prop} (changes : Changes kinds t u) (start : P t)
    (step : ∀ t u, P t → Change kinds t u → P u) : P u := by
  induction changes with
  | refl => exact start
  | tail _ change ih => exact step _ _ ih change

/-- What the shape tells is kept by a change, if placing a symbol keeps it and adding one or
a scope does. -/
theorem Change.keeps_shape {P : Table → Prop} (change : Change kinds t u) (before : P t)
    (shape : ∀ {t u}, SameShape t u → P t → P u)
    (declared : ∀ {text spec x}, t.declare text spec = .ok (x, u) → P u)
    (opened : ∀ {s}, t.HasScope s → P (t.openScope s).2)
    (placed : ∀ {s x a c}, Admits t s x a c → P (t.placed s x a c)) : P u := by
  cases change with
  | intern text => exact shape (t := t) (.of_eq rfl rfl) before
  | requestType r => exact shape (t := t) (.of_eq rfl rfl) before
  | numberType type index => exact shape (t := t) (.of_eq rfl rfl) before
  | declare made => exact declared made
  | openScope given => exact opened given
  | nest _ _ _ => exact shape (sameShape_nest t _ _) before
  | setType type _ => exact shape (sameShape_setType t _ type) before
  | setDefSite x site => exact shape (sameShape_setDefSite t x site) before
  | define defined _ =>
    obtain ⟨a, c, admits, assigned⟩ := define_eq_ok defined
    exact shape (sameShape_assignSlotIn assigned) (placed admits)

theorem changes_of_define {s : ScopeId} {x : SymbolId} {result : Except Refusal Table}
    (defined : t.define s x = .ok result) (allowed : ∀ a, t.symbol x = .ok a → kinds a.kind) :
    Changes kinds t (t.outcomeOf result).2 := by
  cases result with
  | error refusal => exact .refl t
  | ok u => exact (Change.define defined allowed).changes

/-- A scope can be nested when it is a block inside the other. -/
theorem nestRefusal?_eq_none_iff {parent child : ScopeId} :
    t.nestRefusal? parent child = .ok none ↔
      ∃ b, t.scope child = .ok b ∧ b.owner? = none ∧ b.enclosing = some parent := by
  rw [nestRefusal?, Answer.bind_eq_ok_iff]
  refine exists_congr fun b => and_congr_right fun _ => ?_
  cases b.owner? with
  | some owner => simp [Answer.bind_eq_ok_iff]
  | none =>
    simp only [true_and]
    split
    · rename_i inside
      exact iff_of_true rfl inside
    · rename_i outside
      refine iff_of_false (fun checked => ?_) outside
      obtain ⟨_, _, checked⟩ := Answer.bind_eq_ok_iff.mp checked
      obtain ⟨_, _, checked⟩ := Answer.bind_eq_ok_iff.mp checked
      cases checked

/-- A block that is nested is listed in the scope around it, and no other scope takes it. -/
theorem nest_eq_ok_iff {parent child : ScopeId} :
    t.nest parent child = .ok (.ok u) ↔ ∃ b c, t.scope child = .ok b ∧ b.owner? = none ∧
      b.enclosing = some parent ∧ t.scope parent = .ok c ∧
      u = t.modifyScope parent (·.nest child) := by
  constructor
  · intro nested
    obtain ⟨refusal, checked, nested⟩ := Answer.bind_eq_ok_iff.mp nested
    cases refusal with
    | some refusal => cases nested
    | none =>
      obtain ⟨b, block, owner, inside⟩ := nestRefusal?_eq_none_iff.mp checked
      obtain ⟨_, known, nested⟩ := Answer.bind_eq_ok_iff.mp nested
      cases nested
      cases read : t.scope parent with
      | error e => rw [read] at known; cases known
      | ok c => exact ⟨b, c, block, owner, inside, rfl, rfl⟩
  · rintro ⟨b, c, block, owner, inside, read, rfl⟩
    have checked := nestRefusal?_eq_none_iff.mpr ⟨b, block, owner, inside⟩
    simp only [nest, checked, Answer.ok_bind, read]
    rfl

theorem changes_of_nest {parent child : ScopeId} {result : Except Refusal Table}
    (nested : t.nest parent child = .ok result) : Changes kinds t (t.outcomeOf result).2 := by
  cases result with
  | error refusal => exact .refl t
  | ok u =>
    obtain ⟨b, _, block, owner, inside, _, rfl⟩ := nest_eq_ok_iff.mp nested
    exact (Change.nest block owner inside).changes

theorem changes_of_setType {x : SymbolId} {type : TypeId} {result : Except Refusal Table}
    (set : t.setType x type = .ok result) : Changes kinds t (t.outcomeOf result).2 := by
  rw [setType] at set
  obtain ⟨a, symbol, set⟩ := Answer.bind_eq_ok_iff.mp set
  split at set
  · cases set; exact (Change.setType type symbol).changes
  · cases set; exact .refl t

theorem changes_of_setTypeIndex {x : SymbolId} {index : Nat}
    (set : t.setTypeIndex x index = .ok u) : Changes kinds t u := by
  rw [setTypeIndex] at set
  obtain ⟨type, _, set⟩ := Answer.bind_eq_ok_iff.mp set
  cases type with
  | none => cases set; exact .refl t
  | some type => cases set; exact (Change.numberType type index).changes

theorem changes_of_openBlock {s : ScopeId} {id : ScopeId} (given : t.HasScope s)
    (opened : t.openBlock s = .ok (id, u)) : Changes kinds t u := by
  rw [openBlock] at opened
  obtain ⟨_, _, opened⟩ := Answer.bind_eq_ok_iff.mp opened
  cases opened
  have block : (t.openScope s).2.scope (t.openScope s).1 =
      .ok { kind := .block, enclosing := some s } := by
    rw [scope_eq_ok_iff]
    exact Array.getElem?_push_size
  exact (Change.openScope given).changes.trans (Change.nest block rfl rfl).changes

theorem changes_of_defineBuiltinsFrom {index : Nat} {names : List String}
    {outcome : Except Refusal (List SymbolId)}
    (defined : t.defineBuiltinsFrom index names = .ok (outcome, u))
    (allowed : kinds .primitiveType) : Changes kinds t u := by
  induction names generalizing t index outcome with
  | nil => cases defined; exact .refl _
  | cons name rest ih =>
    rw [defineBuiltinsFrom] at defined
    obtain ⟨⟨x, t₁⟩, declared, defined⟩ := Answer.bind_eq_ok_iff.mp defined
    obtain ⟨result, placed, defined⟩ := Answer.bind_eq_ok_iff.mp defined
    have first : Changes kinds t t₁ := (Change.declare declared).changes
    have primitive : ∀ a, t₁.symbol x = .ok a → kinds a.kind := by
      intro a symbol
      obtain ⟨rfl, _, name, form, pushed, fresh⟩ := declare_eq_ok declared
      rcases (symbol_push_iff pushed).mp symbol with old | ⟨_, rfl⟩
      · exact absurd old not_symbol_nextSymbol
      · rw [Symbol.kind, fresh.kind]
        exact allowed
    cases result with
    | error refusal => cases defined; exact first
    | ok t₂ =>
      obtain ⟨t₃, numbered, defined⟩ := Answer.bind_eq_ok_iff.mp defined
      obtain ⟨⟨more, t₄⟩, remaining, defined⟩ := Answer.bind_eq_ok_iff.mp defined
      cases defined
      have second := first.trans (Change.define placed primitive).changes
      exact (second.trans (changes_of_setTypeIndex numbered)).trans (ih remaining)

/-- Every operation is carried out by elementary changes. Primitive types aside, only
the operation that says so defines a symbol. -/
theorem changes_of_apply {op : Operation} {outcome : Outcome} (proper : op.Proper t)
    (applied : t.apply op = .ok (outcome, u)) (primitive : kinds .primitiveType)
    (allowed : ∀ s x a, op = .define s x → t.symbol x = .ok a → kinds a.kind) :
    Changes kinds t u := by
  cases op with
  | declare text spec =>
    obtain ⟨⟨x, v⟩, declared, done⟩ := Answer.bind_eq_ok_iff.mp applied
    cases done
    exact (Change.declare declared).changes
  | openScope s => cases applied; exact (Change.openScope proper).changes
  | openBlock s =>
    obtain ⟨⟨id, v⟩, opened, done⟩ := Answer.bind_eq_ok_iff.mp applied
    cases done
    exact changes_of_openBlock proper opened
  | define s x =>
    obtain ⟨result, defined, done⟩ := Answer.bind_eq_ok_iff.mp applied
    have same : (t.outcomeOf result).2 = u := congrArg Prod.snd (Except.ok.inj done)
    exact same ▸ changes_of_define defined (allowed s x · rfl)
  | defineBuiltins names =>
    obtain ⟨⟨result, v⟩, defined, done⟩ := Answer.bind_eq_ok_iff.mp applied
    cases done
    exact changes_of_defineBuiltinsFrom defined primitive
  | nest parent child =>
    obtain ⟨result, nested, done⟩ := Answer.bind_eq_ok_iff.mp applied
    have same : (t.outcomeOf result).2 = u := congrArg Prod.snd (Except.ok.inj done)
    exact same ▸ changes_of_nest nested
  | setType x type =>
    obtain ⟨result, set, done⟩ := Answer.bind_eq_ok_iff.mp applied
    have same : (t.outcomeOf result).2 = u := congrArg Prod.snd (Except.ok.inj done)
    exact same ▸ changes_of_setType set
  | setDefSite x site =>
    obtain ⟨v, set, done⟩ := Answer.bind_eq_ok_iff.mp applied
    obtain ⟨_, _, set⟩ := Answer.bind_eq_ok_iff.mp set
    cases done
    cases set
    exact (Change.setDefSite x site).changes
  | setTypeIndex x index =>
    obtain ⟨v, set, done⟩ := Answer.bind_eq_ok_iff.mp applied
    cases done
    exact changes_of_setTypeIndex set
  | numberType type index => cases applied; exact (Change.numberType type index).changes
  | intern text => cases applied; exact (Change.intern text).changes
  | requestType r => cases applied; exact (Change.requestType r).changes

theorem changes_of_steps (steps : Steps t u) : Changes (fun _ => True) t u := by
  induction steps with
  | refl => exact .refl _
  | step _ proper applied ih =>
    exact ih.trans (changes_of_apply proper applied trivial fun _ _ _ _ _ => trivial)

/-- What a new table has and every elementary change keeps, every reachable table has. -/
theorem Reachable.keeps {P : Table → Prop} (reachable : Reachable t)
    (start : ∀ config, P (.new config))
    (step : ∀ t u, P t → Change (fun _ => True) t u → P u) : P t := by
  obtain ⟨config, steps⟩ := reachable
  exact (changes_of_steps steps).keeps (start config) step

end Table

end Scoping
