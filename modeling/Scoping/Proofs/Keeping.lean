import Scoping.Proofs.Ascent
import Scoping.Proofs.Membership

/-!
# What is kept

No operation takes back what was written down. A scope keeps its kind, what it finds, and
the scope around it once there is one. A symbol keeps its name, its kind, its body, its own
type and the name of its superclass, and its place once it has one. Slots are another
matter, since they are set behind the definition.
-/

namespace Scoping

/-- What stands in a scope still stands in its later state. -/
structure Scope.Kept (c d : Scope) : Prop where
  kind : d.kind = c.kind
  enclosing : ∀ {o}, c.enclosing = some o → d.enclosing = some o
  find? : ∀ {n x}, c.find? n = some x → d.find? n = some x

/-- What stands in a symbol still stands in its later state. -/
structure Symbol.Kept (a b : Symbol) : Prop where
  name : b.name = a.name
  kind : b.kind = a.kind
  body : b.form.body? = a.form.body?
  asType : b.form.asType? = a.form.asType?
  superclass : b.form.superclassName? = a.form.superclassName?
  placement : ∀ {p}, a.placement = some p → b.placement = some p

namespace Scope.Kept

variable {c d e : Scope}

theorem refl (c : Scope) : c.Kept c := ⟨rfl, id, id⟩

theorem trans (first : c.Kept d) (second : d.Kept e) : c.Kept e :=
  ⟨second.kind.trans first.kind, fun inside => second.enclosing (first.enclosing inside),
    fun found => second.find? (first.find? found)⟩

theorem owner?_eq (kept : c.Kept d) : d.owner? = c.owner? := Scope.owner?_eq kept.kind

end Scope.Kept

namespace Symbol.Kept

variable {a b e : Symbol}

theorem refl (a : Symbol) : a.Kept a := ⟨rfl, rfl, rfl, rfl, rfl, id⟩

theorem trans (first : a.Kept b) (second : b.Kept e) : a.Kept e :=
  ⟨second.name.trans first.name, second.kind.trans first.kind, second.body.trans first.body,
    second.asType.trans first.asType, second.superclass.trans first.superclass,
    fun placed => second.placement (first.placement placed)⟩

theorem owningScope? (kept : a.Kept b) {s : ScopeId} (home : a.owningScope? = some s) :
    b.owningScope? = some s := by
  obtain ⟨p, placed, rfl⟩ := Option.map_eq_some_iff.mp home
  rw [Symbol.owningScope?, kept.placement placed]
  rfl

/-- A symbol is what it was, as long as only slots are numbered otherwise. -/
theorem of_unnumbered (same : b.unnumbered = a.unnumbered) : a.Kept b := by
  have forms : b.form.unnumbered = a.form.unnumbered := congrArg Symbol.form same
  have types : ∀ form : Form, form.unnumbered.asType? = form.asType? := by
    intro form
    cases form <;> rfl
  have names := congrArg Symbol.name same
  have places := congrArg Symbol.placement same
  constructor
  case name => exact names
  case kind => rw [Symbol.kind, Symbol.kind, ← Form.kind_unnumbered, forms, Form.kind_unnumbered]
  case body => rw [← Form.body?_unnumbered, forms, Form.body?_unnumbered]
  case asType => rw [← types, forms, types]
  case superclass =>
    rw [← Form.superclassName?_unnumbered, forms, Form.superclassName?_unnumbered]
  case placement => exact fun {p} placed => places.trans placed

theorem withDeclaredType (a : Symbol) (type : TypeId) :
    a.Kept { a with form := a.form.withDeclaredType type } := by
  refine ⟨rfl, Form.kind_withDeclaredType a.form type, Form.body?_withDeclaredType a.form type,
    ?_, Form.superclassName?_withDeclaredType a.form type, id⟩
  cases a.form <;> rfl

end Symbol.Kept

namespace Table

variable {t u v : Table} {s : ScopeId} {x : SymbolId} {a : Symbol} {c : Scope}
  {kinds : Kind → Prop}

/-- What stands in a table still stands in a later one. -/
structure Keeps (t u : Table) : Prop where
  names : t.names.Extends u.names
  scope : ∀ {s c}, t.scope s = .ok c → ∃ d, u.scope s = .ok d ∧ c.Kept d
  symbol : ∀ {x a}, t.symbol x = .ok a → ∃ b, u.symbol x = .ok b ∧ a.Kept b

namespace Keeps

theorem refl (t : Table) : Keeps t t :=
  ⟨.refl _, fun read => ⟨_, read, .refl _⟩, fun read => ⟨_, read, .refl _⟩⟩

theorem trans (first : Keeps t u) (second : Keeps u v) : Keeps t v where
  names := first.names.trans second.names
  scope read := by
    obtain ⟨d, read', kept⟩ := first.scope read
    obtain ⟨e, read'', kept'⟩ := second.scope read'
    exact ⟨e, read'', kept.trans kept'⟩
  symbol read := by
    obtain ⟨b, read', kept⟩ := first.symbol read
    obtain ⟨e, read'', kept'⟩ := second.symbol read'
    exact ⟨e, read'', kept.trans kept'⟩

theorem hasScope (keeps : Keeps t u) (given : t.HasScope s) : u.HasScope s := by
  obtain ⟨c, read⟩ := hasScope_iff.mp given
  obtain ⟨d, read', _⟩ := keeps.scope read
  exact hasScope_iff.mpr ⟨d, read'⟩

theorem hasSymbol (keeps : Keeps t u) (given : t.HasSymbol x) : u.HasSymbol x := by
  obtain ⟨a, read⟩ := hasSymbol_iff.mp given
  obtain ⟨b, read', _⟩ := keeps.symbol read
  exact hasSymbol_iff.mpr ⟨b, read'⟩

/-- Where scopes and symbols are the same, there is nothing to take back. -/
theorem of_eq (names : t.names.Extends u.names) (scopes : u.scopes = t.scopes)
    (symbols : u.symbols = t.symbols) : Keeps t u := by
  refine ⟨names, fun {s c} read => ⟨c, ?_, .refl c⟩, fun {x a} read => ⟨a, ?_, .refl a⟩⟩
  · rwa [scope_eq_ok_iff, scopes, ← scope_eq_ok_iff]
  · rwa [symbol_eq_ok_iff, symbols, ← symbol_eq_ok_iff]

theorem modifyScope (t : Table) (s : ScopeId) {f : Scope → Scope}
    (keeps : ∀ c : Scope, c.Kept (f c)) : Keeps t (t.modifyScope s f) := by
  refine ⟨.refl _, fun {r c} read => ?_, fun read => ⟨_, read, .refl _⟩⟩
  rw [scope_modifyScope, read]
  by_cases same : s = r
  · exact ⟨f c, if_pos same, keeps c⟩
  · exact ⟨c, if_neg same, .refl c⟩

theorem modifySymbol (t : Table) (x : SymbolId) {f : Symbol → Symbol}
    (keeps : ∀ a : Symbol, a.Kept (f a)) : Keeps t (t.modifySymbol x f) := by
  refine ⟨.refl _, fun read => ⟨_, read, .refl _⟩, fun {y a} read => ?_⟩
  rw [symbol_modifySymbol, read]
  by_cases same : x = y
  · exact ⟨f a, if_pos same, keeps a⟩
  · exact ⟨a, if_neg same, .refl a⟩

theorem declare {text : String} {spec : Spec} (declared : t.declare text spec = .ok (x, u)) :
    Keeps t u := by
  obtain ⟨names, _⟩ := declare_names declared
  obtain ⟨_, _, name, form, pushed, fresh⟩ := declare_eq_ok declared
  refine ⟨names.extends, fun {s c} read => ⟨c, fresh.scope_iff.mpr (.inl read), .refl c⟩, ?_⟩
  exact fun {y a} read => ⟨a, (symbol_push_iff pushed).mpr (.inl read), .refl a⟩

/-- A definition adds to a scope that did not find the name, places a symbol that had no
place, and encloses a body that nothing enclosed. -/
theorem placed (consistent : t.Consistent) (admits : Admits t s x a c) :
    Keeps t (t.placed s x a c) := by
  refine ⟨names_placed ▸ .refl _, fun {r d} read => ⟨_, scope_placed read, ?_⟩,
    fun {y b} read => ⟨_, symbol_placed read, ?_⟩⟩
  · constructor
    case kind =>
      unfold placedScope
      split <;> split <;> rfl
    case enclosing =>
      intro o inside
      rw [enclosing_placedScope]
      split
      · rename_i body
        obtain ⟨d', read', _, free⟩ := consistent.body admits.symbol body
        cases Except.ok.inj (read.symm.trans read')
        rw [inside, admits.homeless] at free
        cases free
      · exact inside
    case find? =>
      intro n y found
      rw [find?_placedScope]
      split
      · rename_i here
        obtain ⟨rfl, rfl⟩ := here
        cases Except.ok.inj (read.symm.trans admits.scope)
        rw [admits.unnamed] at found
        cases found
      · exact found
  · have form : (placedSymbol s x c y b).form = b.form := form_placedSymbol
    refine ⟨name_placedSymbol, congrArg Form.kind form, congrArg Form.body? form,
      congrArg Form.asType? form, congrArg Form.superclassName? form, fun {p} place => ?_⟩
    rw [placedSymbol]
    split
    · rename_i same
      subst same
      cases Except.ok.inj (read.symm.trans admits.symbol)
      rw [admits.undefined] at place
      cases place
    · exact place

theorem define (consistent : t.Consistent) (defined : t.define s x = .ok (.ok u)) :
    Keeps t u := by
  obtain ⟨a, c, admits, assigned⟩ := define_eq_ok defined
  obtain ⟨symbols, rfl, same⟩ := assignSlotIn_unnumbered assigned
  refine (Keeps.placed consistent admits).trans
    ⟨.refl _, fun read => ⟨_, read, .refl _⟩, fun {y b} read => ?_⟩
  have alike : Alike (fun c : Scope => c) Symbol.unnumbered (t.placed s x a c)
      { t.placed s x a c with symbols } := ⟨rfl, same.symm⟩
  obtain ⟨b', read', unnumbered⟩ := alike.symbol read
  exact ⟨b', read', .of_unnumbered unnumbered⟩

theorem change (consistent : t.Consistent) (change : Change kinds t u) : Keeps t u := by
  cases change with
  | intern text => exact .of_eq (t.names.extends_intern text) rfl rfl
  | requestType r => exact .of_eq (.refl _) rfl rfl
  | numberType type index => exact .of_eq (.refl _) rfl rfl
  | declare declared => exact .declare declared
  | openScope _ =>
    refine ⟨.refl _, fun {s c} read => ⟨c, ?_, .refl c⟩, fun read => ⟨_, read, .refl _⟩⟩
    exact (scope_push_iff rfl).mpr (.inl read)
  | nest _ _ _ =>
    refine .modifyScope t _ fun c => ?_
    unfold Scope.nest
    split
    · exact .refl c
    · exact ⟨rfl, id, id⟩
  | setType type _ => exact .modifySymbol t _ fun a => .withDeclaredType a type
  | setDefSite x site => exact .modifySymbol t x fun a => ⟨rfl, rfl, rfl, rfl, rfl, id⟩
  | define defined _ => exact .define consistent defined

theorem changes (consistent : t.Consistent) (changes : Changes kinds t u) :
    u.Consistent ∧ Keeps t u :=
  changes.keeps_of_consistent consistent (.refl t) fun _ _ consistent keeps change =>
    keeps.trans (.change consistent change)

theorem steps (consistent : t.Consistent) (steps : Steps t u) : Keeps t u :=
  (Keeps.changes consistent (changes_of_steps steps)).2

/-! What can be asked for a symbol or a scope. -/

section Questions

variable (keeps : Keeps t u)
include keeps

theorem owningScope?_eq (home : t.owningScope? x = .ok (some s)) :
    u.owningScope? x = .ok (some s) := by
  obtain ⟨a, read, home⟩ := owningScope?_eq_ok_iff.mp home
  obtain ⟨b, read', kept⟩ := keeps.symbol read
  exact owningScope?_eq_ok_iff.mpr ⟨b, read', kept.owningScope? home⟩

theorem insertionOrder?_eq {i : Nat} (place : t.insertionOrder? x = .ok (some i)) :
    u.insertionOrder? x = .ok (some i) := by
  obtain ⟨a, read, place⟩ := insertionOrder?_eq_ok_iff.mp place
  obtain ⟨b, read', kept⟩ := keeps.symbol read
  obtain ⟨p, placed, position⟩ := Option.map_eq_some_iff.mp place
  refine insertionOrder?_eq_ok_iff.mpr ⟨b, read', ?_⟩
  rw [Symbol.insertionOrder?, kept.placement placed, Option.map_some, position]

theorem enclosing?_eq {o : ScopeId} (inside : t.enclosing? s = .ok (some o)) :
    u.enclosing? s = .ok (some o) := by
  obtain ⟨c, read, inside⟩ := enclosing?_eq_ok_iff.mp inside
  obtain ⟨d, read', kept⟩ := keeps.scope read
  exact enclosing?_eq_ok_iff.mpr ⟨d, read', kept.enclosing inside⟩

theorem body?_eq (given : t.HasSymbol x) : u.body? x = t.body? x := by
  obtain ⟨a, read⟩ := hasSymbol_iff.mp given
  obtain ⟨b, read', kept⟩ := keeps.symbol read
  rw [body?_of_symbol read, body?_of_symbol read', kept.body]

/-- What every symbol has from the start. -/
theorem fixed_eq (given : t.HasSymbol x) : u.name x = t.name x ∧ u.kind x = t.kind x ∧
    u.body? x = t.body? x ∧ u.asType? x = t.asType? x := by
  obtain ⟨a, read⟩ := hasSymbol_iff.mp given
  obtain ⟨b, read', kept⟩ := keeps.symbol read
  rw [name, name, kind_of_symbol read, kind_of_symbol read', keeps.body?_eq given, asType?, asType?,
    read, read']
  simp only [Answer.ok_bind, kept.name, kept.kind, kept.asType, and_self]

theorem symbolName_eq (named : t.Named) (given : t.HasSymbol x) :
    u.symbolName x = t.symbolName x := by
  obtain ⟨a, read⟩ := hasSymbol_iff.mp given
  obtain ⟨text, reads⟩ := named.reads read
  obtain ⟨same, _⟩ := keeps.fixed_eq given
  have before : t.name x = .ok a.name := by
    rw [name, read]
    rfl
  rw [symbolName, symbolName, same, before]
  simp only [Answer.ok_bind, nameText, reads.text, (keeps.names.reads reads).text]

end Questions

end Keeps

end Table

end Scoping
