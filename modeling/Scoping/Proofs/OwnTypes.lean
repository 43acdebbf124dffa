import Scoping.Proofs.Canonical
import Scoping.Proofs.Growth
import Scoping.Proofs.Keeping

/-!
# Types of their own

A struct, a class and an alias have a type that names the symbol itself, and a primitive
type one that has the symbol's name. The type is made before the symbol, from the handle that
the symbol is going to have, and the pool may hold it by then, since callers make types of
any symbol. But the pool holds a type once and for ever. So two symbols share a type only
if both are primitive types of one name.
-/

namespace Scoping

namespace Names

variable {names : Names}

/-- A string that was just interned is interned again under the same name. -/
theorem intern_intern (sound : names.lexicon.Sound) (s : String) :
    ((names.intern s).2.intern s).1 = (names.intern s).1 := by
  rw [intern_of_reads ((names.extends_intern s).sound sound) (reads_intern sound s)]

end Names

theorem Pool.primitiveName?_eq_some_iff {pool : Pool} {id : TypeId} {n : Name} :
    pool.primitiveName? id = some n ↔ pool.expr id = .primitive n := by
  rw [primitiveName?]
  cases pool.expr id <;> simp

/-- The type that a symbol has of its own, and what this type is made of. -/
def Symbol.own? (x : SymbolId) (a : Symbol) : Option (TypeId × TypeExpr) :=
  match a.form with
  | .structType layout | .classType layout _ => some (layout.type, .aggregate x a.name)
  | .primitiveType type => some (type, .primitive a.name)
  | .typeAlias type target => some (type, .typeAlias x a.name target)
  | _ => none

theorem Symbol.own?_unnumbered (x : SymbolId) (a : Symbol) : a.unnumbered.own? x = a.own? x := by
  unfold own? unnumbered
  cases a.form <;> rfl

/-- A symbol that is used as a type has a type of its own. -/
theorem Symbol.exists_own {x : SymbolId} {a : Symbol} (type : a.kind.capabilities.type = true) :
    ∃ id e, a.own? x = some (id, e) ∧ a.form.asType? = some id := by
  rw [Symbol.kind] at type
  unfold own?
  cases form : a.form with
  | structType | classType | primitiveType | typeAlias => exact ⟨_, _, rfl, rfl⟩
  | _ =>
    rw [form] at type
    cases type

theorem Symbol.own?_of_asType? {x : SymbolId} {a : Symbol} {id : TypeId}
    (type : a.form.asType? = some id) : ∃ e, a.own? x = some (id, e) := by
  unfold own?
  cases form : a.form with
  | structType | classType | primitiveType | typeAlias =>
    rw [form] at type
    cases type
    exact ⟨_, rfl⟩
  | _ =>
    rw [form] at type
    cases type

/-- What an own type is made of tells the kind of the symbol. -/
theorem Symbol.own?_cases {x : SymbolId} {a : Symbol} {id : TypeId} {e : TypeExpr}
    (own : a.own? x = some (id, e)) :
    a.kind = .primitiveType ∧ e = .primitive a.name ∨
    (a.kind = .structType ∨ a.kind = .classType) ∧ e = .aggregate x a.name ∨
    ∃ target, a.kind = .typeAlias ∧ a.form.aliasTarget? = some target ∧
      e = .typeAlias x a.name target := by
  rw [Symbol.kind]
  unfold own? at own
  cases form : a.form with
  | primitiveType =>
    rw [form] at own
    cases own
    exact .inl ⟨rfl, rfl⟩
  | structType =>
    rw [form] at own
    cases own
    exact .inr (.inl ⟨.inl rfl, rfl⟩)
  | classType =>
    rw [form] at own
    cases own
    exact .inr (.inl ⟨.inr rfl, rfl⟩)
  | typeAlias _ target =>
    rw [form] at own
    cases own
    exact .inr (.inr ⟨target, rfl, rfl, rfl⟩)
  | _ =>
    rw [form] at own
    cases own

/-- Own types that are made of the same belong to primitive types of one name, unless they
belong to one symbol. -/
theorem Symbol.own?_same {x y : SymbolId} {a b : Symbol} {i j : TypeId} {e : TypeExpr}
    (first : a.own? x = some (i, e)) (second : b.own? y = some (j, e)) (apart : x ≠ y) :
    a.kind = .primitiveType ∧ b.kind = .primitiveType ∧ a.name = b.name := by
  rcases own?_cases first with ⟨kind, rfl⟩ | ⟨_, rfl⟩ | ⟨target, _, _, rfl⟩
  · rcases own?_cases second with ⟨kind', same⟩ | ⟨_, same⟩ | ⟨_, _, _, same⟩
    · exact ⟨kind, kind', TypeExpr.primitive.inj same⟩
    · cases same
    · cases same
  · rcases own?_cases second with ⟨_, same⟩ | ⟨_, same⟩ | ⟨_, _, _, same⟩
    · cases same
    · exact absurd (TypeExpr.aggregate.inj same).1 apart
    · cases same
  · rcases own?_cases second with ⟨_, same⟩ | ⟨_, same⟩ | ⟨_, _, _, same⟩
    · cases same
    · cases same
    · exact absurd (TypeExpr.typeAlias.inj same).1 apart

namespace Table

variable {t u : Table} {x y : SymbolId} {a b : Symbol} {s : ScopeId} {c : Scope}
  {kinds : Kind → Prop} {id : TypeId} {e : TypeExpr}

/-- The own type of a symbol that was given out. -/
def ownAt (t : Table) (x : SymbolId) : Option (TypeId × TypeExpr) :=
  t.symbols[x.index]?.bind fun a => a.own? x

theorem ownAt_of_symbol (read : t.symbol x = .ok a) : t.ownAt x = a.own? x := by
  rw [ownAt, symbol_eq_ok_iff.mp read, Option.bind_some]

/-- The pool is canonical, and the own types of symbols are what they should be. -/
structure Owned (t : Table) : Prop where
  canonical : t.types.Canonical
  holds : ∀ {x id e}, t.ownAt x = some (id, e) → t.types.Holds id e

theorem owned_new (config : Config) : (Table.new config).Owned :=
  ⟨Pool.canonical_start, fun own => by cases own⟩

/-- Own types are kept where the pool grows and the symbols keep theirs. -/
theorem Owned.of_ownAt (owned : t.Owned) (canonical : u.types.Canonical)
    (ext : Pool.Extends t.types u.types) (kept : ∀ x, u.ownAt x = t.ownAt x) : u.Owned :=
  ⟨canonical, fun {x _ _} own => (owned.holds (kept x ▸ own)).mono ext⟩

theorem ownAt_modifySymbol {f : Symbol → Symbol} (keeps : ∀ a, (f a).own? y = a.own? y) :
    (t.modifySymbol x f).ownAt y = t.ownAt y := bind_modifySymbol keeps

theorem ownAt_placed : (t.placed s x a c).ownAt y = t.ownAt y := by
  unfold placed
  cases a.form.body? <;> exact ownAt_modifySymbol fun _ => rfl

theorem ownAt_of_unnumbered (same : u.symbols.map Symbol.unnumbered =
    t.symbols.map Symbol.unnumbered) (x : SymbolId) : u.ownAt x = t.ownAt x := by
  have read : ∀ v : Table, v.ownAt x =
      (v.symbols.map Symbol.unnumbered)[x.index]?.bind fun a => a.own? x := by
    intro v
    rw [ownAt, Array.getElem?_map, Option.bind_map]
    exact congrArg _ (funext fun a => (a.own?_unnumbered x).symm)
  rw [read, read, same]

/-- The type that a declaration asks for is the own type of the symbol that is declared. -/
theorem own_addForm (sound : t.names.lexicon.Sound) (canonical : t.types.Canonical)
    (text : String) (spec : Spec) :
    (t.addForm text spec).2.types.Canonical ∧
    Pool.Extends t.types (t.addForm text spec).2.types ∧
    ∀ {name id e}, name = ((t.addForm text spec).2.intern text).1 →
      Symbol.own? t.nextSymbol { name, form := (t.addForm text spec).1 } = some (id, e) →
        (t.addForm text spec).2.types.Holds id e := by
  have asked : ∀ (r : TypeRequest) {f : Name → TypeExpr} {n : Name}, f n = r.expr →
      (t.types.request r).2.Canonical ∧ Pool.Extends t.types (t.types.request r).2 ∧
      ∀ {name id e}, name = n → some ((t.types.request r).1, f name) = some (id, e) →
        (t.types.request r).2.Holds id e := by
    intro r f n same
    refine ⟨canonical.request r, Pool.extends_intern t.types r.expr, ?_⟩
    rintro name id e rfl own
    obtain ⟨rfl, rfl⟩ := Prod.mk.inj (Option.some.inj own)
    exact same ▸ canonical.indexed.holds_intern r.regular
  -- the name of the symbol is interned once for the type and once for the symbol
  have again := Names.intern_intern sound text
  cases spec with
  | structType =>
    exact asked (.aggregate t.nextSymbol (t.names.intern text).1)
      (congrArg (TypeExpr.aggregate t.nextSymbol) again)
  | classType superclass =>
    cases superclass with
    | none =>
      exact asked (.aggregate t.nextSymbol (t.names.intern text).1)
        (congrArg (TypeExpr.aggregate t.nextSymbol) again)
    | some above =>
      have again' := Names.intern_intern ((t.names.extends_intern above).sound sound) text
      exact asked (.aggregate t.nextSymbol ((t.names.intern above).2.intern text).1)
        (congrArg (TypeExpr.aggregate t.nextSymbol) again')
  | primitiveType =>
    exact asked (.primitive (t.names.intern text).1) (congrArg TypeExpr.primitive again)
  | typeAlias target =>
    exact asked (.typeAlias t.nextSymbol (t.names.intern text).1 target)
      (congrArg (fun n => TypeExpr.typeAlias t.nextSymbol n target) again)
  | _ => exact ⟨canonical, .refl _, fun _ own => by cases own⟩

theorem Owned.declare (owned : t.Owned) (sound : t.names.lexicon.Sound) {text : String}
    {spec : Spec} (declared : t.declare text spec = .ok (x, u)) : u.Owned := by
  obtain ⟨canonical, ext, fresh⟩ := own_addForm sound owned.canonical text spec
  have symbols := symbols_addForm t text spec
  rw [Table.declare] at declared
  split at declared
  · cases declared
  · have result : ((t.addForm text spec).2.intern text).2.addSymbol
        { name := ((t.addForm text spec).2.intern text).1,
          form := (t.addForm text spec).1 } = (x, u) := Except.ok.inj declared
    rw [addSymbol, Prod.mk.injEq] at result
    obtain ⟨_, rfl⟩ := result
    refine ⟨canonical, fun {y id e} own => ?_⟩
    obtain ⟨b, entry, own⟩ := Option.bind_eq_some_iff.mp own
    have pushed := congrArg (fun symbols : Array Symbol => symbols.push
      { name := ((t.addForm text spec).2.intern text).1, form := (t.addForm text spec).1 }) symbols
    rcases (symbol_push_iff pushed).mp (symbol_eq_ok_iff.mpr entry) with old | ⟨rfl, rfl⟩
    · exact (owned.holds ((ownAt_of_symbol old).trans own)).mono ext
    · exact fresh rfl own

theorem Owned.change (owned : t.Owned) (named : t.Named) (change : Change kinds t u) :
    u.Owned := by
  cases change with
  | intern text => exact ⟨owned.canonical, owned.holds⟩
  | requestType r =>
    exact owned.of_ownAt (owned.canonical.request r) (Pool.extends_intern t.types r.expr)
      fun _ => rfl
  | numberType type index =>
    exact owned.of_ownAt (owned.canonical.number type index) ⟨id, id, id⟩ fun _ => rfl
  | declare declared => exact owned.declare named.sound declared
  | openScope _ => exact ⟨owned.canonical, owned.holds⟩
  | nest _ _ _ => exact ⟨owned.canonical, owned.holds⟩
  | setType type _ =>
    refine owned.of_ownAt owned.canonical (.refl _) fun x => ownAt_modifySymbol fun a => ?_
    unfold Symbol.own?
    cases a.form <;> rfl
  | setDefSite x site =>
    exact owned.of_ownAt owned.canonical (.refl _) fun x => ownAt_modifySymbol fun a => rfl
  | @define s x _ defined _ =>
    obtain ⟨a, c, _, assigned⟩ := define_eq_ok defined
    obtain ⟨symbols, rfl, same⟩ := assignSlotIn_unnumbered assigned
    have types : (t.placed s x a c).types = t.types := types_placed
    exact owned.of_ownAt (types ▸ owned.canonical) (types ▸ .refl t.types)
      fun y => (ownAt_of_unnumbered same y).trans ownAt_placed

theorem Reachable.owned (reachable : t.Reachable) : t.Owned :=
  (reachable.keeps (P := fun t => t.Named ∧ t.Owned)
    (fun config => ⟨named_new config, owned_new config⟩)
    fun _ _ both change => ⟨both.1.change change, both.2.change both.1 change⟩).2

/-- What the pool and the table tell of a symbol and its own type agree. -/
structure OwnType (t : Table) (x : SymbolId) (type : TypeId) : Prop where
  asType : t.asType? x = .ok (some type)
  contained : t.types.contains type = true
  name : ∃ n, t.name x = .ok n ∧ t.types.typeName? type = some n
  declared : t.kind x ≠ .ok .primitiveType → t.types.nominalSymbol? type = some x
  target : t.kind x = .ok .typeAlias →
    ∃ target, t.aliasTarget? x = .ok (some target) ∧ t.types.aliasTarget? type = some target
  primitive : t.kind x = .ok .primitiveType →
    ∃ n, t.name x = .ok n ∧ t.types.primitiveName? type = some n

/-- Both symbols are primitive types, and they have the same name. -/
def SamePrimitive (t : Table) (x y : SymbolId) : Prop :=
  t.kind x = .ok .primitiveType ∧ t.kind y = .ok .primitiveType ∧ t.name x = t.name y

instance (t : Table) (x y : SymbolId) : Decidable (t.SamePrimitive x y) :=
  inferInstanceAs (Decidable (_ ∧ _ ∧ _))

theorem name_of_symbol (read : t.symbol x = .ok a) : t.name x = .ok a.name := by
  rw [name, read]
  rfl

theorem asType?_of_symbol (read : t.symbol x = .ok a) : t.asType? x = .ok a.form.asType? := by
  rw [asType?, read]
  rfl

/-- The symbol is a struct, a class, an alias or a primitive type. -/
def IsType (t : Table) (x : SymbolId) : Prop :=
  (t.capabilities x).map Capabilities.type = .ok true

instance (t : Table) (x : SymbolId) : Decidable (t.IsType x) :=
  inferInstanceAs (Decidable (_ = _))

theorem isType_iff : t.IsType x ↔ ∃ a, t.symbol x = .ok a ∧ a.kind.capabilities.type = true := by
  rw [IsType, capabilities, kind]
  cases t.symbol x with
  | error e =>
    constructor
    · intro type
      cases type
    · rintro ⟨_, read, _⟩
      cases read
  | ok a =>
    constructor
    · exact fun type => ⟨a, rfl, Except.ok.inj type⟩
    · rintro ⟨_, ⟨⟩, type⟩
      exact congrArg Except.ok type

theorem Owned.exists_ownType (owned : t.Owned) (isType : t.IsType x) :
    ∃ type, t.OwnType x type := by
  obtain ⟨a, read, type⟩ := isType_iff.mp isType
  obtain ⟨id, e, own, as⟩ := Symbol.exists_own (x := x) type
  have held := owned.holds ((ownAt_of_symbol read).trans own)
  have kind := kind_of_symbol read
  have name := name_of_symbol read
  have expr := held.expr_eq
  have other : ∀ {k l : Kind}, a.kind = k → k ≠ l → t.kind x ≠ .ok l := by
    rintro k l rfl apart same
    exact apart (Except.ok.inj (kind.symm.trans same))
  refine ⟨id, ?_⟩
  constructor
  case asType => rw [asType?_of_symbol read, as]
  case contained => exact held.contains
  case name =>
    refine ⟨a.name, name, ?_⟩
    rcases Symbol.own?_cases own with ⟨_, rfl⟩ | ⟨_, rfl⟩ | ⟨_, _, _, rfl⟩ <;>
      rw [Pool.typeName?, expr]
  case declared =>
    intro apart
    rcases Symbol.own?_cases own with ⟨primitive, rfl⟩ | ⟨_, rfl⟩ | ⟨_, _, _, rfl⟩
    · exact absurd (primitive ▸ kind) apart
    · rw [Pool.nominalSymbol?, expr]
    · rw [Pool.nominalSymbol?, expr]
  case target =>
    intro aliased
    rcases Symbol.own?_cases own with ⟨k, _⟩ | ⟨k | k, _⟩ | ⟨target, _, known, rfl⟩
    · exact absurd aliased (other k (by decide))
    · exact absurd aliased (other k (by decide))
    · exact absurd aliased (other k (by decide))
    · refine ⟨target, ?_, by rw [Pool.aliasTarget?, expr]⟩
      rw [aliasTarget?, read, Answer.ok_bind, known]
      rfl
  case primitive =>
    intro primitive
    rcases Symbol.own?_cases own with ⟨_, rfl⟩ | ⟨k | k, _⟩ | ⟨_, k, _, _⟩
    · exact ⟨a.name, name, by rw [Pool.primitiveName?, expr]⟩
    · exact absurd primitive (other k (by decide))
    · exact absurd primitive (other k (by decide))
    · exact absurd primitive (other k (by decide))

/-- Symbols that are used as one type are primitive types of one name. -/
theorem Owned.samePrimitive (owned : t.Owned) (apart : x ≠ y)
    (first : t.asType? x = .ok (some id)) (second : t.asType? y = .ok (some id)) :
    t.SamePrimitive x y := by
  obtain ⟨a, read, as⟩ := Answer.bind_eq_ok_iff.mp first
  obtain ⟨b, read', as'⟩ := Answer.bind_eq_ok_iff.mp second
  obtain ⟨e, own⟩ := Symbol.own?_of_asType? (x := x) (Except.ok.inj as)
  obtain ⟨e', own'⟩ := Symbol.own?_of_asType? (x := y) (Except.ok.inj as')
  have held := owned.holds ((ownAt_of_symbol read).trans own)
  have held' := owned.holds ((ownAt_of_symbol read').trans own')
  obtain rfl : e = e' := held.expr_eq.symm.trans held'.expr_eq
  obtain ⟨kind, kind', name⟩ := Symbol.own?_same own own' apart
  exact ⟨kind ▸ kind_of_symbol read, kind' ▸ kind_of_symbol read',
    (name_of_symbol read).trans (name ▸ (name_of_symbol read').symm)⟩

/-- Primitive types of one name are used as one type. -/
theorem Owned.asType?_eq (owned : t.Owned) (same : t.SamePrimitive x y) :
    t.asType? x = t.asType? y := by
  obtain ⟨kind, kind', name⟩ := same
  obtain ⟨a, read, primitive⟩ := Answer.bind_eq_ok_iff.mp kind
  obtain ⟨b, read', primitive'⟩ := Answer.bind_eq_ok_iff.mp kind'
  have isType : ∀ {a : Symbol}, a.kind = .primitiveType → a.kind.capabilities.type = true := by
    rintro a primitive
    rw [primitive]
    rfl
  obtain ⟨i, own⟩ :=
    owned.exists_ownType (isType_iff.mpr ⟨a, read, isType (Except.ok.inj primitive)⟩)
  obtain ⟨j, own'⟩ :=
    owned.exists_ownType (isType_iff.mpr ⟨b, read', isType (Except.ok.inj primitive')⟩)
  obtain ⟨n, known, named⟩ := own.primitive kind
  obtain ⟨n', known', named'⟩ := own'.primitive kind'
  cases Except.ok.inj (known.symm.trans (name.trans known'))
  -- the pool holds the primitive type of that name once
  have indexed := owned.canonical.indexed
  have held := indexed.holds_expr own.contained
  have held' := indexed.holds_expr own'.contained
  rw [Pool.primitiveName?_eq_some_iff.mp named] at held
  rw [Pool.primitiveName?_eq_some_iff.mp named'] at held'
  rw [own.asType, own'.asType, indexed.unique held held']

theorem typeIndex?_eq (t : Table) (x : SymbolId) :
    t.typeIndex? x = (t.asType? x).map fun type => type.bind t.types.typeIndex? := by
  rw [typeIndex?]
  cases t.asType? x <;> rfl

/-- A number that is given to a symbol is the number of its type, and of the symbols that are
used as the same type. -/
theorem OwnType.setTypeIndex (own : t.OwnType x id) (i : Nat) :
    ∃ u, t.setTypeIndex x i = .ok u ∧ u.typeIndex? x = .ok (some i) ∧
      ∀ y, t.asType? y ≠ .ok (some id) → u.typeIndex? y = t.typeIndex? y := by
  have numbered : ∀ j, (t.types.setTypeIndex id i).typeIndex? j =
      if id = j then some i else t.types.typeIndex? j := by
    intro j
    rw [Pool.typeIndex?, Pool.setTypeIndex, Std.TreeMap.getElem?_insert]
    simp only [Std.compare_eq_iff_eq]
    rfl
  refine ⟨t.numberType id i, by rw [Table.setTypeIndex, own.asType]; rfl, ?_, fun y other => ?_⟩
  · have asType : (t.numberType id i).asType? x = .ok (some id) := own.asType
    rw [typeIndex?_eq, asType]
    exact congrArg Except.ok ((numbered id).trans (if_pos rfl))
  · have asType : (t.numberType id i).asType? y = t.asType? y := rfl
    rw [typeIndex?_eq, typeIndex?_eq, asType]
    cases known : t.asType? y with
    | error e => rfl
    | ok type =>
      cases type with
      | none => rfl
      | some j =>
        have apart : id ≠ j := fun same => other (same ▸ known)
        exact congrArg Except.ok ((numbered j).trans (if_neg apart))

/-- Type symbols have their own types, whatever types callers make in between. The type that
a symbol is used as is in the pool and tells the name of the symbol, the symbol itself unless
it is a primitive type, and the target of an alias. Two symbols are used as one type just
when both are primitive types of one name, and only then a number that is given to the one
changes the number of the other. -/
theorem Reachable.own_types (reachable : t.Reachable) :
    (∀ x, t.IsType x → ∃ type, t.OwnType x type) ∧
    (∀ a b, a ≠ b → t.IsType a → t.IsType b →
      (t.asType? a = t.asType? b ↔ t.SamePrimitive a b)) ∧
    ∀ b i, t.IsType b → ∃ u, t.setTypeIndex b i = .ok u ∧ u.typeIndex? b = .ok (some i) ∧
      ∀ a, a ≠ b → u.typeIndex? a = t.typeIndex? a ∨ t.SamePrimitive a b := by
  have owned := reachable.owned
  refine ⟨fun x => owned.exists_ownType, fun a b apart isType isType' => ⟨fun same => ?_,
    owned.asType?_eq⟩, fun b i isType => ?_⟩
  · obtain ⟨type, own⟩ := owned.exists_ownType isType
    exact owned.samePrimitive apart own.asType (same ▸ own.asType)
  · obtain ⟨type, own⟩ := owned.exists_ownType isType
    obtain ⟨u, set, numbered, kept⟩ := own.setTypeIndex i
    refine ⟨u, set, numbered, fun a apart => ?_⟩
    by_cases shared : t.asType? a = .ok (some type)
    · exact .inr (owned.samePrimitive apart shared own.asType)
    · exact .inl (kept a shared)

/-- The types of two structs, an alias and two primitive types. The type of the first struct
is made before the struct is. -/
def homonyms : Run where
  config := {}
  operations := [
    .intern "S", .requestType (.aggregate ⟨0⟩ ⟨1⟩),
    .declare "S" .structType, .declare "S" .structType,
    .declare "int" .primitiveType, .declare "int" .primitiveType,
    .declare "A" (.typeAlias ⟨3⟩)]
  accepted := by decide +kernel

/-- The structs are used as two types, the primitive types as one. -/
theorem homonyms_own_types : homonyms.final.Reachable ∧
    (∃ type, homonyms.final.OwnType ⟨0⟩ type) ∧
    homonyms.final.asType? ⟨0⟩ ≠ homonyms.final.asType? ⟨1⟩ ∧
    homonyms.final.asType? ⟨2⟩ = homonyms.final.asType? ⟨3⟩ ∧
    ∃ u, homonyms.final.setTypeIndex ⟨1⟩ 7 = .ok u ∧ u.typeIndex? ⟨1⟩ = .ok (some 7) ∧
      u.typeIndex? ⟨4⟩ = .ok none := by
  have reachable : homonyms.final.Reachable := homonyms.reachable homonyms.operations.length
  obtain ⟨own, shared, numbered⟩ := Reachable.own_types reachable
  have isType : ∀ i < 5, homonyms.final.IsType ⟨i⟩ := by decide +kernel
  have structs : ¬ homonyms.final.SamePrimitive ⟨0⟩ ⟨1⟩ := by decide +kernel
  have primitives : homonyms.final.SamePrimitive ⟨2⟩ ⟨3⟩ := by decide +kernel
  have other : ¬ homonyms.final.SamePrimitive ⟨4⟩ ⟨1⟩ := by decide +kernel
  have unnumbered : homonyms.final.typeIndex? ⟨4⟩ = .ok none := by decide +kernel
  obtain ⟨u, set, known, kept⟩ := numbered ⟨1⟩ 7 (isType 1 (by decide))
  refine ⟨reachable, own ⟨0⟩ (isType 0 (by decide)), fun same => ?_, ?_, u, set, known, ?_⟩
  · exact structs ((shared ⟨0⟩ ⟨1⟩ (by decide) (isType 0 (by decide)) (isType 1 (by decide))).mp
      same)
  · exact (shared ⟨2⟩ ⟨3⟩ (by decide) (isType 2 (by decide)) (isType 3 (by decide))).mpr primitives
  · exact ((kept ⟨4⟩ (by decide)).resolve_right other).trans unnumbered

end Table

end Scoping
