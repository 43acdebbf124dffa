import Scoping.Proofs.OwnTypes
import Scoping.Proofs.SlotBounds
import Scoping.Proofs.Writing

/-!
# Every question is answered

Handles that a table holds were given out, and so no walk that follows them reads an entry
that is not there. Every question about a scope, a symbol or a type of a reachable table has
an answer, if no type occurs in itself; only the text of an outline can be missing, when there
is no room for it.
-/

namespace Scoping

namespace Table

variable {t : Table} {s : ScopeId} {x : SymbolId}

/-! ### Handles inside a table -/

/-- Every handle that a table holds was given out. -/
structure Closed (t : Table) : Prop where
  predefined : t.HasScope .predefined
  global : t.HasScope .global
  members : ∀ {s c x}, t.scope s = .ok c → x ∈ c.members → t.HasSymbol x
  index : ∀ {s c n x}, t.scope s = .ok c → c.find? n = some x → t.HasSymbol x
  blocks : ∀ {s c q}, t.scope s = .ok c → q ∈ c.blocks → t.HasScope q
  enclosing : ∀ {s c o}, t.scope s = .ok c → c.enclosing = some o → t.HasScope o
  owner : ∀ {s c x}, t.scope s = .ok c → c.owner? = some x → t.HasSymbol x
  body : ∀ {x a s}, t.symbol x = .ok a → a.form.body? = some s → t.HasScope s
  home : ∀ {x a s}, t.symbol x = .ok a → a.owningScope? = some s → t.HasScope s

theorem Reachable.closed (reachable : t.Reachable) : t.Closed where
  predefined := by
    obtain ⟨c, root, _⟩ := reachable.forest.root
    exact hasScope_iff.mpr ⟨c, root⟩
  global := by
    obtain ⟨config, steps⟩ := reachable
    exact (Keeps.steps (consistent_new config) steps).hasScope (by decide : 1 < 2)
  members := reachable.consistent.hasSymbol_of_listed
  index := reachable.consistent.hasSymbol_of_found
  blocks read listed := by
    obtain ⟨d, block, _⟩ := reachable.forest.block read listed
    exact hasScope_iff.mpr ⟨d, block⟩
  enclosing := reachable.consistent.enclosing
  owner := reachable.consistent.hasSymbol_of_owned
  body := reachable.consistent.hasScope_of_body
  home := reachable.consistent.hasScope_of_home

/-! ### All questions -/

/-- The questions about a scope are answered. -/
structure ScopeAnswers (t : Table) (s : ScopeId) : Prop where
  kind : (t.scopeKind s).Given
  owner : (t.scopeOwner? s).Given
  name : (t.scopeName s).Given
  symbols : (t.symbolsOf s).Given
  count : (t.memberCount s).Given
  names : (t.symbolNames s).Given
  enclosing : (t.enclosing? s).Given
  path : (t.enclosingPath s).Given
  outermost : (t.outermost s).Given
  enclosingWhere : ∀ p, (t.enclosingWhere s p).Given
  function : (t.enclosingFunction s).Given
  bodies : (t.bodiesOf s).Given
  nested : (t.nestedScopes s).Given
  allBodies : (t.allBodies s).Given
  allNested : (t.allNestedScopes s).Given
  allSymbols : (t.allSymbols s).Given
  resolve : ∀ text, (t.resolve s text).Given
  tryResolve : ∀ text, (t.tryResolve s text).Given
  find : ∀ text, (t.find? s text).Given
  parent : (t.parentScope? s).Given
  stackText : ∀ separator, (t.scopeStackText s separator).Given
  qualifier : ∀ separator, (t.qualifier s separator).Given
  contents : (t.contentsText s).Given
  outline : (t.outline s).Given
  render : (t.renderScope s).Given ↔ t.OutlineFits s ∧ t.LinesFit s

/-- The questions about a symbol are answered. In particular its chain starts with it, so
that there is one to be left out for the superclasses. -/
structure SymbolAnswers (t : Table) (x : SymbolId) : Prop where
  name : (t.name x).Given
  text : (t.symbolName x).Given
  kind : (t.kind x).Given
  capabilities : (t.capabilities x).Given
  equal : ∀ y, t.HasSymbol y → (t.symbolsEqual x y).Given
  home : (t.owningScope? x).Given
  position : (t.insertionOrder? x).Given
  site : (t.defSite? x).Given
  declaredType : (t.declaredType? x).Given
  asType : (t.asType? x).Given
  target : (t.aliasTarget? x).Given
  slot : (t.slot? x).Given
  body : (t.body? x).Given
  typeIndex : (t.typeIndex? x).Given
  aggregateType : (t.aggregateType? x).Given
  definedFields : (t.definedFields x).Given
  definedMethods : (t.definedMethods x).Given
  definedFieldCount : (t.definedFieldCount x).Given
  definedMethodCount : (t.definedMethodCount x).Given
  fields : (t.fields x).Given
  methods : (t.methods x).Given
  fieldCount : (t.fieldCount x).Given
  methodCount : (t.methodCount x).Given
  variableCount : (t.variableCount x).Given
  parameterCount : (t.parameterCount x).Given
  superclassName : (t.superclassName? x).Given
  superclass : (t.superclass x).Given
  chain : ∃ above, t.chain x = .ok (x :: above) ∧ t.superclassChain x = .ok above
  resolveMember : ∀ text, (t.resolveMember x text).Given
  resolveField : ∀ text, (t.resolveField x text).Given
  resolveMethod : ∀ text, (t.resolveMethod x text).Given
  fullName : ∀ separator, (t.fullyQualifiedName x separator).Given
  qualifiedName : (t.qualifiedName x).Given
  display : (t.displaySymbol x).Given

/-- The questions about a type are answered. -/
structure TypeAnswers (t : Table) (type : TypeId) : Prop where
  read : (t.types.read type).Given
  write : (t.types.write t.names type).Given
  display : (t.displayType type).Given

theorem Reachable.laid (reachable : t.Reachable) : t.types.Laid :=
  reachable.owned.canonical.indexed.laid

theorem Reachable.scopeAnswers (reachable : t.Reachable) (acyclic : t.types.Acyclic)
    (given : t.HasScope s) : t.ScopeAnswers s := by
  have consistent := reachable.consistent
  have forest := reachable.forest
  obtain ⟨members, listed, known⟩ := consistent.exists_symbolsOf given
  obtain ⟨path, outwards, _⟩ := consistent.exists_enclosingPath given
  obtain ⟨bodies, direct, _⟩ := consistent.exists_bodiesOf given
  obtain ⟨nested, inside, _⟩ := consistent.exists_nestedScopes forest given
  obtain ⟨below, deeper, _⟩ := consistent.exists_below (fun _ => consistent.exists_bodiesOf) given
  obtain ⟨below', deeper', _⟩ :=
    consistent.exists_below (fun _ => consistent.exists_nestedScopes forest) given
  obtain ⟨all, listed', _⟩ := consistent.exists_allSymbols given
  obtain ⟨lines, outlined, _⟩ := consistent.exists_outline forest given
  exact {
    kind := given_of_hasScope given _
    owner := given_of_hasScope given _
    name := consistent.exists_scopeName given
    symbols := ⟨members, listed⟩
    count := given_of_hasScope given _
    names := by
      rw [Table.symbolNames, listed]
      exact Answer.exists_mapM fun x member => exists_symbolName (known x member)
    enclosing := given_of_hasScope given _
    path := ⟨path, outwards⟩
    outermost := consistent.given_outermost given
    enclosingWhere := fun p =>
      (consistent.exists_enclosingWhere given p).imp fun _ found => found.1
    function := consistent.given_enclosingFunction given
    bodies := ⟨bodies, direct⟩
    nested := ⟨nested, inside⟩
    allBodies := ⟨below, deeper⟩
    allNested := ⟨below', deeper'⟩
    allSymbols := ⟨all, listed'⟩
    resolve := consistent.given_resolve given
    tryResolve := consistent.given_tryResolve given
    find := given_find? given
    parent := consistent.given_parentScope? given
    stackText := consistent.given_scopeStackText given
    qualifier := consistent.given_qualifier given
    contents := consistent.given_contentsText given
    outline := ⟨lines, outlined⟩
    render := consistent.given_renderScope_iff forest reachable.laid acyclic given }

theorem Reachable.symbolAnswers (reachable : t.Reachable) (acyclic : t.types.Acyclic)
    (given : t.HasSymbol x) : t.SymbolAnswers x := by
  have consistent := reachable.consistent
  have name : ∀ {y}, t.HasSymbol y → (t.name y).Given := fun known => given_of_hasSymbol known _
  obtain ⟨above, known, _⟩ := consistent.exists_superclass given
  obtain ⟨l, chain, _⟩ := consistent.exists_chain given
  obtain ⟨supers, _, chained⟩ := Answer.bind_eq_ok_iff.mp chain
  cases Except.ok.inj chained
  exact {
    name := name given
    text := exists_symbolName given
    kind := given_kind given
    capabilities := (given_kind given).map _
    equal := fun y known => (name given).bind fun _ _ => (name known).map _
    home := given_of_hasSymbol given _
    position := given_of_hasSymbol given _
    site := given_of_hasSymbol given _
    declaredType := given_of_hasSymbol given _
    asType := given_of_hasSymbol given _
    target := given_of_hasSymbol given _
    slot := given_of_hasSymbol given _
    body := given_of_hasSymbol given _
    typeIndex := Answer.Given.map (given_of_hasSymbol given (·.form.asType?)) _
    aggregateType := given_of_hasSymbol given _
    definedFields := consistent.given_definedMembers given .field
    definedMethods := consistent.given_definedMembers given .method
    definedFieldCount := consistent.given_countInBody given _
    definedMethodCount := consistent.given_countInBody given _
    fields := consistent.given_visibleMembers given .field
    methods := consistent.given_visibleMembers given .method
    fieldCount := (consistent.given_visibleMembers given .field).map _
    methodCount := (consistent.given_visibleMembers given .method).map _
    variableCount := consistent.given_countInBody given _
    parameterCount := consistent.given_countInBody given _
    superclassName := given_of_hasSymbol given _
    superclass := ⟨above, known⟩
    chain := ⟨supers, chain, by rw [superclassChain, chain]; rfl⟩
    resolveMember := fun text =>
      (consistent.exists_resolveMember given text).imp fun _ found => found.1
    resolveField := consistent.given_memberOfKind given .field
    resolveMethod := consistent.given_memberOfKind given .method
    fullName := consistent.given_fullyQualifiedName given
    qualifiedName := consistent.given_fullyQualifiedName given _
    display := consistent.given_displaySymbol reachable.laid acyclic given }

theorem Reachable.typeAnswers (reachable : t.Reachable) (acyclic : t.types.Acyclic)
    (type : TypeId) : t.TypeAnswers type where
  read := reachable.laid.readable type
  write := reachable.laid.exists_write t.names (acyclic.not_endless type)
  display := reachable.consistent.given_displayType reachable.laid (acyclic.not_endless type)

/-- No handle that a reachable table holds is dangling, and what it counts is no more than
its symbols. So every operation that keeps the terms is carried out or refused, and every
question about scopes and symbols that were given out and about any types at all is answered,
unless a type occurs in itself. An outline has a text just when neither an indent that it needs
nor all of its lines together are longer than a text can be, and no indent is when the indent
width is small enough for as many levels as there are scopes, and one more. -/
theorem Reachable.answered (reachable : t.Reachable) (acyclic : t.types.Acyclic) :
    t.Closed ∧ t.Bounded ∧
    (∀ op : Operation, op.Proper t → ∃ outcome u, t.apply op = .ok (outcome, u)) ∧
    (∀ s, t.HasScope s → t.ScopeAnswers s) ∧
    (∀ x, t.HasSymbol x → t.SymbolAnswers x) ∧
    (∀ type, t.TypeAnswers type) ∧
    (t.render.Given ↔ t.OutlineFits .predefined ∧ t.LinesFit .predefined) ∧
    (t.config.indentWidth * t.inwardSteps ≤ Config.longestText →
      ∀ s, t.HasScope s → t.OutlineFits s) :=
  ⟨reachable.closed, reachable.bounded, fun _ => reachable.exists_apply,
    fun _ => reachable.scopeAnswers acyclic, fun _ => reachable.symbolAnswers acyclic,
    reachable.typeAnswers acyclic,
    (reachable.scopeAnswers acyclic reachable.closed.predefined).render,
    fun narrow _ => reachable.consistent.outlineFits reachable.forest narrow⟩

/-- A class that extends itself, with a method that returns it. Inside the method there are a
block and a variable of a type that was never made. -/
def selfExtending : Run where
  config := {}
  operations := [
    .declare "A" (.classType (some "A")), .define .global ⟨0⟩,
    .declare "m" (.method (some ⟨1⟩)), .define ⟨2⟩ ⟨1⟩,
    .requestType (.pointer ⟨1⟩), .requestType (.function ⟨2⟩ [⟨1⟩, ⟨2⟩]),
    .declare "v" (.var (some ⟨99⟩)), .define ⟨3⟩ ⟨2⟩, .openBlock ⟨3⟩]
  accepted := by decide +kernel

theorem selfExtending_answered : selfExtending.final.Reachable ∧
    selfExtending.final.types.Acyclic ∧
    (selfExtending.final.displaySymbol ⟨2⟩).Given ∧
    (selfExtending.final.displayType ⟨99⟩).Given ∧
    (∃ above, selfExtending.final.superclassChain ⟨0⟩ = .ok above) ∧
    selfExtending.final.render.Given := by
  have reachable := selfExtending.reachable selfExtending.operations.length
  have acyclic : selfExtending.final.types.Acyclic := Pool.acyclic_of_earlier (by decide +kernel)
  obtain ⟨closed, _, _, _, symbols, types, renders, fits⟩ := Reachable.answered reachable acyclic
  obtain ⟨above, _, supers⟩ := (symbols ⟨0⟩ (by decide +kernel)).chain
  have room : selfExtending.final.LinesFit .predefined :=
    ⟨98, by decide +kernel, by decide⟩
  exact ⟨reachable, acyclic, (symbols ⟨2⟩ (by decide +kernel)).display, (types ⟨99⟩).display,
    ⟨above, supers⟩, renders.mpr ⟨fits (by decide +kernel) .predefined closed.predefined, room⟩⟩

end Table

end Scoping
