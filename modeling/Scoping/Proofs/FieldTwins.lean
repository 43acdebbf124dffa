import Scoping.Proofs.SameShape

/-!
# Tables that differ in field slots

A table has a twin that numbers its fields per class, and differs from it in the field
layout and in the numbers of field slots alone. No question but the one for the slot of a
field tells the two apart: look-ups, lists of members, types, texts and the slots of methods
are the same.
-/

namespace Scoping

/-! ### Symbols without the numbers of field slots -/

/-- The layout, without the number of the next field slot. -/
def Layout.blurred (layout : Layout) : Layout :=
  { layout with nextField := layout.nextField.map fun _ => 0 }

namespace Form

/-- The form, without the numbers of field slots. Whether a slot was taken can still be seen. -/
def blurred : Form → Form
  | field type slot => field type (slot.map fun _ => 0)
  | structType layout => structType layout.blurred
  | classType layout superclass => classType layout.blurred superclass
  | form => form

theorem kind_blurred (form : Form) : form.blurred.kind = form.kind := by cases form <;> rfl

theorem body?_blurred (form : Form) : form.blurred.body? = form.body? := by cases form <;> rfl

theorem superclassName?_blurred (form : Form) :
    form.blurred.superclassName? = form.superclassName? := by cases form <;> rfl

theorem declaredType?_blurred (form : Form) :
    form.blurred.declaredType? = form.declaredType? := by cases form <;> rfl

theorem asType?_blurred (form : Form) : form.blurred.asType? = form.asType? := by
  cases form <;> rfl

theorem aliasTarget?_blurred (form : Form) : form.blurred.aliasTarget? = form.aliasTarget? := by
  cases form <;> rfl

theorem layout?_blurred (form : Form) : form.blurred.layout? = form.layout?.map Layout.blurred := by
  cases form <;> rfl

theorem slot?_blurred {form : Form} (other : form.kind ≠ .field) :
    form.blurred.slot? = form.slot? := by
  cases form <;> first | rfl | exact absurd rfl other

theorem isSome_slot?_blurred (form : Form) :
    form.blurred.slot?.isSome = form.slot?.isSome := by
  cases form <;> first | rfl | exact Option.isSome_map

end Form

namespace Symbol

/-- The symbol, without the numbers of field slots. -/
def blurred (a : Symbol) : Symbol := { a with form := a.form.blurred }

theorem kind_blurred (a : Symbol) : a.blurred.kind = a.kind := a.form.kind_blurred

theorem shape_blurred (a : Symbol) : a.blurred.shape = a.shape := by
  simp only [shape, kind, blurred, Form.kind_blurred, Form.body?_blurred,
    Form.superclassName?_blurred]

variable {a b : Symbol}

/-- What can be read from the blurred symbol is the same for symbols that look alike then. -/
theorem eq_of_blurred {γ : Type} {k : Symbol → γ} (keeps : ∀ a, k a.blurred = k a)
    (same : a.blurred = b.blurred) : k a = k b := by
  rw [← keeps a, same, keeps b]

theorem shape_eq_of_blurred (same : a.blurred = b.blurred) : a.shape = b.shape :=
  eq_of_blurred shape_blurred same

theorem slot?_eq_of_blurred (same : a.blurred = b.blurred) (other : a.kind ≠ .field) :
    a.form.slot? = b.form.slot? := by
  have kinds : a.kind = b.kind := eq_of_blurred kind_blurred same
  rw [← Form.slot?_blurred other, ← Form.slot?_blurred (kinds ▸ other : b.kind ≠ .field)]
  exact congrArg (fun a : Symbol => a.form.slot?) same

end Symbol

namespace Table

/-- `u` numbers its fields per class, and differs from `t` in the field layout and in the
numbers of field slots alone. -/
structure Twin (t u : Table) : Prop where
  config : u.config = { t.config with fieldLayout := .perClass }
  names : u.names = t.names
  types : u.types = t.types
  scopes : u.scopes = t.scopes
  symbols : t.symbols.map Symbol.blurred = u.symbols.map Symbol.blurred

namespace Twin

variable {t u : Table} {x : SymbolId} {a : Symbol}

theorem alike (twin : Twin t u) : Alike id Symbol.blurred t u :=
  ⟨by rw [twin.scopes], twin.symbols⟩

theorem sameShape (twin : Twin t u) : SameShape t u := by
  have same : Alike Scope.shape Symbol.shape t u :=
    twin.alike.weaken (fun _ _ => congrArg Scope.shape) fun _ _ => Symbol.shape_eq_of_blurred
  exact ⟨same.scopes, same.symbols⟩

theorem aspect (twin : Twin t u) : SameAspect t u := twin.sameShape.aspect

theorem scope_eq (twin : Twin t u) : t.scope = u.scope := by
  funext s
  rw [scope, scope, twin.scopes]

theorem symbolCount_eq (twin : Twin t u) : t.symbolCount = u.symbolCount :=
  twin.alike.size_symbols

theorem symbol (twin : Twin t u) (read : t.symbol x = .ok a) :
    ∃ b, u.symbol x = .ok b ∧ a.blurred = b.blurred := by
  obtain ⟨b, read', same⟩ := twin.alike.symbol read
  exact ⟨b, read', same.symm⟩

/-- A question about a symbol has the same answer if the blurred symbol answers it. -/
theorem read {γ : Type} {k : Symbol → γ} (twin : Twin t u) (keeps : ∀ a, k a.blurred = k a)
    (x : SymbolId) :
    (t.symbol x >>= fun a => pure (k a)) = (u.symbol x >>= fun a => pure (k a)) :=
  twin.alike.read_symbol (fun _ _ => Symbol.eq_of_blurred keeps) x

/-! ### Single symbols -/

theorem nameText_eq (twin : Twin t u) : t.nameText = u.nameText := by
  funext n
  rw [nameText, nameText, twin.names]

theorem symbolName_eq (twin : Twin t u) : t.symbolName = u.symbolName := by
  funext x
  rw [symbolName, symbolName, twin.aspect.name_eq, twin.nameText_eq]

theorem defSite?_eq (twin : Twin t u) : t.defSite? = u.defSite? := by
  funext x
  exact twin.read (fun _ => rfl) x

theorem declaredType?_eq (twin : Twin t u) : t.declaredType? = u.declaredType? := by
  funext x
  exact twin.read (fun a => a.form.declaredType?_blurred) x

theorem asType?_eq (twin : Twin t u) : t.asType? = u.asType? := by
  funext x
  exact twin.read (fun a => a.form.asType?_blurred) x

theorem aliasTarget?_eq (twin : Twin t u) : t.aliasTarget? = u.aliasTarget? := by
  funext x
  exact twin.read (fun a => a.form.aliasTarget?_blurred) x

theorem superclassName?_eq (twin : Twin t u) : t.superclassName? = u.superclassName? := by
  funext x
  rw [superclassName?, superclassName?, twin.nameText_eq]
  exact twin.read
    (fun a => congrArg (Option.map u.nameText) a.form.superclassName?_blurred) x

theorem typeIndex?_eq (twin : Twin t u) : t.typeIndex? = u.typeIndex? := by
  funext x
  rw [typeIndex?, typeIndex?, twin.asType?_eq, twin.types]

theorem aggregateType?_eq (twin : Twin t u) : t.aggregateType? = u.aggregateType? := by
  funext x
  refine twin.read (fun a => ?_) x
  rw [Symbol.blurred, Form.layout?_blurred, Option.map_map]
  rfl

/-- Only the slots of fields can be different. -/
theorem slot?_eq (twin : Twin t u) {k : Kind} (known : t.kind x = .ok k) (other : k ≠ .field) :
    t.slot? x = u.slot? x := by
  obtain ⟨a, symbol, shape⟩ := Answer.bind_eq_ok_iff.mp known
  cases shape
  obtain ⟨b, symbol', same⟩ := twin.symbol symbol
  rw [slot?, slot?, symbol, symbol', Answer.ok_bind, Answer.ok_bind,
    Symbol.slot?_eq_of_blurred same other]

/-- A field has a slot in both tables or in none. -/
theorem isSome_slot? (twin : Twin t u) (x : SymbolId) :
    (t.slot? x).map Option.isSome = (u.slot? x).map Option.isSome := by
  have opened : ∀ t : Table, (t.slot? x).map Option.isSome =
      t.symbol x >>= fun a => pure a.form.slot?.isSome := by
    intro t
    rw [slot?]
    cases t.symbol x <;> rfl
  rw [opened, opened]
  exact twin.read (fun a => a.form.isSome_slot?_blurred) x

/-! ### Look-ups -/

theorem resolve_eq (twin : Twin t u) : t.resolve = u.resolve :=
  twin.aspect.resolve_eq twin.names.symm

theorem scopeName_eq (twin : Twin t u) : t.scopeName = u.scopeName := by
  funext s
  rw [scopeName, scopeName, twin.sameShape.scopeKind_eq, twin.symbolName_eq]

theorem tryResolve_eq (twin : Twin t u) : t.tryResolve = u.tryResolve := by
  funext s text
  rw [tryResolve, tryResolve, twin.resolve_eq, twin.scopeName_eq]

/-! ### Scopes inside -/

theorem symbolNames_eq (twin : Twin t u) : t.symbolNames = u.symbolNames := by
  funext s
  rw [symbolNames, symbolNames, twin.sameShape.symbolsOf_eq, twin.symbolName_eq]

theorem nestedScopes_eq (twin : Twin t u) : t.nestedScopes = u.nestedScopes := by
  funext s
  rw [nestedScopes, nestedScopes, twin.sameShape.bodiesOf_eq, twin.scope_eq]

theorem inwardSteps_eq (twin : Twin t u) : t.inwardSteps = u.inwardSteps := by
  rw [inwardSteps, inwardSteps, twin.scopes]

theorem allNestedScopes_eq (twin : Twin t u) : t.allNestedScopes = u.allNestedScopes := by
  funext s
  rw [allNestedScopes, allNestedScopes, twin.inwardSteps_eq, twin.nestedScopes_eq]

/-! ### Texts -/

theorem pathSeparator_eq (twin : Twin t u) : t.config.pathSeparator = u.config.pathSeparator := by
  rw [twin.config]

theorem columns_eq (twin : Twin t u) : t.config.columns = u.config.columns := by
  rw [twin.config]
  rfl

theorem indent_eq (twin : Twin t u) : t.config.indent = u.config.indent := by
  funext level
  rw [Config.indent, Config.indent, twin.columns_eq]

theorem formatType_eq (twin : Twin t u) : t.formatType = u.formatType := by
  funext type
  rw [formatType, formatType, twin.types, twin.names]

theorem scopeStackText_eq (twin : Twin t u) : t.scopeStackText = u.scopeStackText := by
  funext s separator
  rw [scopeStackText, scopeStackText, twin.aspect.enclosingPath_eq, twin.scopeName_eq]

theorem qualifier_eq (twin : Twin t u) : t.qualifier = u.qualifier := by
  funext s separator
  rw [qualifier, qualifier, twin.aspect.enclosingPath_eq, twin.scopeName_eq]

theorem fullyQualifiedName_eq (twin : Twin t u) :
    t.fullyQualifiedName = u.fullyQualifiedName := by
  funext x separator
  rw [fullyQualifiedName, fullyQualifiedName, twin.sameShape.owningScope?_eq,
    twin.symbolName_eq, twin.qualifier_eq]

theorem qualifiedName_eq (twin : Twin t u) : t.qualifiedName = u.qualifiedName := by
  funext x
  rw [qualifiedName, qualifiedName, twin.fullyQualifiedName_eq, twin.pathSeparator_eq]

theorem scopedName_eq (twin : Twin t u) : t.scopedName = u.scopedName := by
  funext x separator
  rw [scopedName, scopedName, twin.sameShape.owningScope?_eq, twin.symbolName_eq,
    twin.scopeName_eq]

theorem contentsText_eq (twin : Twin t u) : t.contentsText = u.contentsText := by
  funext s
  rw [contentsText, contentsText, twin.sameShape.allSymbols_eq, twin.scopedName_eq,
    twin.pathSeparator_eq]

theorem displayType_eq (twin : Twin t u) : t.displayType = u.displayType := by
  funext type
  rw [displayType, displayType, twin.types, twin.names, twin.symbolCount_eq,
    twin.fullyQualifiedName_eq]

theorem displaySymbol_eq (twin : Twin t u) : t.displaySymbol = u.displaySymbol := by
  funext x
  rw [displaySymbol, displaySymbol, twin.scopedName_eq, twin.declaredType?_eq,
    twin.displayType_eq]

theorem outline_eq (twin : Twin t u) : t.outline = u.outline := by
  have within : ∀ depth, t.outlineWithin depth = u.outlineWithin depth := by
    intro depth
    induction depth with
    | zero => rfl
    | succ depth ih =>
      funext level s
      rw [outlineWithin, outlineWithin, twin.sameShape.plainMembers_eq, twin.nestedScopes_eq, ih]
  funext s
  rw [outline, outline, twin.inwardSteps_eq, within]

theorem writeLine_eq (twin : Twin t u) : t.writeLine = u.writeLine := by
  have items : t.itemText = u.itemText := by
    funext item
    cases item with
    | header s => rw [itemText, itemText, twin.scopeName_eq]
    | entry x => rw [itemText, itemText, twin.displaySymbol_eq]
  have rooms : t.roomBelow = u.roomBelow := by
    funext line
    rw [roomBelow, roomBelow, twin.columns_eq]
  have lines : t.lineText = u.lineText := by
    funext line
    rw [lineText, lineText, twin.indent_eq, items]
  funext written line
  rw [writeLine, writeLine, lines, rooms]

theorem renderScope_eq (twin : Twin t u) : t.renderScope = u.renderScope := by
  funext s
  rw [renderScope, renderScope, twin.outline_eq, twin.writeLine_eq]

end Twin

/-! ### All questions -/

/-- The tables give the same answers about scopes. -/
structure SameScopes (t u : Table) : Prop where
  count : t.scopeCount = u.scopeCount
  kind : t.scopeKind = u.scopeKind
  owner : t.scopeOwner? = u.scopeOwner?
  name : t.scopeName = u.scopeName
  symbols : t.symbolsOf = u.symbolsOf
  memberCount : t.memberCount = u.memberCount
  symbolNames : t.symbolNames = u.symbolNames
  enclosing : t.enclosing? = u.enclosing?
  path : t.enclosingPath = u.enclosingPath
  outermost : t.outermost = u.outermost
  enclosingWhere : t.enclosingWhere = u.enclosingWhere
  function : t.enclosingFunction = u.enclosingFunction
  bodies : t.bodiesOf = u.bodiesOf
  nested : t.nestedScopes = u.nestedScopes
  allBodies : t.allBodies = u.allBodies
  allNested : t.allNestedScopes = u.allNestedScopes
  allSymbols : t.allSymbols = u.allSymbols
  resolveName : t.resolveName = u.resolveName
  resolve : t.resolve = u.resolve
  tryResolve : t.tryResolve = u.tryResolve
  find : t.find? = u.find?
  parent : t.parentScope? = u.parentScope?
  stackText : t.scopeStackText = u.scopeStackText
  qualifier : t.qualifier = u.qualifier
  contents : t.contentsText = u.contentsText
  outline : t.outline = u.outline
  render : t.renderScope = u.renderScope

/-- The tables give the same answers about symbols, but for the slots of fields. -/
structure SameSymbols (t u : Table) : Prop where
  count : t.symbolCount = u.symbolCount
  name : t.name = u.name
  text : t.symbolName = u.symbolName
  kind : t.kind = u.kind
  capabilities : t.capabilities = u.capabilities
  equal : t.symbolsEqual = u.symbolsEqual
  home : t.owningScope? = u.owningScope?
  position : t.insertionOrder? = u.insertionOrder?
  site : t.defSite? = u.defSite?
  declaredType : t.declaredType? = u.declaredType?
  asType : t.asType? = u.asType?
  target : t.aliasTarget? = u.aliasTarget?
  body : t.body? = u.body?
  typeIndex : t.typeIndex? = u.typeIndex?
  aggregateType : t.aggregateType? = u.aggregateType?
  definedMembers : t.definedMembers = u.definedMembers
  visibleMembers : t.visibleMembers = u.visibleMembers
  fieldCount : t.fieldCount = u.fieldCount
  methodCount : t.methodCount = u.methodCount
  countInBody : t.countInBody = u.countInBody
  superclassName : t.superclassName? = u.superclassName?
  superclass : t.superclass = u.superclass
  chain : t.chain = u.chain
  superclassChain : t.superclassChain = u.superclassChain
  memberNamed : t.memberNamed = u.memberNamed
  methodNamed : t.methodNamed = u.methodNamed
  resolveMember : t.resolveMember = u.resolveMember
  resolveField : t.resolveField = u.resolveField
  resolveMethod : t.resolveMethod = u.resolveMethod
  fullName : t.fullyQualifiedName = u.fullyQualifiedName
  qualifiedName : t.qualifiedName = u.qualifiedName
  scopedName : t.scopedName = u.scopedName
  display : t.displaySymbol = u.displaySymbol
  slot : ∀ x k, t.kind x = .ok k → k ≠ .field → t.slot? x = u.slot? x
  slotted : ∀ x, (t.slot? x).map Option.isSome = (u.slot? x).map Option.isSome

/-- The tables give the same answers, but for the slots of fields. Any other question, such as
that for the fields or for the number of parameters, is one of these for a certain kind. -/
structure SameAnswers (t u : Table) : Prop where
  names : t.names = u.names
  types : t.types = u.types
  formatType : t.formatType = u.formatType
  displayType : t.displayType = u.displayType
  scopes : SameScopes t u
  symbols : SameSymbols t u
  render : t.render = u.render

namespace Twin

variable {t u : Table}

theorem sameScopes (twin : Twin t u) : SameScopes t u where
  count := twin.aspect.size_scopes
  kind := twin.sameShape.scopeKind_eq
  owner := twin.sameShape.scopeOwner?_eq
  name := twin.scopeName_eq
  symbols := twin.sameShape.symbolsOf_eq
  memberCount := twin.sameShape.memberCount_eq
  symbolNames := twin.symbolNames_eq
  enclosing := twin.aspect.enclosing?_eq
  path := twin.aspect.enclosingPath_eq
  outermost := twin.sameShape.outermost_eq
  enclosingWhere := twin.sameShape.enclosingWhere_eq
  function := twin.sameShape.enclosingFunction_eq
  bodies := twin.sameShape.bodiesOf_eq
  nested := twin.nestedScopes_eq
  allBodies := twin.sameShape.allBodies_eq
  allNested := twin.allNestedScopes_eq
  allSymbols := twin.sameShape.allSymbols_eq
  resolveName := twin.aspect.resolveName_eq
  resolve := twin.resolve_eq
  tryResolve := twin.tryResolve_eq
  find := twin.aspect.find?_eq twin.names.symm
  parent := twin.aspect.parentScope?_eq
  stackText := twin.scopeStackText_eq
  qualifier := twin.qualifier_eq
  contents := twin.contentsText_eq
  outline := twin.outline_eq
  render := twin.renderScope_eq

theorem sameSymbols (twin : Twin t u) : SameSymbols t u where
  count := twin.symbolCount_eq
  name := twin.aspect.name_eq
  text := twin.symbolName_eq
  kind := twin.aspect.kind_eq
  capabilities := twin.sameShape.capabilities_eq
  equal := twin.sameShape.symbolsEqual_eq
  home := twin.sameShape.owningScope?_eq
  position := twin.sameShape.insertionOrder?_eq
  site := twin.defSite?_eq
  declaredType := twin.declaredType?_eq
  asType := twin.asType?_eq
  target := twin.aliasTarget?_eq
  body := twin.aspect.body?_eq
  typeIndex := twin.typeIndex?_eq
  aggregateType := twin.aggregateType?_eq
  definedMembers := twin.sameShape.definedMembers_eq
  visibleMembers := twin.sameShape.visibleMembers_eq
  fieldCount := twin.sameShape.fieldCount_eq
  methodCount := twin.sameShape.methodCount_eq
  countInBody := twin.sameShape.countInBody_eq
  superclassName := twin.superclassName?_eq
  superclass := twin.aspect.superclass_eq
  chain := twin.aspect.chain_eq
  superclassChain := twin.aspect.superclassChain_eq
  memberNamed := twin.aspect.memberNamed_eq
  methodNamed := twin.aspect.methodNamed_eq
  resolveMember := twin.aspect.resolveMember_eq twin.names.symm
  resolveField := twin.aspect.resolveField_eq twin.names.symm
  resolveMethod := twin.aspect.resolveMethod_eq twin.names.symm
  fullName := twin.fullyQualifiedName_eq
  qualifiedName := twin.qualifiedName_eq
  scopedName := twin.scopedName_eq
  display := twin.displaySymbol_eq
  slot _ _ known other := twin.slot?_eq known other
  slotted := twin.isSome_slot?

theorem sameAnswers (twin : Twin t u) : SameAnswers t u where
  names := twin.names.symm
  types := twin.types.symm
  formatType := twin.formatType_eq
  displayType := twin.displayType_eq
  scopes := twin.sameScopes
  symbols := twin.sameSymbols
  render := congrFun twin.renderScope_eq .predefined

end Twin

end Table

end Scoping
