import Scoping.Proofs.Carried
import Scoping.Proofs.FieldTwins

/-!
# Changes of twins

A table and its twin are changed in the same way. The layout is read when a field is checked
for its superclass, and when the first field of a class gets its slot; so checks have the
same results, unless a field is refused because of its superclass, and the tables stay twins.
-/

namespace Scoping

namespace Form

theorem blurred_mapLayout (form : Form) {f g : Layout → Layout}
    (keeps : ∀ layout, (f layout).blurred = g layout.blurred) :
    (form.mapLayout f).blurred = form.blurred.mapLayout g := by
  cases form <;> simp only [mapLayout, blurred, keeps]

theorem blurred_withSlot {form : Form} (other : form.kind ≠ .field) (slot : Nat) :
    (form.withSlot slot).blurred = form.blurred.withSlot slot := by
  cases form <;> first | rfl | exact absurd rfl other

theorem blurred_withSlot_of_field {form : Form} (field : form.kind = .field) (slot : Nat) :
    (form.withSlot slot).blurred = form.blurred.withSlot 0 := by
  cases form <;> first | rfl | cases field

theorem blurred_withDeclaredType (form : Form) (type : TypeId) :
    (form.withDeclaredType type).blurred = form.blurred.withDeclaredType type := by
  cases form <;> rfl

theorem nextMethod_blurred (form : Form) : form.blurred.layout?.bind Layout.nextMethod =
    form.layout?.bind Layout.nextMethod := by
  rw [layout?_blurred]
  cases form.layout? <;> rfl

theorem isSome_nextField_blurred (form : Form) :
    (form.blurred.layout?.bind Layout.nextField).isSome =
      (form.layout?.bind Layout.nextField).isSome := by
  rw [layout?_blurred]
  cases form.layout? with
  | none => rfl
  | some layout => exact Option.isSome_map

end Form

namespace Table

variable {t u v : Table} {s : ScopeId} {x D : SymbolId} {a b : Symbol} {c : Scope} {k : Kind}
  {slot : Nat}

theorem map_modify_congr {α β : Type} {xs ys : Array α} {i : Nat} {f g : α → α} {h : α → β}
    (same : xs.map h = ys.map h)
    (keeps : ∀ a b, xs[i]? = some a → ys[i]? = some b → h a = h b → h (f a) = h (g b)) :
    (xs.modify i f).map h = (ys.modify i g).map h := by
  apply Array.ext_getElem?
  intro j
  have entry := congrArg (fun entries => entries[j]?) same
  simp only [Array.getElem?_map] at entry
  rw [Array.getElem?_map, Array.getElem?_map, Array.getElem?_modify, Array.getElem?_modify]
  by_cases here : i = j
  · subst here
    rw [if_pos rfl, if_pos rfl, Option.map_map, Option.map_map]
    cases read : xs[i]? with
    | none =>
      rw [read] at entry
      rw [Option.map_eq_none_iff.mp entry.symm]
      rfl
    | some a =>
      rw [read] at entry
      obtain ⟨b, read', same⟩ := Option.map_eq_some_iff.mp entry.symm
      rw [read']
      exact congrArg some (keeps a b read read' same.symm)
  · rw [if_neg here, if_neg here, entry]

/-- What is added for a new symbol depends on how many symbols there are, not on which. -/
theorem addForm_with (t : Table) (config : Config) {symbols : Array Symbol}
    (size : symbols.size = t.symbols.size) (text : String) (spec : Spec) :
    ({ t with config, symbols } : Table).addForm text spec =
      ((t.addForm text spec).1, { (t.addForm text spec).2 with config, symbols }) := by
  cases spec with
  | classType superclass =>
    cases superclass <;> simp only [addForm, internSuperclass, addLayout, addBody, addScope,
      nextSymbol, intern, requestType, size]
  | _ => simp only [addForm, addLayout, addBody, addScope, nextSymbol, intern, requestType, size]

/-- The layout matters for fields only. -/
theorem slotNeedsSuperclass_of_ne (other : k ≠ .field) :
    t.slotNeedsSuperclass k = u.slotNeedsSuperclass k := by
  simp only [slotNeedsSuperclass, other, false_and, or_false]

theorem kind_of_mem_own (member : x ∈ t.own k D) : t.kind x = .ok k := by
  obtain ⟨a, symbol, rfl⟩ := kindAt_eq_some_iff.mp (mem_own.mp member).2
  exact kind_of_symbol symbol

namespace Twin

/-! ### Simple changes -/

theorem perClass (twin : Twin t u) : u.config.fieldLayout = .perClass := by rw [twin.config]

theorem size_symbols (twin : Twin t u) : u.symbols.size = t.symbols.size :=
  twin.alike.size_symbols.symm

theorem eq_with (twin : Twin t u) : u = { t with config := u.config, symbols := u.symbols } := by
  cases u
  cases twin.names
  cases twin.types
  cases twin.scopes
  rfl

theorem modifyScope (twin : Twin t u) (s : ScopeId) (f : Scope → Scope) :
    Twin (t.modifyScope s f) (u.modifyScope s f) := by
  refine ⟨twin.config, twin.names, twin.types, ?_, twin.symbols⟩
  rw [Table.modifyScope, Table.modifyScope, twin.scopes]

/-- The same is done to a symbol of both tables, as the blurred symbols show it. -/
theorem modifySymbol (twin : Twin t u) {f g h : Symbol → Symbol}
    (here : ∀ a, t.symbol x = .ok a → (f a).blurred = h a.blurred)
    (there : ∀ b, u.symbol x = .ok b → (g b).blurred = h b.blurred) :
    Twin (t.modifySymbol x f) (u.modifySymbol x g) := by
  refine ⟨twin.config, twin.names, twin.types, twin.scopes, map_modify_congr twin.symbols ?_⟩
  intro a b entry entry' same
  rw [here a (symbol_eq_ok_iff.mpr entry), there b (symbol_eq_ok_iff.mpr entry'), same]

/-- The same is done to the form of a symbol of both tables. -/
theorem modifyForm (twin : Twin t u) {f g h : Form → Form}
    (here : ∀ a, t.symbol x = .ok a → (f a.form).blurred = h a.form.blurred)
    (there : ∀ b, u.symbol x = .ok b → (g b.form).blurred = h b.form.blurred) :
    Twin (t.modifySymbol x fun a => { a with form := f a.form })
      (u.modifySymbol x fun b => { b with form := g b.form }) :=
  twin.modifySymbol (h := fun a => { a with form := h a.form })
    (fun a read => congrArg (fun form => { a with form }) (here a read))
    fun b read => congrArg (fun form => { b with form }) (there b read)

theorem intern (twin : Twin t u) (text : String) :
    ∃ w, u.intern text = ((t.intern text).1, w) ∧ Twin (t.intern text).2 w := by
  rw [twin.eq_with]
  exact ⟨_, rfl, twin.config, rfl, rfl, rfl, twin.symbols⟩

theorem requestType (twin : Twin t u) (r : TypeRequest) :
    ∃ w, u.requestType r = ((t.requestType r).1, w) ∧ Twin (t.requestType r).2 w := by
  rw [twin.eq_with]
  exact ⟨_, rfl, twin.config, rfl, rfl, rfl, twin.symbols⟩

theorem numberType (twin : Twin t u) (type : TypeId) (index : Nat) :
    Twin (t.numberType type index) (u.numberType type index) := by
  rw [twin.eq_with]
  exact ⟨twin.config, rfl, rfl, rfl, twin.symbols⟩

theorem openScope (twin : Twin t u) (s : ScopeId) :
    ∃ w, u.openScope s = ((t.openScope s).1, w) ∧ Twin (t.openScope s).2 w := by
  rw [twin.eq_with]
  exact ⟨_, rfl, twin.config, rfl, rfl, rfl, twin.symbols⟩

theorem addSymbol (twin : Twin t u) (a : Symbol) :
    ∃ w, u.addSymbol a = ((t.addSymbol a).1, w) ∧ Twin (t.addSymbol a).2 w := by
  refine ⟨(u.addSymbol a).2, ?_, twin.config, twin.names, twin.types, twin.scopes, ?_⟩
  · simp only [Table.addSymbol, nextSymbol, twin.size_symbols]
  · simp only [Table.addSymbol, Array.map_push, twin.symbols]

theorem addForm (twin : Twin t u) (text : String) (spec : Spec) :
    ∃ w, u.addForm text spec = ((t.addForm text spec).1, w) ∧ Twin (t.addForm text spec).2 w := by
  rw [twin.eq_with, addForm_with t u.config twin.size_symbols]
  refine ⟨_, rfl, ?_, rfl, rfl, rfl, ?_⟩
  · rw [config_addForm, twin.config]
  · rw [symbols_addForm, twin.symbols]

theorem declare (twin : Twin t u) {text : String} {spec : Spec}
    (declared : t.declare text spec = .ok (x, v)) :
    ∃ w, u.declare text spec = .ok (x, w) ∧ Twin v w := by
  rw [Table.declare] at declared ⊢
  split at declared
  · cases declared
  · rename_i named
    rw [if_neg named]
    obtain ⟨u₁, formed, between⟩ := twin.addForm text spec
    obtain ⟨u₂, interned, between'⟩ := between.intern text
    obtain ⟨w, added, after⟩ := between'.addSymbol
      { name := ((t.addForm text spec).2.intern text).1, form := (t.addForm text spec).1 }
    obtain ⟨rfl, rfl⟩ := Prod.mk.inj (Except.ok.inj declared)
    refine ⟨w, ?_, after⟩
    simp only [formed, interned, added]
    rfl

/-! ### Definitions -/

theorem missingSuperclass?_eq (twin : Twin t u) : t.missingSuperclass? = u.missingSuperclass? := by
  funext x
  rw [missingSuperclass?, missingSuperclass?, twin.aspect.chain_eq, twin.superclassName?_eq,
    twin.aspect.superclass_eq, twin.symbolName_eq]

/-- The owner refuses the same, unless the superclass of a field is missing. -/
theorem ownerRefusal? (twin : Twin t u) (same : a.blurred = b.blurred) {r : Option Refusal}
    (found : t.ownerRefusal? D a = .ok r)
    (admitted : a.kind = .field → ∀ m c p, r ≠ some (.unresolvedSuperclass m c p)) :
    u.ownerRefusal? D b = .ok r := by
  obtain ⟨names, kinds, _⟩ := Symbol.shape_eq_iff.mp (Symbol.shape_eq_of_blurred same)
  by_cases field : a.kind = .field
  · have plain : u.slotNeedsSuperclass b.kind = false := by
      simp [slotNeedsSuperclass, ← kinds, field, twin.perClass]
    rw [Table.ownerRefusal?, twin.aspect.kind_eq, kinds, names, twin.nameText_eq,
      twin.symbolName_eq] at found
    rw [Table.ownerRefusal?, plain]
    obtain ⟨kind, read, found⟩ := Answer.bind_eq_ok_iff.mp found
    rw [read, Answer.ok_bind]
    split at found
    · rename_i inside
      rw [if_pos inside]
      exact found
    · rename_i inside
      rw [if_neg inside]
      split at found
      · obtain ⟨missing, _, found⟩ := Answer.bind_eq_ok_iff.mp found
        cases missing with
        | none => exact found
        | some pair =>
          cases found
          exact absurd rfl (admitted field _ _ _)
      · exact found
  · rw [Table.ownerRefusal?, twin.aspect.kind_eq, slotNeedsSuperclass_of_ne field, kinds, names,
      twin.nameText_eq, twin.symbolName_eq, twin.missingSuperclass?_eq] at found
    exact found

theorem cycleRefusal?_eq (twin : Twin t u) (same : a.blurred = b.blurred) :
    t.cycleRefusal? s a = u.cycleRefusal? s b := by
  obtain ⟨names, _, bodies, _⟩ := Symbol.shape_eq_iff.mp (Symbol.shape_eq_of_blurred same)
  rw [cycleRefusal?, cycleRefusal?, bodies, names, twin.nameText_eq, twin.aspect.enclosingPath_eq]

theorem refusal? (twin : Twin t u) {r : Option Refusal} (found : t.refusal? s x = .ok r)
    (admitted : t.kind x = .ok .field → ∀ m c p, r ≠ some (.unresolvedSuperclass m c p)) :
    u.refusal? s x = .ok r := by
  rw [Table.refusal?] at found ⊢
  obtain ⟨a, symbol, found⟩ := Answer.bind_eq_ok_iff.mp found
  obtain ⟨b, symbol', same⟩ := twin.symbol symbol
  obtain ⟨names, _, _, _, places⟩ :=
    Symbol.shape_eq_iff.mp (Symbol.shape_eq_of_blurred same)
  have homes : a.owningScope? = b.owningScope? := Symbol.owningScope?_eq places
  rw [symbol', Answer.ok_bind]
  simp only [names, homes, twin.nameText_eq, twin.scopeName_eq, twin.scope_eq,
    twin.cycleRefusal?_eq same] at found
  cases home : b.owningScope? with
  | some place =>
    simp only [home] at found ⊢
    exact found
  | none =>
    simp only [home] at found ⊢
    obtain ⟨c, scope, found⟩ := Answer.bind_eq_ok_iff.mp found
    rw [scope, Answer.ok_bind]
    split at found
    · rename_i taken
      rw [if_pos taken]
      exact found
    · rename_i free
      rw [if_neg free]
      cases owner : c.owner? with
      | none =>
        simp only [owner] at found ⊢
        exact found
      | some D =>
        simp only [owner] at found ⊢
        obtain ⟨refusal, checked, found⟩ := Answer.bind_eq_ok_iff.mp found
        have checked' : u.ownerRefusal? D b = .ok refusal := by
          refine twin.ownerRefusal? same checked fun field m c p missing => ?_
          rw [missing] at found
          cases found
          exact admitted ((kind_of_symbol symbol).trans (congrArg Except.ok field)) m c p rfl
        rw [checked', Answer.ok_bind]
        exact found

theorem placed (twin : Twin t u) (same : a.blurred = b.blurred) :
    Twin (t.placed s x a c) (u.placed s x b c) := by
  obtain ⟨names, _, bodies, _⟩ := Symbol.shape_eq_iff.mp (Symbol.shape_eq_of_blurred same)
  have listed : Twin ((t.modifyScope s (·.add a.name x)).modifySymbol x
        ({ · with placement := some ⟨s, c.members.size⟩ }))
      ((u.modifyScope s (·.add a.name x)).modifySymbol x
        ({ · with placement := some ⟨s, c.members.size⟩ })) := by
    exact (twin.modifyScope s _).modifySymbol
      (h := ({ · with placement := some ⟨s, c.members.size⟩ })) (fun _ _ => rfl) fun _ _ => rfl
  rw [Table.placed, Table.placed, ← names, ← bodies]
  cases a.form.body? with
  | none => exact listed
  | some body => exact listed.modifyScope body _

/-! ### Slots -/

/-- A field gets some slot; which one is not the same in both tables. -/
theorem exists_nextFieldSlot (twin : Twin t u) (next : t.nextFieldSlot D = .ok slot) :
    ∃ other, u.nextFieldSlot D = .ok other := by
  obtain ⟨a, symbol, next⟩ := Answer.bind_eq_ok_iff.mp next
  obtain ⟨b, symbol', same⟩ := twin.symbol symbol
  have started : (a.form.layout?.bind Layout.nextField).isSome =
      (b.form.layout?.bind Layout.nextField).isSome :=
    Symbol.eq_of_blurred (k := fun a => (a.form.layout?.bind Layout.nextField).isSome)
      (fun a => a.form.isSome_nextField_blurred) same
  rw [nextFieldSlot, symbol', Answer.ok_bind]
  cases counter : b.form.layout?.bind Layout.nextField with
  | some other => exact ⟨other, rfl⟩
  | none =>
    rw [counter] at started
    rw [Option.isSome_eq_false_iff.mp started |> Option.isNone_iff_eq_none.mp] at next
    obtain ⟨r, above, _⟩ := Answer.bind_eq_ok_iff.mp next
    rw [twin.aspect.superclass_eq] at above
    refine ⟨0, ?_⟩
    simp only [fieldBase, above, Answer.ok_bind, twin.perClass]
    rfl

theorem methodBase (twin : Twin t u) (consistent : t.Consistent)
    (base : t.methodBase D = .ok slot) : u.methodBase D = .ok slot := by
  rw [Table.methodBase, twin.aspect.superclass_eq] at base
  obtain ⟨r, above, base⟩ := Answer.bind_eq_ok_iff.mp base
  rw [Table.methodBase, above, Answer.ok_bind]
  cases r with
  | none => exact base
  | some P =>
    obtain ⟨ms, shown, base⟩ := Answer.bind_eq_ok_iff.mp base
    obtain ⟨slots, taken, base⟩ := Answer.bind_eq_ok_iff.mp base
    have shown' : u.methods P = .ok ms := by
      rwa [methods, ← twin.sameShape.visibleMembers_eq]
    have taken' : ms.mapM u.slot? = .ok slots := by
      refine Answer.mapM_eq_ok_of_imp taken fun m listed v known => ?_
      obtain ⟨l, _, rfl⟩ := consistent.layered_of_visibleMembers shown
      obtain ⟨E, _, member⟩ := exists_own_of_mem_layered listed
      rw [← twin.slot?_eq (kind_of_mem_own member) (by decide), known]
    simp only [shown', Answer.ok_bind, taken']
    exact base

theorem nextMethodSlot (twin : Twin t u) (consistent : t.Consistent)
    (next : t.nextMethodSlot D = .ok slot) : u.nextMethodSlot D = .ok slot := by
  obtain ⟨a, symbol, next⟩ := Answer.bind_eq_ok_iff.mp next
  obtain ⟨b, symbol', same⟩ := twin.symbol symbol
  have counters : a.form.layout?.bind Layout.nextMethod = b.form.layout?.bind Layout.nextMethod :=
    Symbol.eq_of_blurred (k := fun a => a.form.layout?.bind Layout.nextMethod)
      (fun a => a.form.nextMethod_blurred) same
  rw [Table.nextMethodSlot, symbol', Answer.ok_bind, ← counters]
  cases counter : a.form.layout?.bind Layout.nextMethod with
  | some _ =>
    rw [counter] at next
    exact next
  | none =>
    rw [counter] at next
    exact twin.methodBase consistent next

theorem overriddenSlot?_eq (twin : Twin t u) (consistent : t.Consistent) (D : SymbolId)
    (n : Name) : t.overriddenSlot? D n = u.overriddenSlot? D n := by
  rw [overriddenSlot?, overriddenSlot?, ← twin.aspect.superclass_eq,
    ← twin.aspect.methodNamed_eq]
  cases up : t.superclass D with
  | error e => rfl
  | ok above =>
    cases above with
    | none => rfl
    | some P =>
      simp only [Answer.ok_bind]
      cases found : t.methodNamed P n with
      | error e => rfl
      | ok overridden =>
        cases overridden with
        | none => rfl
        | some m =>
          obtain ⟨E, member, _⟩ :=
            consistent.mem_own_of_methodNamed (consistent.isAggregate_superclass up) found
          exact twin.slot?_eq (kind_of_mem_own member) (by decide)

theorem setSlot (twin : Twin t u) (known : t.kind x = .ok k) (other : k ≠ .field) (slot : Nat) :
    Twin (t.setSlot x slot) (u.setSlot x slot) := by
  have known' : u.kind x = .ok k := by rwa [← twin.aspect.kind_eq]
  refine twin.modifyForm (f := (·.withSlot slot)) (g := (·.withSlot slot)) (h := (·.withSlot slot))
    (fun a read => Form.blurred_withSlot ?_ slot) fun b read => Form.blurred_withSlot ?_ slot
  · cases Except.ok.inj ((kind_of_symbol read).symm.trans known)
    exact other
  · cases Except.ok.inj ((kind_of_symbol read).symm.trans known')
    exact other

/-- A field has some slot then, and the tables need not agree on it. -/
theorem setFieldSlot (twin : Twin t u) (known : t.kind x = .ok .field) (slot slot' : Nat) :
    Twin (t.setSlot x slot) (u.setSlot x slot') := by
  have known' : u.kind x = .ok .field := by rwa [← twin.aspect.kind_eq]
  refine twin.modifyForm (f := (·.withSlot slot)) (g := (·.withSlot slot')) (h := (·.withSlot 0))
    (fun a read => Form.blurred_withSlot_of_field ?_ slot)
    fun b read => Form.blurred_withSlot_of_field ?_ slot'
  · exact Except.ok.inj ((kind_of_symbol read).symm.trans known)
  · exact Except.ok.inj ((kind_of_symbol read).symm.trans known')

/-- The layouts of an owner are changed alike. -/
theorem modifyLayout (twin : Twin t u) {f g h : Layout → Layout}
    (here : ∀ layout, (f layout).blurred = h layout.blurred)
    (there : ∀ layout, (g layout).blurred = h layout.blurred) :
    Twin (t.modifyLayout D f) (u.modifyLayout D g) :=
  twin.modifyForm (h := Form.mapLayout h) (fun a _ => a.form.blurred_mapLayout here)
    fun b _ => b.form.blurred_mapLayout there

theorem numberField (twin : Twin t u) (known : t.kind x = .ok .field) (slot slot' : Nat) :
    Twin ((t.modifyLayout D ({ · with nextField := some (slot + 1) })).setSlot x slot)
      ((u.modifyLayout D ({ · with nextField := some (slot' + 1) })).setSlot x slot') := by
  have counted : Twin (t.modifyLayout D ({ · with nextField := some (slot + 1) }))
      (u.modifyLayout D ({ · with nextField := some (slot' + 1) })) :=
    -- blurred, the counters cannot be told apart, whatever they stand at
    twin.modifyLayout (h := ({ · with nextField := some 0 })) (fun _ => rfl) fun _ => rfl
  have same : SameShape t (t.modifyLayout D ({ · with nextField := some (slot + 1) })) :=
    sameShape_modifyLayout t D fun _ => rfl
  exact counted.setFieldSlot (same.aspect.kind_eq ▸ known) slot slot'

theorem numberMethod (twin : Twin t u) (known : t.kind x = .ok .method) (slot : Nat) :
    Twin ((t.modifyLayout D ({ · with nextMethod := some (slot + 1) })).setSlot x slot)
      ((u.modifyLayout D ({ · with nextMethod := some (slot + 1) })).setSlot x slot) := by
  have counted : Twin (t.modifyLayout D ({ · with nextMethod := some (slot + 1) }))
      (u.modifyLayout D ({ · with nextMethod := some (slot + 1) })) :=
    twin.modifyLayout (h := ({ · with nextMethod := some (slot + 1) })) (fun _ => rfl)
      fun _ => rfl
  have same : SameShape t (t.modifyLayout D ({ · with nextMethod := some (slot + 1) })) :=
    sameShape_modifyLayout t D fun _ => rfl
  exact counted.setSlot (k := .method) (same.aspect.kind_eq ▸ known) (by decide) slot

theorem assignSlot (twin : Twin t u) (consistent : t.Consistent)
    (assigned : t.assignSlot D x = .ok v) : ∃ w, u.assignSlot D x = .ok w ∧ Twin v w := by
  obtain ⟨a, symbol, assigned⟩ := Answer.bind_eq_ok_iff.mp assigned
  obtain ⟨b, symbol', same⟩ := twin.symbol symbol
  obtain ⟨names, kinds, _⟩ := Symbol.shape_eq_iff.mp (Symbol.shape_eq_of_blurred same)
  have known := kind_of_symbol symbol
  rw [Table.assignSlot, symbol', Answer.ok_bind, ← kinds]
  cases kind : a.kind with
  | field =>
    simp only [kind] at assigned
    obtain ⟨slot, next, assigned⟩ := Answer.bind_eq_ok_iff.mp assigned
    obtain ⟨slot', next'⟩ := twin.exists_nextFieldSlot next
    cases assigned
    refine ⟨_, ?_, twin.numberField (known.trans (congrArg _ kind)) slot slot'⟩
    simp only [next', Answer.ok_bind, Answer.pure_eq_ok]
  | method =>
    have method : t.kind x = .ok .method := known.trans (congrArg _ kind)
    simp only [kind, names, twin.overriddenSlot?_eq consistent] at assigned
    obtain ⟨taken, overridden, assigned⟩ := Answer.bind_eq_ok_iff.mp assigned
    simp only [overridden, Answer.ok_bind]
    cases taken with
    | some slot =>
      cases assigned
      exact ⟨_, rfl, twin.setSlot method (by decide) slot⟩
    | none =>
      obtain ⟨slot, next, assigned⟩ := Answer.bind_eq_ok_iff.mp assigned
      cases assigned
      refine ⟨_, ?_, twin.numberMethod method slot⟩
      simp only [twin.nextMethodSlot consistent next, Answer.ok_bind, Answer.pure_eq_ok]
  | _ =>
    simp only [kind] at assigned
    cases assigned
    exact ⟨u, rfl, twin⟩

theorem assignSlotIn (twin : Twin t u) (consistent : t.Consistent)
    (assigned : t.assignSlotIn s x = .ok v) : ∃ w, u.assignSlotIn s x = .ok w ∧ Twin v w := by
  rw [Table.assignSlotIn, twin.sameShape.scopeOwner?_eq, twin.aspect.kind_eq] at assigned
  rw [Table.assignSlotIn]
  obtain ⟨owner, owned, assigned⟩ := Answer.bind_eq_ok_iff.mp assigned
  rw [owned, Answer.ok_bind]
  cases owner with
  | none =>
    cases assigned
    exact ⟨u, rfl, twin⟩
  | some D =>
    obtain ⟨kind, read, assigned⟩ := Answer.bind_eq_ok_iff.mp assigned
    simp only [read, Answer.ok_bind]
    split at assigned
    · rename_i aggregate
      rw [if_pos aggregate]
      exact twin.assignSlot consistent assigned
    · rename_i plain
      rw [if_neg plain]
      cases assigned
      exact ⟨u, rfl, twin⟩

end Twin

end Table

end Scoping
