import Scoping.Proofs.Answer
import Scoping.Table.Definition
import Scoping.Table.History

/-!
# The shape of a table

Names are looked up by what encloses what, what is defined where, and which class
names which superclass. Blocks, types, slots and definition sites play no part
in it, and two tables that differ in nothing else have the same shape. The order of
members plays no part in it either, so that the look-ups see even less than the shape.
-/

namespace Scoping

/-- What a look-up sees of a scope. -/
structure ScopeShape where
  kind : ScopeKind
  enclosing : Option ScopeId
  members : Array SymbolId
  index : Std.TreeMap Name SymbolId

/-- What a look-up sees of a symbol. -/
structure SymbolShape where
  name : Name
  kind : Kind
  body : Option ScopeId
  superclass : Option Name
  placement : Option Placement

def Scope.shape (s : Scope) : ScopeShape := ⟨s.kind, s.enclosing, s.members, s.index⟩

def Symbol.shape (x : Symbol) : SymbolShape :=
  ⟨x.name, x.kind, x.form.body?, x.form.superclassName?, x.placement⟩

/-- What the answer of a look-up depends on in a scope. -/
structure ScopeAspect where
  kind : ScopeKind
  enclosing : Option ScopeId
  find : Name → Option SymbolId

/-- What the answer of a look-up depends on in a symbol. -/
structure SymbolAspect where
  name : Name
  kind : Kind
  body : Option ScopeId
  superclass : Option Name
  home : Option ScopeId

def Scope.aspect (s : Scope) : ScopeAspect := ⟨s.kind, s.enclosing, s.find?⟩

def Symbol.aspect (x : Symbol) : SymbolAspect :=
  ⟨x.name, x.kind, x.form.body?, x.form.superclassName?, x.owningScope?⟩

/-- The layout, no slot being taken. -/
def Layout.unnumbered (layout : Layout) : Layout :=
  { layout with nextField := none, nextMethod := none }

namespace Form

/-- The form without its slot, and its layout without taken slots. -/
def unnumbered : Form → Form
  | field type _ => field type none
  | method result body _ => method result body none
  | structType layout => structType layout.unnumbered
  | classType layout superclass => classType layout.unnumbered superclass
  | form => form

theorem kind_unnumbered (form : Form) : form.unnumbered.kind = form.kind := by cases form <;> rfl

theorem body?_unnumbered (form : Form) : form.unnumbered.body? = form.body? := by
  cases form <;> rfl

theorem superclassName?_unnumbered (form : Form) :
    form.unnumbered.superclassName? = form.superclassName? := by cases form <;> rfl

theorem unnumbered_withSlot (form : Form) (slot : Nat) :
    (form.withSlot slot).unnumbered = form.unnumbered := by cases form <;> rfl

theorem unnumbered_mapLayout (form : Form) {f : Layout → Layout}
    (keeps : ∀ l, (f l).unnumbered = l.unnumbered) :
    (form.mapLayout f).unnumbered = form.unnumbered := by
  cases form <;> simp [mapLayout, unnumbered, keeps]

theorem kind_withDeclaredType (form : Form) (type : TypeId) :
    (form.withDeclaredType type).kind = form.kind := by cases form <;> rfl

theorem body?_withDeclaredType (form : Form) (type : TypeId) :
    (form.withDeclaredType type).body? = form.body? := by cases form <;> rfl

theorem superclassName?_withDeclaredType (form : Form) (type : TypeId) :
    (form.withDeclaredType type).superclassName? = form.superclassName? := by cases form <;> rfl

theorem kind_mapLayout (form : Form) (f : Layout → Layout) :
    (form.mapLayout f).kind = form.kind := by cases form <;> rfl

theorem body?_mapLayout (form : Form) {f : Layout → Layout} (keeps : ∀ l, (f l).body = l.body) :
    (form.mapLayout f).body? = form.body? := by cases form <;> simp [mapLayout, body?, keeps]

theorem superclassName?_mapLayout (form : Form) (f : Layout → Layout) :
    (form.mapLayout f).superclassName? = form.superclassName? := by cases form <;> rfl

end Form

theorem Scope.shape_eq_iff {a b : Scope} : a.shape = b.shape ↔ a.kind = b.kind ∧
    a.enclosing = b.enclosing ∧ a.members = b.members ∧ a.index = b.index := by
  simp only [shape, ScopeShape.mk.injEq]

theorem Symbol.shape_eq_iff {a b : Symbol} : a.shape = b.shape ↔ a.name = b.name ∧
    a.kind = b.kind ∧ a.form.body? = b.form.body? ∧
    a.form.superclassName? = b.form.superclassName? ∧ a.placement = b.placement := by
  simp only [shape, SymbolShape.mk.injEq]

theorem Scope.aspect_eq_iff {a b : Scope} : a.aspect = b.aspect ↔ a.kind = b.kind ∧
    a.enclosing = b.enclosing ∧ a.find? = b.find? := by
  simp only [aspect, ScopeAspect.mk.injEq]

theorem Symbol.aspect_eq_iff {a b : Symbol} : a.aspect = b.aspect ↔ a.name = b.name ∧
    a.kind = b.kind ∧ a.form.body? = b.form.body? ∧
    a.form.superclassName? = b.form.superclassName? ∧ a.owningScope? = b.owningScope? := by
  simp only [aspect, SymbolAspect.mk.injEq]

/-- The symbol with its form unnumbered. -/
def Symbol.unnumbered (x : Symbol) : Symbol := { x with form := x.form.unnumbered }

theorem Symbol.shape_unnumbered (x : Symbol) : x.unnumbered.shape = x.shape := by
  simp only [shape, kind, unnumbered, Form.kind_unnumbered, Form.body?_unnumbered,
    Form.superclassName?_unnumbered]

theorem Scope.owner?_eq {a b : Scope} (same : a.kind = b.kind) : a.owner? = b.owner? :=
  congrArg ScopeKind.owner? same

theorem Scope.find?_eq {a b : Scope} (same : a.index = b.index) : a.find? = b.find? := by
  funext name
  rw [find?, find?, same]

theorem Symbol.owningScope?_eq {a b : Symbol} (same : a.placement = b.placement) :
    a.owningScope? = b.owningScope? := congrArg (Option.map Placement.scope) same

theorem map_modify_of_keeps {α β : Type} {xs : Array α} {i : Nat} {f : α → α} {g : α → β}
    (keeps : ∀ a, g (f a) = g a) : (xs.modify i f).map g = xs.map g := by
  apply Array.ext_getElem?
  intro j
  rw [Array.getElem?_map, Array.getElem?_map, Array.getElem?_modify]
  by_cases same : i = j
  · rw [if_pos same, Option.map_map]
    congr 1
    funext a
    exact keeps a
  · rw [if_neg same]

theorem Scope.aspect_of_shape {a b : Scope} (same : a.shape = b.shape) : a.aspect = b.aspect := by
  rw [shape_eq_iff] at same
  exact aspect_eq_iff.mpr ⟨same.1, same.2.1, find?_eq same.2.2.2⟩

theorem Symbol.aspect_of_shape {a b : Symbol} (same : a.shape = b.shape) :
    a.aspect = b.aspect := by
  rw [shape_eq_iff] at same
  exact aspect_eq_iff.mpr
    ⟨same.1, same.2.1, same.2.2.1, same.2.2.2.1, owningScope?_eq same.2.2.2.2⟩

namespace Table

/-- Two tables that read the same, when of a scope `f` is read and of a symbol `g`. -/
structure Alike {α β : Type} (f : Scope → α) (g : Symbol → β) (t u : Table) : Prop where
  scopes : t.scopes.map f = u.scopes.map f
  symbols : t.symbols.map g = u.symbols.map g

namespace Alike

variable {α β γ : Type} {f : Scope → α} {g : Symbol → β} {t u v : Table}

theorem refl (t : Table) : Alike f g t t := ⟨rfl, rfl⟩

theorem symm (h : Alike f g t u) : Alike f g u t := ⟨h.scopes.symm, h.symbols.symm⟩

theorem trans (h : Alike f g t u) (k : Alike f g u v) : Alike f g t v :=
  ⟨h.scopes.trans k.scopes, h.symbols.trans k.symbols⟩

theorem size_scopes (h : Alike f g t u) : t.scopes.size = u.scopes.size := by
  simpa using congrArg Array.size h.scopes

theorem size_symbols (h : Alike f g t u) : t.symbols.size = u.symbols.size := by
  simpa using congrArg Array.size h.symbols

theorem scope (h : Alike f g t u) {s : ScopeId} {a : Scope} (read : t.scope s = .ok a) :
    ∃ b, u.scope s = .ok b ∧ f b = f a := by
  have entry := congrArg (fun entries => entries[s.index]?) h.scopes
  simp only [Array.getElem?_map, scope_eq_ok_iff.mp read, Option.map_some] at entry
  obtain ⟨b, read', same⟩ := Option.map_eq_some_iff.mp entry.symm
  exact ⟨b, scope_eq_ok_iff.mpr read', same⟩

theorem symbol (h : Alike f g t u) {x : SymbolId} {a : Symbol} (read : t.symbol x = .ok a) :
    ∃ b, u.symbol x = .ok b ∧ g b = g a := by
  have entry := congrArg (fun entries => entries[x.index]?) h.symbols
  simp only [Array.getElem?_map, symbol_eq_ok_iff.mp read, Option.map_some] at entry
  obtain ⟨b, read', same⟩ := Option.map_eq_some_iff.mp entry.symm
  exact ⟨b, symbol_eq_ok_iff.mpr read', same⟩

theorem scope_error (h : Alike f g t u) {s : ScopeId} {e : Fault} (read : t.scope s = .error e) :
    u.scope s = .error e := by
  cases read' : u.scope s with
  | ok b =>
    obtain ⟨a, read'', _⟩ := h.symm.scope read'
    rw [read] at read''
    cases read''
  | error e' =>
    unfold Table.scope at read read'
    split at read <;> split at read' <;> simp_all

theorem symbol_error (h : Alike f g t u) {x : SymbolId} {e : Fault}
    (read : t.symbol x = .error e) : u.symbol x = .error e := by
  cases read' : u.symbol x with
  | ok b =>
    obtain ⟨a, read'', _⟩ := h.symm.symbol read'
    rw [read] at read''
    cases read''
  | error e' =>
    unfold Table.symbol at read read'
    split at read <;> split at read' <;> simp_all

theorem hasScope_iff (h : Alike f g t u) {s : ScopeId} : t.HasScope s ↔ u.HasScope s := by
  rw [HasScope, HasScope, h.size_scopes]

theorem hasSymbol_iff (h : Alike f g t u) {x : SymbolId} : t.HasSymbol x ↔ u.HasSymbol x := by
  rw [HasSymbol, HasSymbol, h.size_symbols]

/-- A question that is answered by what is read has the same answer. -/
theorem read_scope (h : Alike f g t u) {k : Scope → γ} (reads : ∀ a b, f a = f b → k a = k b)
    (s : ScopeId) :
    (t.scope s >>= fun a => pure (k a)) = (u.scope s >>= fun a => pure (k a)) := by
  cases read : t.scope s with
  | ok a =>
    obtain ⟨b, read', same⟩ := h.scope read
    simp only [read', Answer.ok_bind, reads b a same]
  | error e => simp only [h.scope_error read, Answer.error_bind]

theorem read_symbol (h : Alike f g t u) {k : Symbol → γ} (reads : ∀ a b, g a = g b → k a = k b)
    (x : SymbolId) :
    (t.symbol x >>= fun a => pure (k a)) = (u.symbol x >>= fun a => pure (k a)) := by
  cases read : t.symbol x with
  | ok a =>
    obtain ⟨b, read', same⟩ := h.symbol read
    simp only [read', Answer.ok_bind, reads b a same]
  | error e => simp only [h.symbol_error read, Answer.error_bind]

theorem of_reads (scopes : t.scopes.size = u.scopes.size)
    (symbols : t.symbols.size = u.symbols.size)
    (scope : ∀ s a, t.scope s = .ok a → ∃ b, u.scope s = .ok b ∧ f b = f a)
    (symbol : ∀ x a, t.symbol x = .ok a → ∃ b, u.symbol x = .ok b ∧ g b = g a) :
    Alike f g t u := by
  constructor
  · refine Array.ext (by simpa using scopes) fun i inside _ => ?_
    rw [Array.size_map] at inside
    obtain ⟨b, read, same⟩ := scope ⟨i⟩ _ (scope_eq_ok_iff.mpr (Array.getElem?_eq_getElem inside))
    obtain ⟨_, rfl⟩ := Array.getElem?_eq_some_iff.mp (scope_eq_ok_iff.mp read)
    simpa using same.symm
  · refine Array.ext (by simpa using symbols) fun i inside _ => ?_
    rw [Array.size_map] at inside
    obtain ⟨b, read, same⟩ :=
      symbol ⟨i⟩ _ (symbol_eq_ok_iff.mpr (Array.getElem?_eq_getElem inside))
    obtain ⟨_, rfl⟩ := Array.getElem?_eq_some_iff.mp (symbol_eq_ok_iff.mp read)
    simpa using same.symm

/-- What is determined by what is read is read the same. -/
theorem weaken {δ : Type} {f' : Scope → γ} {g' : Symbol → δ} (h : Alike f g t u)
    (scopes : ∀ a b, f a = f b → f' a = f' b) (symbols : ∀ a b, g a = g b → g' a = g' b) :
    Alike f' g' t u := by
  refine .of_reads h.size_scopes h.size_symbols (fun s a read => ?_) fun x a read => ?_
  · obtain ⟨b, read', same⟩ := h.scope read
    exact ⟨b, read', scopes b a same⟩
  · obtain ⟨b, read', same⟩ := h.symbol read
    exact ⟨b, read', symbols b a same⟩

end Alike

/-- Two tables in which every look-up has the same answer. -/
abbrev SameAspect (t u : Table) : Prop := Alike Scope.aspect Symbol.aspect t u

namespace SameAspect

variable {t u : Table}

theorem enclosing?_eq (same : SameAspect t u) : t.enclosing? = u.enclosing? := by
  funext s
  exact same.read_scope (fun a b aspect => (Scope.aspect_eq_iff.mp aspect).2.1) s

theorem kind_eq (same : SameAspect t u) : t.kind = u.kind := by
  funext x
  exact same.read_symbol (fun a b aspect => (Symbol.aspect_eq_iff.mp aspect).2.1) x

theorem name_eq (same : SameAspect t u) : t.name = u.name := by
  funext x
  exact same.read_symbol (fun a b aspect => (Symbol.aspect_eq_iff.mp aspect).1) x

theorem body?_eq (same : SameAspect t u) : t.body? = u.body? := by
  funext x
  exact same.read_symbol (fun a b aspect => (Symbol.aspect_eq_iff.mp aspect).2.2.1) x

end SameAspect

/-- Two tables that no look-up can tell apart. -/
structure SameShape (t u : Table) : Prop where
  scopes : t.scopes.map Scope.shape = u.scopes.map Scope.shape
  symbols : t.symbols.map Symbol.shape = u.symbols.map Symbol.shape

namespace SameShape

variable {t u : Table}

theorem alike (h : SameShape t u) : Alike Scope.shape Symbol.shape t u := ⟨h.scopes, h.symbols⟩

theorem aspect (h : SameShape t u) : SameAspect t u :=
  h.alike.weaken (fun _ _ => Scope.aspect_of_shape) fun _ _ => Symbol.aspect_of_shape

theorem symm (h : SameShape t u) : SameShape u t := ⟨h.scopes.symm, h.symbols.symm⟩

theorem of_eq (scopes : t.scopes = u.scopes) (symbols : t.symbols = u.symbols) :
    SameShape t u := ⟨congrArg _ scopes, congrArg _ symbols⟩

theorem scope (h : SameShape t u) {s : ScopeId} {a : Scope} (read : t.scope s = .ok a) :
    ∃ b, u.scope s = .ok b ∧ b.shape = a.shape := h.alike.scope read

theorem symbol (h : SameShape t u) {x : SymbolId} {a : Symbol} (read : t.symbol x = .ok a) :
    ∃ b, u.symbol x = .ok b ∧ b.shape = a.shape := h.alike.symbol read

end SameShape

/-! ### Changes that keep the shape -/

theorem sameShape_modifySymbol (t : Table) (x : SymbolId) {f : Symbol → Symbol}
    (keeps : ∀ a, (f a).shape = a.shape) : SameShape t (t.modifySymbol x f) :=
  ⟨rfl, (map_modify_of_keeps keeps).symm⟩

theorem sameShape_modifyScope (t : Table) (s : ScopeId) {f : Scope → Scope}
    (keeps : ∀ a, (f a).shape = a.shape) : SameShape t (t.modifyScope s f) :=
  ⟨(map_modify_of_keeps keeps).symm, rfl⟩

theorem sameShape_nest (t : Table) (parent block : ScopeId) :
    SameShape t (t.modifyScope parent (·.nest block)) := by
  apply sameShape_modifyScope
  intro a
  unfold Scope.nest
  split <;> rfl

theorem sameShape_setType (t : Table) (x : SymbolId) (type : TypeId) :
    SameShape t (t.modifySymbol x fun x => { x with form := x.form.withDeclaredType type }) := by
  apply sameShape_modifySymbol
  intro a
  simp only [Symbol.shape, Symbol.kind, Form.kind_withDeclaredType, Form.body?_withDeclaredType,
    Form.superclassName?_withDeclaredType]

theorem sameShape_setDefSite (t : Table) (x : SymbolId) (site : DefSite) :
    SameShape t (t.modifySymbol x ({ · with defSite := some site })) :=
  sameShape_modifySymbol t x fun _ => rfl

theorem sameShape_modifyLayout (t : Table) (owner : SymbolId) {f : Layout → Layout}
    (keeps : ∀ l, (f l).body = l.body) : SameShape t (t.modifyLayout owner f) := by
  apply sameShape_modifySymbol
  intro a
  simp only [Symbol.shape, Symbol.kind, Form.kind_mapLayout, Form.body?_mapLayout _ keeps,
    Form.superclassName?_mapLayout]

/-! ### Slots -/

theorem unnumbered_modifySymbol (t : Table) (x : SymbolId) {f : Symbol → Symbol}
    (keeps : ∀ a, (f a).unnumbered = a.unnumbered) :
    (t.modifySymbol x f).symbols.map Symbol.unnumbered = t.symbols.map Symbol.unnumbered :=
  map_modify_of_keeps keeps

theorem unnumbered_setSlot (t : Table) (member : SymbolId) (slot : Nat) :
    (t.setSlot member slot).symbols.map Symbol.unnumbered = t.symbols.map Symbol.unnumbered := by
  refine unnumbered_modifySymbol t member fun a => ?_
  simp only [Symbol.unnumbered, Form.unnumbered_withSlot]

theorem unnumbered_modifyLayout (t : Table) (owner : SymbolId) {f : Layout → Layout}
    (keeps : ∀ l, (f l).unnumbered = l.unnumbered) :
    (t.modifyLayout owner f).symbols.map Symbol.unnumbered = t.symbols.map Symbol.unnumbered := by
  refine unnumbered_modifySymbol t owner fun a => ?_
  simp only [Symbol.unnumbered, Form.unnumbered_mapLayout _ keeps]

/-- Giving a member its slot changes nothing but the numbering of symbols. -/
theorem assignSlot_unnumbered {t u : Table} {owner member : SymbolId}
    (assigned : t.assignSlot owner member = .ok u) : ∃ symbols, u = { t with symbols } ∧
      symbols.map Symbol.unnumbered = t.symbols.map Symbol.unnumbered := by
  rw [assignSlot] at assigned
  obtain ⟨x, _, assigned⟩ := Answer.bind_eq_ok_iff.mp assigned
  split at assigned
  · obtain ⟨slot, _, assigned⟩ := Answer.bind_eq_ok_iff.mp assigned
    cases assigned
    refine ⟨_, rfl, (unnumbered_setSlot _ member slot).trans (unnumbered_modifyLayout t owner ?_)⟩
    exact fun _ => rfl
  · obtain ⟨taken, _, assigned⟩ := Answer.bind_eq_ok_iff.mp assigned
    cases taken with
    | some slot =>
      cases assigned
      exact ⟨_, rfl, unnumbered_setSlot t member slot⟩
    | none =>
      obtain ⟨slot, _, assigned⟩ := Answer.bind_eq_ok_iff.mp assigned
      cases assigned
      refine ⟨_, rfl, (unnumbered_setSlot _ member slot).trans (unnumbered_modifyLayout t owner ?_)⟩
      exact fun _ => rfl
  · cases assigned
    exact ⟨_, rfl, rfl⟩

theorem assignSlotIn_unnumbered {t u : Table} {s : ScopeId} {member : SymbolId}
    (assigned : t.assignSlotIn s member = .ok u) : ∃ symbols, u = { t with symbols } ∧
      symbols.map Symbol.unnumbered = t.symbols.map Symbol.unnumbered := by
  rw [assignSlotIn] at assigned
  obtain ⟨owner, _, assigned⟩ := Answer.bind_eq_ok_iff.mp assigned
  cases owner with
  | none =>
    cases assigned
    exact ⟨_, rfl, rfl⟩
  | some owner =>
    obtain ⟨kind, _, assigned⟩ := Answer.bind_eq_ok_iff.mp assigned
    split at assigned
    · exact assignSlot_unnumbered assigned
    · cases assigned
      exact ⟨_, rfl, rfl⟩

/-- Giving a member its slot is invisible to every look-up. -/
theorem sameShape_assignSlotIn {t u : Table} {s : ScopeId} {member : SymbolId}
    (assigned : t.assignSlotIn s member = .ok u) : SameShape t u := by
  obtain ⟨symbols, rfl, same⟩ := assignSlotIn_unnumbered assigned
  refine ⟨rfl, ?_⟩
  have shapes := congrArg (fun entries => entries.map Symbol.shape) same
  simp only [Array.map_map] at shapes
  have plain : Symbol.shape ∘ Symbol.unnumbered = Symbol.shape := funext Symbol.shape_unnumbered
  rw [plain] at shapes
  exact shapes.symm

end Table

end Scoping
