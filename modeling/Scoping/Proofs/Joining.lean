import Scoping.Proofs.Growth

/-!
# Joining a struct or class

A field or method that is defined in the body of a struct or class joins its members at
the end. Its slot is worked out on the table in between, where it is listed already,
and nothing else changes but the counter that a new slot is taken from.
-/

namespace Scoping

namespace Table

variable {t u w : Table} {s : ScopeId} {x y D E : SymbolId} {a : Symbol} {c : Scope} {k : Kind}

/-! ### The table in between -/

theorem symbols_placed : (t.placed s x a c).symbols =
    t.symbols.modify x.index ({ · with placement := some ⟨s, c.members.size⟩ }) := by
  rw [placed]
  cases a.form.body? <;> rfl

theorem map_placed {γ : Type} {g : Symbol → γ} (keeps : ∀ a p, g { a with placement := p } = g a) :
    (t.placed s x a c).symbols[y.index]?.map g = t.symbols[y.index]?.map g := by
  rw [symbols_placed]
  exact map_modifySymbol (t := t) (x := x) fun b => keeps b _

theorem bind_placed {γ : Type} {g : Symbol → Option γ}
    (keeps : ∀ a p, g { a with placement := p } = g a) :
    (t.placed s x a c).symbols[y.index]?.bind g = t.symbols[y.index]?.bind g := by
  rw [symbols_placed]
  exact bind_modifySymbol (t := t) (x := x) fun b => keeps b _

theorem nameAt_placed : (t.placed s x a c).nameAt y = t.nameAt y := map_placed fun _ _ => rfl

theorem kindAt_placed : (t.placed s x a c).kindAt y = t.kindAt y := map_placed fun _ _ => rfl

theorem superclassAt_placed : (t.placed s x a c).superclassAt y = t.superclassAt y :=
  bind_placed fun _ _ => rfl

theorem slotAt_placed : (t.placed s x a c).slotAt y = t.slotAt y := bind_placed fun _ _ => rfl

theorem layoutAt_placed : (t.placed s x a c).layoutAt y = t.layoutAt y :=
  bind_placed fun _ _ => rfl

theorem isAggregate_iff_layoutAt : t.IsAggregate D ↔ ∃ layout, t.layoutAt D = some layout := by
  constructor
  · rintro ⟨b, read, kind⟩
    rw [layoutAt_of_symbol read]
    exact isAggregate_iff.mp kind
  · rintro ⟨layout, has⟩
    exact .of_layoutAt has

theorem isAggregate_placed : (t.placed s x a c).IsAggregate D ↔ t.IsAggregate D := by
  rw [isAggregate_iff_layoutAt, layoutAt_placed, isAggregate_iff_layoutAt]

/-- A struct or class whose body is the scope has one more member. -/
theorem Consistent.contents_placed (consistent : t.Consistent) (admits : Admits t s x a c)
    (owned : c.owner? = some D) (aggregate : t.IsAggregate D) :
    (t.placed s x a c).contents D = t.contents D ++ [x] := by
  have still : (t.placed s x a c).IsAggregate D := isAggregate_placed.mpr aggregate
  have owned' : (placedScope s x a s c).owner? = some D := owner?_placedScope.trans owned
  rw [(consistent.placed admits).contents_of_scope still (scope_placed admits.scope) owned',
    consistent.contents_of_scope aggregate admits.scope owned, members_placedScope, if_pos rfl,
    Array.toList_push]

theorem Consistent.contents_placed_of_ne (consistent : t.Consistent) (admits : Admits t s x a c)
    (other : c.owner? ≠ some E) : (t.placed s x a c).contents E = t.contents E := by
  by_cases aggregate : t.IsAggregate E
  · have still : (t.placed s x a c).IsAggregate E := isAggregate_placed.mpr aggregate
    obtain ⟨_, r, d, _, _, scope, owned, listed⟩ := consistent.contents aggregate
    have apart : s ≠ r := by
      rintro rfl
      cases Except.ok.inj (admits.scope.symm.trans scope)
      exact other owned
    have owned' : (placedScope s x a r d).owner? = some E := owner?_placedScope.trans owned
    rw [(consistent.placed admits).contents_of_scope still (scope_placed scope) owned',
      members_placedScope, if_neg apart, listed]
  · rw [contents_of_not_aggregate (mt isAggregate_placed.mp aggregate),
      contents_of_not_aggregate aggregate]

theorem Consistent.grows_placed (consistent : t.Consistent) (admits : Admits t s x a c) :
    Grows t (t.placed s x a c) := by
  refine ⟨config_placed, fun _ => nameAt_placed, fun _ => kindAt_placed,
    fun _ => superclassAt_placed, ?_⟩
  intro E m member
  by_cases owned : c.owner? = some E
  · rw [consistent.contents_placed admits owned (.of_mem member)]
    exact List.mem_append_left _ member
  · rwa [consistent.contents_placed_of_ne admits owned]

/-! ### The slot -/

/-- The slot of the first new member of a kind. -/
def slotBase (t : Table) : Kind → SymbolId → Answer Nat
  | .field, owner => t.fieldBase owner
  | _, owner => t.methodBase owner

/-- The slot of the next new member of a kind. -/
def nextSlot (t : Table) : Kind → SymbolId → Answer Nat
  | .field, owner => t.nextFieldSlot owner
  | _, owner => t.nextMethodSlot owner

/-- The layout after a slot was taken for a new member of a kind. -/
def counted (k : Kind) (slot : Nat) (layout : Layout) : Layout :=
  match k with
  | .field => { layout with nextField := some (slot + 1) }
  | _ => { layout with nextMethod := some (slot + 1) }

theorem nextSlot_eq (slotted : k.Slotted) (given : t.HasSymbol D) : t.nextSlot k D =
    match t.nextAt k D with
    | some slot => .ok slot
    | none => t.slotBase k D := by
  obtain ⟨a, read⟩ := hasSymbol_iff.mp given
  rcases slotted with rfl | rfl
  · rw [nextSlot, nextFieldSlot, read, nextAt, layoutAt_of_symbol read]
    simp only [Answer.ok_bind, Layout.next?]
    rfl
  · simp only [nextSlot, nextMethodSlot, read, nextAt, layoutAt_of_symbol read, Answer.ok_bind,
      Layout.next?]
    rfl

/-- A method takes over the slot that it overrides; every other member takes a new one. -/
theorem assignSlot_eq_ok (read : t.symbol x = .ok a) (slotted : a.kind.Slotted)
    (assigned : t.assignSlot D x = .ok u) : ∃ slot,
      (a.kind = .method ∧ t.overriddenSlot? D a.name = .ok (some slot) ∧ u = t.setSlot x slot) ∨
      ((a.kind = .method → t.overriddenSlot? D a.name = .ok none) ∧
        t.nextSlot a.kind D = .ok slot ∧
        u = (t.modifyLayout D (counted a.kind slot)).setSlot x slot) := by
  rw [assignSlot, read] at assigned
  rcases slotted with kind | kind
  · simp only [Answer.ok_bind, kind] at assigned
    obtain ⟨slot, next, assigned⟩ := Answer.bind_eq_ok_iff.mp assigned
    cases assigned
    refine ⟨slot, .inr ⟨?_, ?_, ?_⟩⟩
    · rw [kind]
      rintro ⟨⟩
    · rw [kind]
      exact next
    · rw [kind]
      rfl
  · simp only [Answer.ok_bind, kind] at assigned
    obtain ⟨taken, found, assigned⟩ := Answer.bind_eq_ok_iff.mp assigned
    cases taken with
    | some slot =>
      cases assigned
      exact ⟨slot, .inl ⟨kind, found, rfl⟩⟩
    | none =>
      obtain ⟨slot, next, assigned⟩ := Answer.bind_eq_ok_iff.mp assigned
      cases assigned
      refine ⟨slot, .inr ⟨fun _ => found, ?_, ?_⟩⟩
      · rw [kind]
        exact next
      · rw [kind]
        rfl

theorem slot?_withSlot {form : Form} (slotted : form.kind.Slotted) (slot : Nat) :
    (form.withSlot slot).slot? = some slot := by
  rcases slotted with kind | kind
  · cases form <;> first | rfl | cases kind
  · cases form <;> first | rfl | cases kind

theorem layout?_withSlot (form : Form) (slot : Nat) : (form.withSlot slot).layout? = form.layout? :=
  by cases form <;> rfl

theorem slot?_mapLayout (form : Form) (f : Layout → Layout) :
    (form.mapLayout f).slot? = form.slot? := by cases form <;> rfl

theorem layout?_mapLayout (form : Form) (f : Layout → Layout) :
    (form.mapLayout f).layout? = form.layout?.map f := by cases form <;> rfl

theorem slotAt_setSlot (read : t.symbol x = .ok a) (slotted : a.kind.Slotted) (slot : Nat) :
    (t.setSlot x slot).slotAt y = if x = y then some slot else t.slotAt y := by
  by_cases same : x = y
  · subst same
    rw [if_pos rfl, slotAt, setSlot, modifySymbol, Array.getElem?_modify, if_pos rfl,
      symbols_of_symbol read]
    exact slot?_withSlot slotted slot
  · have apart : x.index ≠ y.index := fun index => same (SymbolId.ext index)
    rw [if_neg same, slotAt, setSlot, modifySymbol, Array.getElem?_modify, if_neg apart]
    rfl

theorem layoutAt_setSlot (slot : Nat) : (t.setSlot x slot).layoutAt y = t.layoutAt y :=
  layoutAt_modifySymbol fun b => layout?_withSlot b.form slot

theorem slotAt_modifyLayout (f : Layout → Layout) : (t.modifyLayout D f).slotAt y = t.slotAt y :=
  slotAt_modifySymbol fun b => slot?_mapLayout b.form f

theorem layoutAt_modifyLayout (f : Layout → Layout) : (t.modifyLayout D f).layoutAt E =
    if D = E then (t.layoutAt E).map f else t.layoutAt E := by
  by_cases same : D = E
  · subst same
    rw [if_pos rfl, layoutAt, modifyLayout, modifySymbol, Array.getElem?_modify, if_pos rfl,
      layoutAt]
    cases t.symbols[D.index]? with
    | none => rfl
    | some b => exact layout?_mapLayout b.form f
  · have apart : D.index ≠ E.index := fun index => same (SymbolId.ext index)
    rw [if_neg same, layoutAt, modifyLayout, modifySymbol, Array.getElem?_modify, if_neg apart]
    rfl

theorem next?_counted {other : Kind} (slotted : k.Slotted) (slot : Nat) (layout : Layout) :
    (counted k slot layout).next? other =
      if other = k then some (slot + 1) else layout.next? other := by
  rcases slotted with rfl | rfl <;> cases other <;> rfl

/-! ### What a definition does -/

/-- `x`, of kind `k` and name `n`, joined `D` and got a slot, worked out on `w`. -/
structure Joins (t w u : Table) (k : Kind) (D x : SymbolId) (n : Name) (slot : Nat) : Prop where
  grows : Grows t u
  consistent : w.Consistent
  configBefore : w.config = t.config
  same : SameShape w u
  name : t.nameAt x = some n
  kind : t.kindAt x = some k
  undefined : ∀ E, x ∉ t.contents E
  unnamed : ∀ m ∈ t.contents D, t.nameAt m ≠ some n
  rooted : t.slotNeedsSuperclass k = true → t.missingSuperclass? D = .ok none
  here : u.contents D = t.contents D ++ [x]
  elsewhere : ∀ E, E ≠ D → u.contents E = t.contents E
  names : ∀ y, u.nameAt y = t.nameAt y
  kinds : ∀ y, u.kindAt y = t.kindAt y
  slotBefore : ∀ y, w.slotAt y = t.slotAt y
  nextBefore : ∀ j E, w.nextAt j E = t.nextAt j E
  slots : ∀ y, u.slotAt y = if x = y then some slot else t.slotAt y
  due : (k = .method ∧ w.overriddenSlot? D n = .ok (some slot) ∧
      ∀ j E, u.nextAt j E = t.nextAt j E) ∨
    ((k = .method → w.overriddenSlot? D n = .ok none) ∧ w.nextSlot k D = .ok slot ∧
      ∀ j E, u.nextAt j E = if j = k ∧ E = D then some (slot + 1) else t.nextAt j E)

theorem Consistent.not_mem_of_admits (consistent : t.Consistent) (admits : Admits t s x a c) :
    x ∉ t.contents E := by
  intro member
  obtain ⟨a', _, _, symbol, home, _⟩ := consistent.member_contents member
  cases Except.ok.inj (admits.symbol.symm.trans symbol)
  rw [admits.homeless] at home
  cases home

theorem Consistent.unnamed_of_admits (consistent : t.Consistent) (admits : Admits t s x a c)
    (owned : c.owner? = some D) {m : SymbolId} (member : m ∈ t.contents D) :
    t.nameAt m ≠ some a.name := by
  intro same
  obtain ⟨b, _, _, symbol, _, scope, owned', found⟩ := consistent.member_contents member
  obtain ⟨_, rfl⟩ := consistent.scope_unique admits.scope owned scope owned'
  rw [nameAt_of_symbol symbol, Option.some.injEq] at same
  rw [same, admits.unnamed] at found
  cases found

theorem Consistent.joins (consistent : t.Consistent) (defined : t.define s x = .ok (.ok u))
    (scope : t.scope s = .ok c) (owned : c.owner? = some D) (aggregate : t.IsAggregate D)
    (symbol : t.symbol x = .ok a) (slotted : a.kind.Slotted) :
    ∃ w slot, Joins t w u a.kind D x a.name slot := by
  obtain ⟨a', c', admits, assigned⟩ := define_eq_ok defined
  cases Except.ok.inj (symbol.symm.trans admits.symbol)
  cases Except.ok.inj (scope.symm.trans admits.scope)
  have between := consistent.placed admits
  have same := sameShape_assignSlotIn assigned
  have named := nameAt_of_symbol symbol
  -- the owner is still a struct or class, so the slot is assigned
  have still : (t.placed s x a c).IsAggregate D := isAggregate_placed.mpr aggregate
  obtain ⟨b, read, kind⟩ := still
  have owner : (t.placed s x a c).scopeOwner? s = .ok (some D) := by
    rw [scopeOwner?, scope_placed scope, Answer.ok_bind, owner?_placedScope, owned]
    rfl
  rw [assignSlotIn, owner] at assigned
  simp only [Answer.ok_bind, kind_of_symbol read, kind, if_true] at assigned
  have placedKind : (placedSymbol s x c x a).kind = a.kind := by
    rw [Symbol.kind, form_placedSymbol, Symbol.kind]
  obtain ⟨slot, due⟩ := assignSlot_eq_ok (symbol_placed symbol) (placedKind ▸ slotted) assigned
  rw [placedKind, name_placedSymbol] at due
  have moved : Grows (t.placed s x a c) u := by
    refine ⟨?_, fun _ => same.nameAt_eq, fun _ => same.kindAt_eq, fun _ => same.superclassAt_eq,
      fun {E m} member => ?_⟩
    · rcases due with ⟨_, _, rfl⟩ | ⟨_, _, rfl⟩ <;> rfl
    · rwa [same.contents_eq]
  refine ⟨t.placed s x a c, slot, ?_⟩
  constructor
  case grows => exact (consistent.grows_placed admits).trans moved
  case consistent => exact between
  case configBefore => exact config_placed
  case same => exact same
  case name => exact named
  case kind => exact kindAt_of_symbol symbol
  case undefined => exact fun E => consistent.not_mem_of_admits admits
  case unnamed => exact fun m member => consistent.unnamed_of_admits admits owned member
  case rooted =>
    obtain ⟨_, _, _, rooted⟩ := admits.owned D owned
    exact rooted
  case here => rw [same.contents_eq, consistent.contents_placed admits owned aggregate]
  case elsewhere =>
    intro E other
    have apart : c.owner? ≠ some E := by
      rw [owned]
      rintro ⟨⟩
      exact other rfl
    rw [same.contents_eq, consistent.contents_placed_of_ne admits apart]
  case names => exact fun y => same.nameAt_eq.trans nameAt_placed
  case kinds => exact fun y => same.kindAt_eq.trans kindAt_placed
  case slotBefore => exact fun y => slotAt_placed
  case nextBefore => exact nextAt_eq fun y => layoutAt_placed
  case slots =>
    intro y
    rcases due with ⟨_, _, rfl⟩ | ⟨_, _, rfl⟩
    · rw [slotAt_setSlot (symbol_placed symbol) (placedKind ▸ slotted), slotAt_placed]
    · obtain ⟨e, read', shape⟩ := (sameShape_modifyLayout (t.placed s x a c) D
        (f := counted a.kind slot) fun _ => by cases a.kind <;> rfl).symbol (symbol_placed symbol)
      have kept : e.kind = a.kind := (Symbol.shape_eq_iff.mp shape).2.1.trans placedKind
      rw [slotAt_setSlot read' (kept ▸ slotted), slotAt_modifyLayout, slotAt_placed]
  case due =>
    rcases due with ⟨method, taken, rfl⟩ | ⟨free, next, rfl⟩
    · refine .inl ⟨method, taken, fun j E => ?_⟩
      rw [nextAt, layoutAt_setSlot, layoutAt_placed, nextAt]
    · refine .inr ⟨free, next, fun j E => ?_⟩
      rw [nextAt, layoutAt_setSlot, layoutAt_modifyLayout, layoutAt_placed, nextAt]
      obtain ⟨layout, has⟩ := isAggregate_iff_layoutAt.mp aggregate
      by_cases here : D = E
      · subst here
        rw [if_pos rfl, has, Option.map_some, Option.bind_some, Option.bind_some,
          next?_counted slotted]
        simp
      · rw [if_neg here, if_neg fun both => here both.2.symm]

end Table

end Scoping
