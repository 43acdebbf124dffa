import Scoping.Proofs.Carried
import Scoping.Proofs.Dependence
import Scoping.Proofs.Calm
import Scoping.Proofs.Membership

/-!
# Legal definitions

A symbol may be defined in a scope under five conditions: on the symbol itself, on the names
in the scope, on the kinds that the owner of the scope takes, on the superclasses of the
owner, and on the scopes around. A definition that is legal succeeds and changes entries of
the scope, the symbol, its body and the owner only. One that is not is refused for the first
condition that fails, and changes nothing.
-/

namespace Scoping

namespace Table

variable {t u w : Table} {s r : ScopeId} {x y D : SymbolId} {a e : Symbol} {c d : Scope}
  {l : List SymbolId} {k : Kind} {refusal : Refusal}

/-! ### The conditions -/

/-- The symbol is not defined yet. -/
def Undefined (t : Table) (x : SymbolId) : Prop := t.owningScope? x = .ok none

/-- The scope lists nothing that is called like the symbol. -/
def Unnamed (t : Table) (s : ScopeId) (x : SymbolId) : Prop :=
  ∀ text y, t.symbolName x = .ok text → ¬ t.Lists s text y

/-- The kinds of the members of structs and classes. -/
def memberKinds : List Kind := [.field, .method, .structType, .classType]

/-- The body of a struct or class takes members only. -/
def Fits (t : Table) (s : ScopeId) (x : SymbolId) : Prop :=
  ∀ D k, t.scopeOwner? s = .ok (some D) → t.IsAggregate D → t.kind x = .ok k → k ∈ memberKinds

/-- The slot of such a member is worked out from what is visible through the superclass. -/
def Inheriting (t : Table) (k : Kind) : Prop :=
  k = .method ∨ k = .field ∧ t.config.fieldLayout = .inherited

/-- If the last class of the chain names a superclass, it is there. -/
def Complete (t : Table) (D : SymbolId) : Prop := ∀ l, t.chain D = .ok l →
  t.superclassName? (l.getLastD D) = .ok none ∨ ∃ P, t.superclass (l.getLastD D) = .ok (some P)

/-- A class that the slot of the member hangs on has a complete chain. -/
def Anchored (t : Table) (s : ScopeId) (x : SymbolId) : Prop :=
  ∀ D k, t.scopeOwner? s = .ok (some D) → t.kind D = .ok .classType → t.kind x = .ok k →
    t.Inheriting k → t.Complete D

/-- The scope is not the body of the symbol, and does not lie in it. -/
def Outdoors (t : Table) (s : ScopeId) (x : SymbolId) : Prop :=
  ∀ b path, t.body? x = .ok (some b) → t.enclosingPath s = .ok path → b ∉ path

/-- The symbol may be defined in the scope. -/
structure Legal (t : Table) (s : ScopeId) (x : SymbolId) : Prop where
  undefined : t.Undefined x
  unnamed : t.Unnamed s x
  fits : t.Fits s x
  anchored : t.Anchored s x
  outdoors : t.Outdoors s x

/-- Why the symbol may not be defined in the scope: the first condition that fails. -/
inductive Refused (t : Table) (s : ScopeId) (x : SymbolId) : Refusal → Prop
  | alreadyDefined {home : ScopeId} {text place : String} :
      t.owningScope? x = .ok (some home) →
      t.symbolName x = .ok text → t.scopeName home = .ok place →
      Refused t s x (.alreadyDefined text place)
  | duplicateSymbol {y : SymbolId} {text place : String} :
      t.Undefined x → t.Lists s text y →
      t.symbolName x = .ok text → t.scopeName s = .ok place →
      Refused t s x (.duplicateSymbol text place)
  | invalidMember {D : SymbolId} {k : Kind} {text owner : String} :
      t.Undefined x → t.Unnamed s x →
      t.scopeOwner? s = .ok (some D) → t.IsAggregate D → t.kind x = .ok k → k ∉ memberKinds →
      t.symbolName x = .ok text → t.symbolName D = .ok owner →
      Refused t s x (.invalidMember text k.name owner)
  | unresolvedSuperclass {D : SymbolId} {k : Kind} {l : List SymbolId}
      {text last above : String} :
      t.Undefined x → t.Unnamed s x → t.Fits s x →
      t.scopeOwner? s = .ok (some D) → t.kind D = .ok .classType → t.kind x = .ok k →
      t.Inheriting k → t.chain D = .ok l →
      t.superclassName? (l.getLastD D) = .ok (some above) →
      t.superclass (l.getLastD D) = .ok none →
      t.symbolName x = .ok text → t.symbolName (l.getLastD D) = .ok last →
      Refused t s x (.unresolvedSuperclass text last above)
  | cyclicScope {b : ScopeId} {path : List ScopeId} {text : String} :
      t.Undefined x → t.Unnamed s x → t.Fits s x → t.Anchored s x →
      t.body? x = .ok (some b) → t.enclosingPath s = .ok path → b ∈ path →
      t.symbolName x = .ok text →
      Refused t s x (.cyclicScope text)

/-- What is refused is not legal. -/
theorem Refused.not_legal (refused : t.Refused s x refusal) : ¬ t.Legal s x := by
  intro legal
  cases refused with
  | alreadyDefined home _ _ =>
    cases home.symm.trans legal.undefined
  | duplicateSymbol _ lists called _ => exact legal.unnamed _ _ called lists
  | invalidMember _ _ owner aggregate kind other _ _ =>
    exact other (legal.fits _ _ owner aggregate kind)
  | unresolvedSuperclass _ _ _ owner isClass kind needs chain names lacks _ _ =>
    rcases legal.anchored _ _ owner isClass kind needs _ chain with nameless | ⟨P, above⟩
    · cases names.symm.trans nameless
    · cases lacks.symm.trans above
  | cyclicScope _ _ _ _ body path inside _ => exact legal.outdoors _ _ body path inside

theorem member_iff (k : Kind) : k.capabilities.member = true ↔ k ∈ memberKinds := by
  cases k <;> decide

theorem slotNeedsSuperclass_iff : t.slotNeedsSuperclass k = true ↔ t.Inheriting k := by
  simp [slotNeedsSuperclass, Inheriting]

theorem symbolName_of_symbol (read : t.symbol x = .ok a) :
    t.symbolName x = .ok (t.nameText a.name) := by
  rw [symbolName, name, read]
  rfl

theorem owningScope?_of_symbol (read : t.symbol x = .ok a) :
    t.owningScope? x = .ok a.owningScope? := by
  rw [owningScope?, read]
  rfl

theorem isAggregate_iff_of_symbol (read : t.symbol x = .ok a) :
    t.IsAggregate x ↔ a.kind.isAggregate = true := by
  constructor
  · rintro ⟨b, read', aggregate⟩
    cases Except.ok.inj (read.symm.trans read')
    exact aggregate
  · exact fun aggregate => ⟨a, read, aggregate⟩

/-- A scope has no symbol of the name just when it finds none by it. -/
theorem Consistent.unnamed_iff (consistent : t.Consistent) (named : t.Named)
    (symbol : t.symbol x = .ok a) (scope : t.scope s = .ok c) :
    t.Unnamed s x ↔ c.find? a.name = none := by
  obtain ⟨text, reads⟩ := named.reads symbol
  have called := named.symbolName_eq_ok_iff.mpr ⟨a, symbol, reads⟩
  have known := (Names.find?_eq_some_iff named.sound).mpr reads
  have lists : ∀ y, t.Lists s text y ↔ c.find? a.name = some y := by
    intro y
    rw [consistent.lists_iff named scope, known, Option.bind_some]
  rw [Option.eq_none_iff_forall_ne_some]
  constructor
  · exact fun unnamed y found => unnamed text y called ((lists y).mpr found)
  · intro free text' y called'
    cases Except.ok.inj (called.symm.trans called')
    exact fun listed => free y ((lists y).mp listed)

/-! ### The last class of a chain -/

/-- What is said about the last class of a chain: it names a superclass that is not there. -/
theorem missingSuperclass?_eq_some (chain : t.chain D = .ok l) {last above : String}
    (missing : t.missingSuperclass? D = .ok (some (last, above))) :
    t.superclassName? (l.getLastD D) = .ok (some above) ∧
      t.superclass (l.getLastD D) = .ok none ∧ t.symbolName (l.getLastD D) = .ok last := by
  rw [missingSuperclass?, chain, Answer.ok_bind] at missing
  obtain ⟨name, names, missing⟩ := Answer.bind_eq_ok_iff.mp missing
  obtain ⟨r, superclass, missing⟩ := Answer.bind_eq_ok_iff.mp missing
  cases name with
  | none => cases missing
  | some text =>
    cases r with
    | some P => cases missing
    | none =>
      obtain ⟨text', called, missing⟩ := Answer.bind_eq_ok_iff.mp missing
      cases missing
      exact ⟨names, superclass, called⟩

theorem complete_of_missingSuperclass? (missing : t.missingSuperclass? D = .ok none) :
    t.Complete D := by
  intro l chain
  rw [missingSuperclass?, chain, Answer.ok_bind] at missing
  obtain ⟨name, names, missing⟩ := Answer.bind_eq_ok_iff.mp missing
  obtain ⟨r, superclass, missing⟩ := Answer.bind_eq_ok_iff.mp missing
  cases name with
  | none => exact .inl names
  | some text =>
    cases r with
    | some P => exact .inr ⟨P, superclass⟩
    | none =>
      obtain ⟨_, _, missing⟩ := Answer.bind_eq_ok_iff.mp missing
      cases missing

/-- Only a chain that starts with a class can end with a missing superclass. -/
theorem Consistent.kind_of_missingSuperclass? (consistent : t.Consistent)
    (given : t.HasSymbol D) {pair : String × String}
    (missing : t.missingSuperclass? D = .ok (some pair)) : t.kind D = .ok .classType := by
  obtain ⟨b, read⟩ := hasSymbol_iff.mp given
  rw [kind_of_symbol read]
  cases form : b.form with
  | classType layout superclass => rw [Symbol.kind, form, Form.kind]
  | _ =>
    have nameless : b.form.superclassName? = none := by rw [form]; rfl
    have idle : ∀ n q, ¬ t.Seeks D n q := by
      rintro n q ⟨b', read', names, _⟩
      cases Except.ok.inj (read.symm.trans read')
      cases nameless.symm.trans names
    have chain := chain_of_superclass_none (consistent.superclass_of_idle given idle)
    have names := (missingSuperclass?_eq_some chain missing).1
    rw [List.getLastD_cons, List.getLastD_nil, superclassName?, read, Answer.ok_bind,
      nameless] at names
    cases names

/-! ### Refusals -/

/-- What the owner of a scope asks of a member, in terms of the table. -/
theorem fits_and_anchored (symbol : t.symbol x = .ok a) (scope : t.scope s = .ok c)
    (owned : ∀ owner, c.owner? = some owner → ∃ kind, t.kind owner = .ok kind ∧
      (kind.isAggregate = true → a.kind.capabilities.member = true) ∧
      (t.slotNeedsSuperclass a.kind = true → t.missingSuperclass? owner = .ok none)) :
    t.Fits s x ∧ t.Anchored s x := by
  have owner : ∀ {D}, t.scopeOwner? s = .ok (some D) → c.owner? = some D := by
    intro D owner
    rw [scopeOwner?_of_scope scope] at owner
    exact Except.ok.inj owner
  constructor
  · intro D k here aggregate kind
    obtain ⟨j, read, member, _⟩ := owned D (owner here)
    obtain ⟨b, symbol', isAggregate⟩ := aggregate
    cases Except.ok.inj (read.symm.trans (kind_of_symbol symbol'))
    cases Except.ok.inj (kind.symm.trans (kind_of_symbol symbol))
    exact (member_iff a.kind).mp (member isAggregate)
  · intro D k here _ kind needs
    obtain ⟨_, _, _, missing⟩ := owned D (owner here)
    cases Except.ok.inj (kind.symm.trans (kind_of_symbol symbol))
    exact complete_of_missingSuperclass? (missing (slotNeedsSuperclass_iff.mpr needs))

theorem Admits.legal (admits : Admits t s x a c) (consistent : t.Consistent) (named : t.Named) :
    t.Legal s x := by
  obtain ⟨fits, anchored⟩ := fits_and_anchored admits.symbol admits.scope admits.owned
  refine ⟨?_, ?_, fits, anchored, fun b path body walked => ?_⟩
  · rw [Undefined, owningScope?_of_symbol admits.symbol, admits.homeless]
  · exact (consistent.unnamed_iff named admits.symbol admits.scope).mpr admits.unnamed
  · rw [body?_of_symbol admits.symbol] at body
    obtain ⟨path', walked', outside⟩ := admits.outside b (Except.ok.inj body)
    cases Except.ok.inj (walked.symm.trans walked')
    exact outside

theorem refused_of_cycleRefusal? (symbol : t.symbol x = .ok a) (undefined : t.Undefined x)
    (unnamed : t.Unnamed s x) (fits : t.Fits s x) (anchored : t.Anchored s x)
    (refused : t.cycleRefusal? s a = .ok (some refusal)) : t.Refused s x refusal := by
  rw [cycleRefusal?] at refused
  cases body : a.form.body? with
  | none =>
    rw [body] at refused
    cases refused
  | some b =>
    simp only [body] at refused
    obtain ⟨path, walked, refused⟩ := Answer.bind_eq_ok_iff.mp refused
    split at refused
    · rename_i inside
      cases refused
      exact .cyclicScope undefined unnamed fits anchored
        (by rw [body?_of_symbol symbol, body]) walked inside (symbolName_of_symbol symbol)
    · cases refused

theorem Consistent.refused_of_ownerRefusal? (consistent : t.Consistent)
    (symbol : t.symbol x = .ok a) (scope : t.scope s = .ok c) (owned : c.owner? = some D)
    (undefined : t.Undefined x) (unnamed : t.Unnamed s x)
    (refused : t.ownerRefusal? D a = .ok (some refusal)) : t.Refused s x refusal := by
  have owner : t.scopeOwner? s = .ok (some D) := by rw [scopeOwner?_of_scope scope, owned]
  have kind := kind_of_symbol symbol
  rw [ownerRefusal?] at refused
  obtain ⟨j, read, refused⟩ := Answer.bind_eq_ok_iff.mp refused
  obtain ⟨b, symbol', shape⟩ := Answer.bind_eq_ok_iff.mp read
  cases shape
  split at refused
  · rename_i alien
    obtain ⟨text, called, refused⟩ := Answer.bind_eq_ok_iff.mp refused
    cases refused
    exact .invalidMember undefined unnamed owner ⟨b, symbol', alien.1⟩ kind
      (fun member => alien.2 ((member_iff a.kind).mpr member)) (symbolName_of_symbol symbol) called
  · rename_i takes
    have fits : t.Fits s x := by
      intro E k owner' aggregate kind'
      cases Except.ok.inj (owner.symm.trans owner')
      cases Except.ok.inj (kind.symm.trans kind')
      have isAggregate := (isAggregate_iff_of_symbol symbol').mp aggregate
      exact (member_iff _).mp (Decidable.of_not_not fun lacks => takes ⟨isAggregate, lacks⟩)
    split at refused
    · rename_i needs
      obtain ⟨missing, asked, refused⟩ := Answer.bind_eq_ok_iff.mp refused
      cases missing with
      | none => cases refused
      | some pair =>
        cases refused
        have given : t.HasSymbol D := hasSymbol_iff.mpr ⟨b, symbol'⟩
        obtain ⟨l, chain, _⟩ := consistent.exists_chain given
        obtain ⟨names, lacks, called⟩ := missingSuperclass?_eq_some chain asked
        exact .unresolvedSuperclass undefined unnamed fits owner
          (consistent.kind_of_missingSuperclass? given asked) kind
          (slotNeedsSuperclass_iff.mp needs) chain names lacks (symbolName_of_symbol symbol) called
    · cases refused

/-- A definition is refused for the first condition that fails. -/
theorem Consistent.refused_of_refusal? (consistent : t.Consistent) (named : t.Named)
    (symbol : t.symbol x = .ok a) (scope : t.scope s = .ok c)
    (refused : t.refusal? s x = .ok (some refusal)) : t.Refused s x refusal := by
  rw [refusal?, symbol, Answer.ok_bind] at refused
  cases home : a.owningScope? with
  | some q =>
    simp only [home] at refused
    obtain ⟨place, called, refused⟩ := Answer.bind_eq_ok_iff.mp refused
    cases refused
    exact .alreadyDefined (by rw [owningScope?_of_symbol symbol, home])
      (symbolName_of_symbol symbol) called
  | none =>
    have undefined : t.Undefined x := by rw [Undefined, owningScope?_of_symbol symbol, home]
    simp only [home, scope, Answer.ok_bind] at refused
    split at refused
    · rename_i taken
      obtain ⟨place, called, refused⟩ := Answer.bind_eq_ok_iff.mp refused
      cases refused
      have listed : ¬ t.Unnamed s x := by
        rw [consistent.unnamed_iff named symbol scope]
        exact fun none => by simp [none] at taken
      simp only [Unnamed, not_forall, not_not] at listed
      obtain ⟨text, y, called', lists⟩ := listed
      cases Except.ok.inj ((symbolName_of_symbol symbol).symm.trans called')
      exact .duplicateSymbol undefined lists called' called
    · rename_i free
      have unnamed : t.Unnamed s x :=
        (consistent.unnamed_iff named symbol scope).mpr (by simpa using free)
      cases owned : c.owner? with
      | none =>
        obtain ⟨fits, anchored⟩ := fits_and_anchored symbol scope fun D owner => by
          cases owned.symm.trans owner
        simp only [owned] at refused
        exact refused_of_cycleRefusal? symbol undefined unnamed fits anchored refused
      | some D =>
        simp only [owned] at refused
        obtain ⟨first, asked, refused⟩ := Answer.bind_eq_ok_iff.mp refused
        cases first with
        | some refusal' =>
          cases refused
          exact consistent.refused_of_ownerRefusal? symbol scope owned undefined unnamed asked
        | none =>
          obtain ⟨fits, anchored⟩ := fits_and_anchored symbol scope fun E owner => by
            cases owned.symm.trans owner
            exact ownerRefusal?_eq_none asked
          exact refused_of_cycleRefusal? symbol undefined unnamed fits anchored refused

/-! ### What a definition changes -/

/-- `x` was defined in `s`, and nothing else has changed: the scope lists it last, the symbol
stands there and perhaps has a slot now, its body lies in the scope, and the owner of the scope
may have counted the slot. -/
structure Places (t u : Table) (s : ScopeId) (x : SymbolId) (a : Symbol) (c : Scope) : Prop where
  rest : u.config = t.config ∧ u.names = t.names ∧ u.types = t.types
  sizes : u.scopes.size = t.scopes.size ∧ u.symbols.size = t.symbols.size
  scopes : ∀ r d, t.scope r = .ok d → u.scope r = .ok { d with
    members := if s = r then d.members.push x else d.members
    index := if s = r then d.index.insert a.name x else d.index
    enclosing := if a.form.body? = some r then some s else d.enclosing }
  symbol : ∃ form, (form = a.form ∨ ∃ slot, form = a.form.withSlot slot) ∧
    u.symbol x = .ok { a with placement := some ⟨s, c.members.size⟩, form }
  owner : ∀ D e, c.owner? = some D → t.symbol D = .ok e → u.symbol D = .ok e ∨
    ∃ k slot, u.symbol D = .ok { e with form := e.form.mapLayout (counted k slot) }
  others : ∀ y e, y ≠ x → c.owner? ≠ some y → t.symbol y = .ok e → u.symbol y = .ok e

/-- To give a member its slot is to write it, and sometimes to count it. -/
theorem assignSlotIn_eq_ok (read : w.symbol x = .ok a) (assigned : w.assignSlotIn s x = .ok u) :
    u = w ∨ ∃ D slot, w.scopeOwner? s = .ok (some D) ∧ (u = w.setSlot x slot ∨
      ∃ k, u = (w.modifyLayout D (counted k slot)).setSlot x slot) := by
  rw [assignSlotIn] at assigned
  obtain ⟨owner, owned, assigned⟩ := Answer.bind_eq_ok_iff.mp assigned
  cases owner with
  | none =>
    cases assigned
    exact .inl rfl
  | some D =>
    obtain ⟨kind, _, assigned⟩ := Answer.bind_eq_ok_iff.mp assigned
    split at assigned
    · by_cases slotted : a.kind.Slotted
      · obtain ⟨slot, ⟨_, _, written⟩ | ⟨_, _, written⟩⟩ := assignSlot_eq_ok read slotted assigned
        · exact .inr ⟨D, slot, owned, .inl written⟩
        · exact .inr ⟨D, slot, owned, .inr ⟨a.kind, written⟩⟩
      · rw [assignSlot_of_not_slotted read slotted] at assigned
        cases assigned
        exact .inl rfl
    · cases assigned
      exact .inl rfl

theorem placedScope_eq : placedScope s x a r d = { d with
    members := if s = r then d.members.push x else d.members
    index := if s = r then d.index.insert a.name x else d.index
    enclosing := if a.form.body? = some r then some s else d.enclosing } := by
  unfold placedScope
  by_cases here : s = r <;> by_cases inner : a.form.body? = some r <;>
    simp [here, inner, Scope.add]

/-- What owns a scope cannot be defined in it. -/
theorem Admits.ne_owner (admits : Admits t s x a c) (consistent : t.Consistent)
    (owned : c.owner? = some D) : D ≠ x := by
  rintro rfl
  obtain ⟨a', symbol, body⟩ := consistent.owner admits.scope owned
  cases Except.ok.inj (admits.symbol.symm.trans symbol)
  obtain ⟨path, walked, outside⟩ := admits.outside s body
  exact outside (enclosingPath_eq_ok_iff.mp walked).mem_start

theorem Admits.places (admits : Admits t s x a c) (consistent : t.Consistent)
    (assigned : (t.placed s x a c).assignSlotIn s x = .ok u) : t.Places u s x a c := by
  have entry : ∀ {y e}, t.symbol y = .ok e → y ≠ x → (t.placed s x a c).symbol y = .ok e := by
    intro y e read other
    rw [symbol_placed read, placedSymbol, if_neg (Ne.symm other)]
  have here : (t.placed s x a c).symbol x =
      .ok { a with placement := some ⟨s, c.members.size⟩ } := by
    rw [symbol_placed admits.symbol, placedSymbol, if_pos rfl]
  have owner : ∀ {D}, (t.placed s x a c).scopeOwner? s = .ok (some D) → c.owner? = some D := by
    intro D owned
    rw [scopeOwner?_of_scope (scope_placed admits.scope), owner?_placedScope] at owned
    exact Except.ok.inj owned
  obtain ⟨symbols, shape, same⟩ := assignSlotIn_unnumbered assigned
  have sizes := congrArg Array.size same
  rw [Array.size_map, Array.size_map, size_symbols_placed] at sizes
  constructor
  case rest =>
    rw [shape]
    exact ⟨config_placed, names_placed, types_placed⟩
  case sizes =>
    rw [shape]
    exact ⟨size_scopes_placed, sizes⟩
  case scopes =>
    intro r d read
    rw [shape, ← placedScope_eq]
    exact scope_placed read
  case symbol =>
    rcases assignSlotIn_eq_ok here assigned with rfl | ⟨D, slot, owned, rfl | ⟨k, rfl⟩⟩
    · exact ⟨a.form, .inl rfl, here⟩
    · refine ⟨a.form.withSlot slot, .inr ⟨slot, rfl⟩, ?_⟩
      rw [setSlot, symbol_modifySymbol, if_pos rfl, here]
      rfl
    · have apart := admits.ne_owner consistent (owner owned)
      refine ⟨a.form.withSlot slot, .inr ⟨slot, rfl⟩, ?_⟩
      rw [setSlot, symbol_modifySymbol, if_pos rfl, modifyLayout, symbol_modifySymbol,
        if_neg apart, here]
      rfl
  case owner =>
    intro D e owned read
    have apart := admits.ne_owner consistent owned
    have before := entry read apart
    rcases assignSlotIn_eq_ok here assigned with rfl | ⟨E, slot, owned', rfl | ⟨k, rfl⟩⟩
    · exact .inl before
    · refine .inl ?_
      rw [setSlot, symbol_modifySymbol, if_neg (Ne.symm apart), before]
    · cases owned.symm.trans (owner owned')
      refine .inr ⟨k, slot, ?_⟩
      rw [setSlot, symbol_modifySymbol, if_neg (Ne.symm apart), modifyLayout, symbol_modifySymbol,
        if_pos rfl, before]
      rfl
  case others =>
    intro y e other unowned read
    have before := entry read other
    rcases assignSlotIn_eq_ok here assigned with rfl | ⟨E, slot, owned', rfl | ⟨k, rfl⟩⟩
    · exact before
    · rw [setSlot, symbol_modifySymbol, if_neg (Ne.symm other), before]
    · have apart : E ≠ y := by
        rintro rfl
        exact unowned (owner owned')
      rw [setSlot, symbol_modifySymbol, if_neg (Ne.symm other), modifyLayout, symbol_modifySymbol,
        if_neg apart, before]

theorem refusal?_of_define_eq_error (refused : t.define s x = .ok (.error refusal)) :
    t.refusal? s x = .ok (some refusal) := by
  rw [define] at refused
  obtain ⟨first, checked, refused⟩ := Answer.bind_eq_ok_iff.mp refused
  cases first with
  | some refusal' =>
    cases refused
    exact checked
  | none =>
    obtain ⟨_, _, refused⟩ := Answer.bind_eq_ok_iff.mp refused
    obtain ⟨_, _, refused⟩ := Answer.bind_eq_ok_iff.mp refused
    cases refused

/-- In every reachable table a definition succeeds just when it is legal, and then nothing
changes but the entries of the scope, the symbol, its body and the owner of the scope. When it
is not legal, it is refused for the first condition that fails, and nothing changes. -/
theorem Reachable.definition (reachable : t.Reachable) (scope : t.scope s = .ok c)
    (symbol : t.symbol x = .ok a) : ∃ outcome u, t.apply (.define s x) = .ok (outcome, u) ∧
      (outcome = .ok .done ↔ t.Legal s x) ∧
      (outcome = .ok .done ∧ t.Places u s x a c ∨
        ∃ refusal, outcome = .error refusal ∧ t.Refused s x refusal ∧ u = t) := by
  have consistent := reachable.consistent
  have named := reachable.named
  obtain ⟨result, defined⟩ := consistent.exists_define (hasScope_iff.mpr ⟨c, scope⟩)
    (hasSymbol_iff.mpr ⟨a, symbol⟩)
  cases result with
  | error refusal =>
    have refused := consistent.refused_of_refusal? named symbol scope
      (refusal?_of_define_eq_error defined)
    have outcome : t.apply (.define s x) = .ok (.error refusal, t) := by
      rw [apply, defined]
      rfl
    refine ⟨_, _, outcome, ?_, .inr ⟨refusal, rfl, refused, rfl⟩⟩
    simp [refused.not_legal]
  | ok u =>
    obtain ⟨a', c', admits, assigned⟩ := define_eq_ok defined
    cases Except.ok.inj (symbol.symm.trans admits.symbol)
    cases Except.ok.inj (scope.symm.trans admits.scope)
    have outcome : t.apply (.define s x) = .ok (.ok .done, u) := by
      rw [apply, defined]
      rfl
    refine ⟨_, _, outcome, ?_, .inl ⟨rfl, admits.places consistent assigned⟩⟩
    simp [admits.legal consistent named]

/-- A function that is not defined yet, with a class in it that has a method; a class that
extends one that is not there; and a variable and a method that are to be defined. -/
def guarded : Run where
  config := {}
  operations := [
    .declare "f" (.function none), .declare "A" (.classType none), .define ⟨2⟩ ⟨1⟩,
    .declare "m" (.method none), .define ⟨3⟩ ⟨2⟩,
    .declare "B" (.classType (some "C")), .define .global ⟨3⟩,
    .declare "A" (.var none), .declare "n" (.method none)]
  accepted := by decide +kernel

theorem guarded_definition : guarded.final.Reachable ∧ guarded.final.Legal .global ⟨0⟩ ∧
    guarded.final.Refused ⟨3⟩ ⟨1⟩ (.alreadyDefined "A" "f") ∧
    guarded.final.Refused ⟨2⟩ ⟨4⟩ (.duplicateSymbol "A" "f") ∧
    guarded.final.Refused ⟨3⟩ ⟨4⟩ (.invalidMember "A" "variable" "A") ∧
    guarded.final.Refused ⟨5⟩ ⟨5⟩ (.unresolvedSuperclass "n" "B" "C") ∧
    guarded.final.Refused ⟨4⟩ ⟨0⟩ (.cyclicScope "f") := by
  have reachable : guarded.final.Reachable := guarded.reachable guarded.operations.length
  have refused : ∀ s x refusal, guarded.final.HasScope s → guarded.final.HasSymbol x →
      (guarded.final.apply (.define s x)).map Prod.fst = .ok (.error refusal) →
      guarded.final.Refused s x refusal := by
    intro s x refusal scope symbol outcome
    obtain ⟨c, scope⟩ := hasScope_iff.mp scope
    obtain ⟨a, symbol⟩ := hasSymbol_iff.mp symbol
    obtain ⟨first, u, applied, _, ⟨done, _⟩ | ⟨refusal', same, because, _⟩⟩ :=
      Reachable.definition reachable scope symbol
    · rw [applied, done] at outcome
      cases outcome
    · rw [applied, same] at outcome
      cases outcome
      exact because
  refine ⟨reachable, ?_, refused _ _ _ ?_ ?_ ?_, refused _ _ _ ?_ ?_ ?_, refused _ _ _ ?_ ?_ ?_,
    refused _ _ _ ?_ ?_ ?_, refused _ _ _ ?_ ?_ ?_⟩
  · obtain ⟨c, scope⟩ := hasScope_iff.mp (show guarded.final.HasScope .global by decide +kernel)
    obtain ⟨a, symbol⟩ := hasSymbol_iff.mp (show guarded.final.HasSymbol ⟨0⟩ by decide +kernel)
    obtain ⟨outcome, u, applied, legal, _⟩ := Reachable.definition reachable scope symbol
    have done : (guarded.final.apply (.define .global ⟨0⟩)).map Prod.fst = .ok (.ok .done) := by
      decide +kernel
    rw [applied] at done
    exact legal.mp (Except.ok.inj done)
  all_goals decide +kernel

end Table

end Scoping
