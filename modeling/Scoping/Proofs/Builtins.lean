import Scoping.Proofs.Admission
import Scoping.Proofs.OwnTypes
import Scoping.Proofs.Waiting

/-!
# Built-in types

Built-in types are primitive types that are declared one after the other, defined in the
predefined scope, and numbered. A name that is taken there stops this: the types before it
stay, and the one of that name is left undefined. A number stays because later types have
other names, and a type is shared by name only.
-/

namespace Scoping

@[simp]
theorem Pool.numbering_request (pool : Pool) (r : TypeRequest) :
    (pool.request r).2.numbering = pool.numbering := by
  unfold request intern
  split <;> rfl

namespace Table

variable {t u v w : Table} {x y : SymbolId} {a : Symbol} {c : Scope} {text : String}
  {names left done : List String} {first : Nat}

/-- The predefined scope lists a symbol of this name. -/
def Occupied (t : Table) (text : String) : Prop := ∃ x, t.Lists .predefined text x

/-- No name occurs twice or is one of the predefined scope. -/
def Vacant (t : Table) (names : List String) : Prop :=
  names.Nodup ∧ ∀ text ∈ names, ¬ t.Occupied text

/-- The handles of so many symbols that are declared next. -/
def upcoming (t : Table) (count : Nat) : List SymbolId :=
  (List.range count).map fun i => ⟨t.symbols.size + i⟩

/-- Primitive types of these names were defined in the predefined scope and numbered from
`first` on, others were declared after them, and nothing else has changed. -/
structure Installs (t u : Table) (first : Nat) (names left : List String) : Prop where
  size : u.symbols.size = t.symbols.size + names.length + left.length
  scopes : u.scopes.size = t.scopes.size
  earlier : ∀ x a, t.symbol x = .ok a → u.symbol x = .ok a
  elsewhere : ∀ s c, s ≠ .predefined → t.scope s = .ok c → u.scope s = .ok c
  members : ∀ l, t.symbolsOf .predefined = .ok l →
    u.symbolsOf .predefined = .ok (l ++ t.upcoming names.length)
  called : ∀ x, t.HasSymbol x → u.symbolName x = t.symbolName x
  defined : ∀ i text, names[i]? = some text → u.kind ⟨t.symbols.size + i⟩ = .ok .primitiveType ∧
    u.symbolName ⟨t.symbols.size + i⟩ = .ok text ∧
    u.typeIndex? ⟨t.symbols.size + i⟩ = .ok (some (first + i))
  undefined : ∀ i text, left[i]? = some text →
    u.kind ⟨t.symbols.size + names.length + i⟩ = .ok .primitiveType ∧
    u.symbolName ⟨t.symbols.size + names.length + i⟩ = .ok text ∧
    u.owningScope? ⟨t.symbols.size + names.length + i⟩ = .ok none
  numbers : ∀ x, t.HasSymbol x → (∀ text ∈ names, t.symbolName x ≠ .ok text) →
    u.typeIndex? x = t.typeIndex? x

theorem upcoming_succ (size : u.symbols.size = t.symbols.size + 1) (count : Nat) :
    t.upcoming (count + 1) = t.upcoming 1 ++ u.upcoming count := by
  simp only [upcoming, size, List.range_succ_eq_map, List.map_cons, List.map_map]
  simp [Function.comp_def, Nat.add_assoc, Nat.add_comm 1]

namespace Installs

theorem refl (t : Table) (first : Nat) : Installs t t first [] [] where
  size := rfl
  scopes := rfl
  earlier _ _ read := read
  elsewhere _ _ _ read := read
  members l listed := by rw [listed, upcoming, List.length_nil, List.range_zero]; simp
  called _ _ := rfl
  defined _ _ none := by simp at none
  undefined _ _ none := by simp at none
  numbers _ _ _ := rfl

theorem hasSymbol (installs : Installs t u first names left) (given : t.HasSymbol x) :
    u.HasSymbol x := by
  obtain ⟨a, read⟩ := hasSymbol_iff.mp given
  exact hasSymbol_iff.mpr ⟨a, installs.earlier x a read⟩

theorem kind_eq (installs : Installs t u first names left) (given : t.HasSymbol x) :
    u.kind x = t.kind x := by
  obtain ⟨a, read⟩ := hasSymbol_iff.mp given
  rw [kind_of_symbol read, kind_of_symbol (installs.earlier x a read)]

/-- One name after the other is one more name, if it does not come again. -/
theorem cons (one : Installs t w first [text] []) (more : Installs w u (first + 1) names left)
    (apart : text ∉ names) : Installs t u first (text :: names) left := by
  have size : w.symbols.size = t.symbols.size + 1 := one.size
  have here : w.HasSymbol ⟨t.symbols.size⟩ := by
    rw [HasSymbol, size]
    exact Nat.lt_succ_self _
  constructor
  case size =>
    rw [more.size, size, List.length_cons]
    omega
  case scopes => exact more.scopes.trans one.scopes
  case earlier => exact fun x a read => more.earlier x a (one.earlier x a read)
  case elsewhere =>
    exact fun s c other read => more.elsewhere s c other (one.elsewhere s c other read)
  case members =>
    intro l listed
    rw [more.members _ (one.members l listed), List.append_assoc]
    exact congrArg (fun m => Except.ok (l ++ m)) (upcoming_succ size names.length).symm
  case called => exact fun x given =>
    (more.called x (one.hasSymbol given)).trans (one.called x given)
  case defined =>
    intro i name nth
    cases i with
    | zero =>
      cases nth
      obtain ⟨kind, called, numbered⟩ := one.defined 0 text rfl
      have kept := more.numbers ⟨t.symbols.size⟩ here fun name member same => by
        cases Except.ok.inj (called.symm.trans same)
        exact apart member
      exact ⟨(more.kind_eq here).trans kind, (more.called _ here).trans called,
        kept.trans numbered⟩
    | succ i =>
      have told := more.defined i name nth
      rw [size] at told
      rwa [Nat.add_comm i 1, ← Nat.add_assoc, ← Nat.add_assoc]
  case undefined =>
    intro i name nth
    have told := more.undefined i name nth
    rw [size] at told
    rwa [List.length_cons, Nat.add_comm names.length 1, ← Nat.add_assoc]
  case numbers =>
    intro x given others
    rw [List.forall_mem_cons] at others
    refine (more.numbers x (one.hasSymbol given) fun name member => ?_).trans
      (one.numbers x given fun name member => ?_)
    · rw [one.called x given]
      exact others.2 name member
    · rw [List.mem_singleton.mp member]
      exact others.1

/-- The names of the predefined scope are those before and those that were added. -/
theorem occupied_iff (installs : Installs t u first names left) (consistent : t.Consistent)
    (forest : t.Forest) : u.Occupied text ↔ t.Occupied text ∨ text ∈ names := by
  obtain ⟨c, root, _⟩ := forest.root
  have listed := symbolsOf_eq_ok_iff.mpr ⟨c, root, rfl⟩
  have old : ∀ x ∈ c.members.toList, t.HasSymbol x := fun x member =>
    consistent.hasSymbol_of_listed root (Array.mem_toList_iff.mp member)
  have now := installs.members _ listed
  constructor
  · rintro ⟨x, l, known, member, called⟩
    cases Except.ok.inj (now.symm.trans known)
    rcases List.mem_append.mp member with member | member
    · exact .inl ⟨x, _, listed, member, (installs.called x (old x member)).symm.trans called⟩
    · obtain ⟨i, within, rfl⟩ := List.mem_map.mp member
      have nth := List.getElem?_eq_getElem (List.mem_range.mp within)
      obtain ⟨_, called', _⟩ := installs.defined i _ nth
      cases Except.ok.inj (called.symm.trans called')
      exact .inr (List.getElem_mem _)
  · rintro (⟨x, l, known, member, called⟩ | member)
    · cases Except.ok.inj (listed.symm.trans known)
      exact ⟨x, _, now, List.mem_append_left _ member,
        (installs.called x (old x member)).trans called⟩
    · obtain ⟨i, nth⟩ := List.mem_iff_getElem?.mp member
      have within := (List.getElem?_eq_some_iff.mp nth).1
      obtain ⟨_, called, _⟩ := installs.defined i text nth
      refine ⟨⟨t.symbols.size + i⟩, _, now, List.mem_append_right _ ?_, called⟩
      exact List.mem_map.mpr ⟨i, List.mem_range.mpr within, rfl⟩

/-- A name may be followed by those that are vacant once it is there. -/
theorem vacant_cons_iff (one : Installs t w first [text] []) (consistent : t.Consistent)
    (forest : t.Forest) : t.Vacant (text :: names) ↔ ¬ t.Occupied text ∧ w.Vacant names := by
  have others : (∀ name ∈ names, ¬ w.Occupied name) ↔
      text ∉ names ∧ ∀ name ∈ names, ¬ t.Occupied name := by
    simp only [one.occupied_iff consistent forest, List.mem_singleton, not_or]
    constructor
    · intro free
      exact ⟨fun member => (free text member).2 rfl, fun name member => (free name member).1⟩
    · rintro ⟨new, free⟩ name member
      exact ⟨free name member, fun same => new (same ▸ member)⟩
  rw [Vacant, Vacant, List.nodup_cons, List.forall_mem_cons, others]
  tauto

end Installs

/-! ### One type -/

theorem typeIndex?_congr (asType : u.asType? x = t.asType? x)
    (numbers : u.types.numbering = t.types.numbering) : u.typeIndex? x = t.typeIndex? x := by
  have same : u.types.typeIndex? = t.types.typeIndex? := by
    funext id
    rw [Pool.typeIndex?, Pool.typeIndex?, numbers]
  rw [typeIndex?_eq, typeIndex?_eq, asType, same]

/-- To declare a primitive type is to add a symbol, and perhaps a name and a type. -/
theorem declare_primitiveType (named : text ≠ "") (t : Table) : ∃ v name type,
    t.declare text .primitiveType = .ok (t.nextSymbol, v) ∧ v.scopes = t.scopes ∧
      v.symbols = t.symbols.push { name, form := .primitiveType type } ∧
      v.types.numbering = t.types.numbering := by
  rw [declare, if_neg named]
  exact ⟨_, _, _, rfl, rfl, rfl, Pool.numbering_request _ _⟩

/-- A primitive type that is declared is the last symbol, undefined, and gives no other symbol
another number. -/
theorem Reachable.installs_declare (reachable : t.Reachable) (named : text ≠ "") (first : Nat) :
    ∃ v name type, t.declare text .primitiveType = .ok (t.nextSymbol, v) ∧ v.Reachable ∧
      v.symbol t.nextSymbol = .ok { name, form := .primitiveType type } ∧
      Installs t v first [] [text] := by
  obtain ⟨v, name, type, declared, scopes, symbols, numbers⟩ := declare_primitiveType named t
  have proper : (Operation.declare text .primitiveType).Proper t := named
  have reached := reachable.steps (.step (.refl t) proper (by rw [apply, declared]; rfl))
  have keeps := Keeps.declare declared
  have last : v.symbol t.nextSymbol = .ok { name, form := .primitiveType type } :=
    (symbol_push_iff symbols).mpr (.inr ⟨rfl, rfl⟩)
  have read : v.scope = t.scope := scope_congr scopes
  refine ⟨v, name, type, declared, reached, last, ?_⟩
  constructor
  case size =>
    rw [symbols]
    simp
  case scopes => rw [scopes]
  case earlier => exact fun x a known => (symbol_push_iff symbols).mpr (.inl known)
  case elsewhere =>
    intro s c _ known
    rwa [read]
  case members =>
    intro l listed
    rw [symbolsOf, read, ← symbolsOf, listed]
    simp [upcoming]
  case called => exact fun x given => keeps.symbolName_eq reachable.named given
  case defined =>
    intro i name none
    simp at none
  case undefined =>
    intro i other nth
    obtain ⟨rfl, rfl⟩ : i = 0 ∧ text = other := by simpa [List.getElem?_singleton] using nth
    refine ⟨kind_of_symbol last, ?_, owningScope?_of_symbol last⟩
    obtain ⟨_, b, pushed, fresh⟩ := declare_names declared
    have entry := (symbol_push_iff pushed).mpr (.inr ⟨rfl, rfl⟩)
    exact reached.named.symbolName_eq_ok_iff.mpr ⟨b, entry, fresh reachable.named.sound⟩
  case numbers => exact fun x given _ => typeIndex?_congr (keeps.fixed_eq given).2.2.2 numbers

/-- The predefined scope has no owner and is called so. -/
theorem Reachable.scopeName_predefined (reachable : t.Reachable) :
    t.scopeName .predefined = .ok "predefined" := by
  obtain ⟨config, steps⟩ := reachable
  have keeps := Keeps.steps (consistent_new config) steps
  obtain ⟨c, read, kept⟩ := keeps.scope (s := .predefined) rfl
  rw [scopeName, scopeKind, read]
  simp only [Answer.ok_bind, Answer.pure_eq_ok, kept.kind]
  rfl

/-- A symbol without a body that is not defined yet is refused by the predefined scope only
for its name. -/
theorem Reachable.define_predefined (reachable : v.Reachable) (symbol : v.symbol x = .ok a)
    (undefined : a.placement = none) (bodiless : a.form.body? = none)
    (called : v.symbolName x = .ok text) :
    v.Occupied text ∧
      v.define .predefined x = .ok (.error (.duplicateSymbol text "predefined")) ∨
    ¬ v.Occupied text ∧ ∃ c w, c.owner? = none ∧ v.scope .predefined = .ok c ∧
      v.define .predefined x = .ok (.ok w) ∧ v.Places w .predefined x a c := by
  have consistent := reachable.consistent
  obtain ⟨c, root, free, _⟩ := reachable.forest.root
  have ownerless : ∀ D, v.scopeOwner? .predefined ≠ .ok (some D) := by
    intro D owner
    rw [scopeOwner?_of_scope root, free] at owner
    cases owner
  obtain ⟨result, defined⟩ := consistent.exists_define (hasScope_iff.mpr ⟨c, root⟩)
    (hasSymbol_iff.mpr ⟨a, symbol⟩)
  cases result with
  | error refusal =>
    have refused := consistent.refused_of_refusal? reachable.named symbol root
      (refusal?_of_define_eq_error defined)
    cases refused with
    | alreadyDefined home _ _ =>
      rw [owningScope?_of_symbol symbol, Symbol.owningScope?, undefined] at home
      cases home
    | duplicateSymbol _ lists called' place =>
      cases Except.ok.inj (called.symm.trans called')
      cases Except.ok.inj (reachable.scopeName_predefined.symm.trans place)
      exact .inl ⟨⟨_, lists⟩, defined⟩
    | invalidMember _ _ owner => exact absurd owner (ownerless _)
    | unresolvedSuperclass _ _ _ owner => exact absurd owner (ownerless _)
    | cyclicScope _ _ _ _ body =>
      rw [body?_of_symbol symbol, bodiless] at body
      cases body
  | ok w =>
    obtain ⟨a', c', admits, assigned⟩ := define_eq_ok defined
    cases Except.ok.inj (symbol.symm.trans admits.symbol)
    cases Except.ok.inj (root.symm.trans admits.scope)
    have unnamed := (admits.legal consistent reachable.named).unnamed
    refine .inr ⟨?_, c, w, free, root, defined, admits.places consistent assigned⟩
    rintro ⟨y, lists⟩
    exact unnamed text y called lists

/-- The own type of a symbol is used by no symbol of another name. -/
theorem Owned.asType?_ne {id : TypeId} (owned : w.Owned) (own : w.OwnType x id)
    (apart : w.symbolName y ≠ w.symbolName x) : w.asType? y ≠ .ok (some id) := by
  intro shared
  have other : y ≠ x := fun same => apart (congrArg w.symbolName same)
  obtain ⟨_, _, name⟩ := owned.samePrimitive other shared own.asType
  exact apart (by rw [symbolName, symbolName, name])

/-- The symbol that was left undefined is defined and numbered after all. -/
theorem Installs.settle (installs : Installs t v first [] [text]) (reachable : v.Reachable)
    (symbol : v.symbol t.nextSymbol = .ok a) (bodiless : a.form.body? = none)
    (root : v.scope .predefined = .ok c) (free : c.owner? = none)
    (defined : v.define .predefined t.nextSymbol = .ok (.ok w))
    (places : v.Places w .predefined t.nextSymbol a c) :
    ∃ u, w.setTypeIndex t.nextSymbol first = .ok u ∧ u.Reachable ∧
      Installs t u first [text] [] := by
  obtain ⟨kind, called, _⟩ := installs.undefined 0 text rfl
  have given : v.HasSymbol t.nextSymbol := hasSymbol_iff.mpr ⟨a, symbol⟩
  have defining : (Operation.define .predefined t.nextSymbol).Proper v :=
    ⟨hasScope_iff.mpr ⟨c, root⟩, given⟩
  have reached : w.Reachable :=
    reachable.steps (.step (.refl v) defining (by rw [apply, defined]; rfl))
  have keeps := Keeps.define reachable.consistent defined
  have kind' : w.kind t.nextSymbol = .ok .primitiveType := (keeps.fixed_eq given).2.1.trans kind
  have called' : w.symbolName t.nextSymbol = .ok text :=
    (keeps.symbolName_eq reachable.named given).trans called
  have isType : w.IsType t.nextSymbol := by
    rw [IsType, capabilities, kind']
    rfl
  obtain ⟨id, own⟩ := reached.owned.exists_ownType isType
  obtain ⟨u, set, numbered, kept⟩ := own.setTypeIndex first
  have numbering : (Operation.setTypeIndex t.nextSymbol first).Proper w := keeps.hasSymbol given
  have reached' : u.Reachable :=
    reached.steps (.step (.refl w) numbering (by rw [apply, set]; rfl))
  refine ⟨u, set, reached', ?_⟩
  -- numbers stand beside scopes, symbols and names
  obtain ⟨types, rfl⟩ := setTypeIndex_types set
  have earlier : ∀ y, t.HasSymbol y → v.HasSymbol y ∧ w.symbolName y = t.symbolName y := by
    intro y old
    have old' := installs.hasSymbol old
    exact ⟨old', (keeps.symbolName_eq reachable.named old').trans (installs.called y old)⟩
  constructor
  case size => exact places.sizes.2.trans installs.size
  case scopes => exact places.sizes.1.trans installs.scopes
  case earlier =>
    intro y b read
    have apart : y ≠ t.nextSymbol := by
      rintro rfl
      exact not_symbol_nextSymbol read
    exact places.others y b apart (by simp [free]) (installs.earlier y b read)
  case elsewhere =>
    intro s d other read
    have read' := places.scopes s d (installs.elsewhere s d other read)
    rwa [if_neg (Ne.symm other), if_neg (Ne.symm other), bodiless, if_neg (by simp)] at read'
  case members =>
    intro l listed
    obtain ⟨c', root', same⟩ := symbolsOf_eq_ok_iff.mp (installs.members l listed)
    cases Except.ok.inj (root.symm.trans root')
    refine symbolsOf_eq_ok_iff.mpr ⟨_, places.scopes _ c root, ?_⟩
    rw [if_pos rfl, Array.toList_push, same]
    simp [upcoming, nextSymbol]
  case called => exact fun y old => (earlier y old).2
  case defined =>
    intro i other nth
    obtain ⟨rfl, rfl⟩ : i = 0 ∧ text = other := by simpa [List.getElem?_singleton] using nth
    exact ⟨kind', called', numbered⟩
  case undefined =>
    intro i other none
    simp at none
  case numbers =>
    intro y old others
    obtain ⟨old', name⟩ := earlier y old
    have apart : w.symbolName y ≠ w.symbolName t.nextSymbol := by
      rw [name, called']
      exact others text List.mem_cons_self
    have before : w.typeIndex? y = v.typeIndex? y :=
      typeIndex?_congr (keeps.fixed_eq old').2.2.2 (by rw [places.rest.2.2])
    exact (kept y (reached.owned.asType?_ne own apart)).trans
      (before.trans (installs.numbers y old (by simp)))

/-! ### All of them -/

/-- What the definition of built-in types comes to. All names are vacant and installed, or some
are, the next one is taken, and its type is left undefined. -/
inductive Built (t u : Table) (first : Nat) :
    List String → Except Refusal (List SymbolId) → Prop
  | all {names : List String} : t.Vacant names → Installs t u first names [] →
      Built t u first names (.ok (t.upcoming names.length))
  | stopped {done rest : List String} {text : String} : t.Vacant done →
      text ∈ done ∨ t.Occupied text → Installs t u first done [text] →
      Built t u first (done ++ text :: rest) (.error (.duplicateSymbol text "predefined"))

/-- After one type is installed, what the others come to is what all come to. -/
theorem Built.cons {outcome : Except Refusal (List SymbolId)} (one : Installs t w first [text] [])
    (consistent : t.Consistent) (forest : t.Forest) (free : ¬ t.Occupied text)
    (more : Built w u (first + 1) names outcome) :
    Built t u first (text :: names) (outcome.map (t.nextSymbol :: ·)) := by
  have longer : ∀ {names}, w.Vacant names → t.Vacant (text :: names) := fun vacant =>
    (one.vacant_cons_iff consistent forest).mpr ⟨free, vacant⟩
  cases more with
  | all vacant installs =>
    have apart := (List.nodup_cons.mp (longer vacant).1).1
    have handles := upcoming_succ one.size names.length
    have answer : t.nextSymbol :: w.upcoming names.length = t.upcoming (text :: names).length :=
      handles.symm
    rw [Except.map, answer]
    exact .all (longer vacant) (one.cons installs apart)
  | @stopped done rest name vacant taken installs =>
    have apart := (List.nodup_cons.mp (longer vacant).1).1
    have taken' : name ∈ text :: done ∨ t.Occupied name := by
      rw [one.occupied_iff consistent forest, List.mem_singleton] at taken
      rw [List.mem_cons]
      tauto
    exact .stopped (longer vacant) taken' (one.cons installs apart)

theorem Reachable.exists_built (reachable : t.Reachable) (named : "" ∉ names) (first : Nat) :
    ∃ outcome u, t.defineBuiltinsFrom first names = .ok (outcome, u) ∧
      Built t u first names outcome := by
  induction names generalizing t first with
  | nil => exact ⟨_, t, rfl, .all ⟨List.nodup_nil, by simp⟩ (.refl t first)⟩
  | cons text rest ih =>
    rw [List.mem_cons, not_or] at named
    have consistent := reachable.consistent
    have forest := reachable.forest
    obtain ⟨v, name, type, declared, reached, symbol, installs⟩ :=
      reachable.installs_declare (Ne.symm named.1) first
    obtain ⟨_, called, _⟩ := installs.undefined 0 text rfl
    have same : v.Occupied text ↔ t.Occupied text := by
      rw [installs.occupied_iff consistent forest]
      simp
    rw [defineBuiltinsFrom, declared]
    simp only [Answer.ok_bind]
    rcases reached.define_predefined symbol rfl rfl called with
      ⟨taken, defined⟩ | ⟨free, c, w, ownerless, root, defined, places⟩
    · rw [defined]
      have stopped : Built t v first ([] ++ text :: rest) _ :=
        .stopped ⟨List.nodup_nil, by simp⟩ (.inr (same.mp taken)) installs
      exact ⟨_, v, rfl, stopped⟩
    · rw [same] at free
      obtain ⟨u, numbered, reached', one⟩ :=
        installs.settle reached symbol rfl root ownerless defined places
      obtain ⟨outcome, u', further, built⟩ := ih reached' named.2 (first + 1)
      simp only [defined, Answer.ok_bind, numbered, further]
      exact ⟨_, u', rfl, built.cons one consistent forest free⟩

/-- Built-in types are installed just when their names are vacant. -/
theorem Built.vacant_iff {outcome : Except Refusal (List SymbolId)}
    (built : Built t u first names outcome) :
    (∃ handles, outcome = .ok handles) ↔ t.Vacant names := by
  cases built with
  | all vacant _ => exact iff_of_true ⟨_, rfl⟩ vacant
  | @stopped done rest text _ taken _ =>
    refine iff_of_false (fun ⟨_, same⟩ => by cases same) fun vacant => ?_
    rcases taken with again | occupied
    · exact (List.nodup_append.mp vacant.1).2.2 text again text List.mem_cons_self rfl
    · exact vacant.2 text (List.mem_append_right done List.mem_cons_self) occupied

/-- In every reachable table built-in types are defined just when their names are pairwise
different and none is one of the predefined scope. They are then the next symbols, the last
members of that scope and numbered from 1. Otherwise this holds of those before the first name
that is taken, the type of that name is left undefined, and nothing else changes. -/
theorem Reachable.builtins (reachable : t.Reachable) (named : "" ∉ names) :
    ∃ outcome u, t.apply (.defineBuiltins names) = .ok (outcome, u) ∧
      ((∃ reply, outcome = .ok reply) ↔
        names.Nodup ∧ ∀ text ∈ names, ∀ x, ¬ t.Lists .predefined text x) ∧
      (outcome = .ok (.symbols (t.upcoming names.length)) ∧ Installs t u 1 names [] ∨
        ∃ done text rest, names = done ++ text :: rest ∧
          outcome = .error (.duplicateSymbol text "predefined") ∧
          (text ∈ done ∨ ∃ x, t.Lists .predefined text x) ∧
          done.Nodup ∧ (∀ earlier ∈ done, ∀ x, ¬ t.Lists .predefined earlier x) ∧
          Installs t u 1 done [text]) := by
  obtain ⟨outcome, u, defined, built⟩ := reachable.exists_built named 1
  have vacant_iff : ∀ names, t.Vacant names ↔
      names.Nodup ∧ ∀ text ∈ names, ∀ x, ¬ t.Lists .predefined text x := by
    intro names
    simp only [Vacant, Occupied, not_exists]
  have success := built.vacant_iff.trans (vacant_iff names)
  refine ⟨outcome.map .symbols, u, ?_, ?_, ?_⟩
  · rw [apply, defineBuiltins, defined]
    rfl
  · rw [← success]
    cases outcome <;> simp [Except.map]
  · cases built with
    | all _ installs => exact .inl ⟨rfl, installs⟩
    | stopped vacant taken installs =>
      obtain ⟨distinct, new⟩ := (vacant_iff _).mp vacant
      exact .inr ⟨_, _, _, rfl, rfl, taken, distinct, new, installs⟩

/-- A primitive type that is not defined and has a number, a built-in type, and a function. -/
def prelude : Run where
  config := {}
  operations := [
    .declare "int" .primitiveType, .setTypeIndex ⟨0⟩ 7, .defineBuiltins ["bool"],
    .declare "f" (.function none), .define .global ⟨2⟩]
  accepted := by decide +kernel

/-- The type of the undefined symbol may be built in, which numbers it anew. The one that is
built in already is refused. -/
theorem prelude_builtins : prelude.final.Reachable ∧ "" ∉ ["int", "char"] ∧
    (∃ u, prelude.final.apply (.defineBuiltins ["int", "char"]) =
        .ok (.ok (.symbols [⟨3⟩, ⟨4⟩]), u) ∧
      Installs prelude.final u 1 ["int", "char"] []) ∧
    "" ∉ ["int", "bool", "char"] ∧
    ∃ u done rest, ["int", "bool", "char"] = done ++ "bool" :: rest ∧
      prelude.final.apply (.defineBuiltins ["int", "bool", "char"]) =
        .ok (.error (.duplicateSymbol "bool" "predefined"), u) ∧
      Installs prelude.final u 1 done ["bool"] := by
  have reachable : prelude.final.Reachable := prelude.reachable prelude.operations.length
  have named : "" ∉ ["int", "char"] := by decide
  have named' : "" ∉ ["int", "bool", "char"] := by decide
  refine ⟨reachable, named, ?_, named', ?_⟩
  · have done : (prelude.final.apply (.defineBuiltins ["int", "char"])).map Prod.fst =
        .ok (.ok (.symbols [⟨3⟩, ⟨4⟩])) := by decide +kernel
    obtain ⟨outcome, u, applied, _, ⟨_, installs⟩ | ⟨_, _, _, _, refused, _⟩⟩ :=
      Reachable.builtins reachable named
    · cases Except.ok.inj ((congrArg (Except.map Prod.fst) applied).symm.trans done)
      exact ⟨u, applied, installs⟩
    · rw [applied, refused] at done
      cases done
  · have refused : (prelude.final.apply (.defineBuiltins ["int", "bool", "char"])).map Prod.fst =
        .ok (.error (.duplicateSymbol "bool" "predefined")) := by decide +kernel
    obtain ⟨outcome, u, applied, _, ⟨built, _⟩ | ⟨done, text, rest, split, stops, _, _, _,
      installs⟩⟩ := Reachable.builtins reachable named'
    · rw [applied, built] at refused
      cases refused
    · cases stops
      cases Except.ok.inj ((congrArg (Except.map Prod.fst) applied).symm.trans refused)
      exact ⟨u, done, rest, split, applied, installs⟩

end Table

end Scoping
